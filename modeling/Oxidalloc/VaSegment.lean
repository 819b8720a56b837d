import Oxidalloc.Halting
import Oxidalloc.WordBitmap

/-!
A `Segment` of the virtual address bitmap, without concurrency: one bit of `map`
for each 4 KiB block of the reservation, the `claim` words that `try_claim` uses
while it checks, and the search hint. A spurious failure of `compare_exchange_weak`
only repeats the check of the same words, so it does not appear here.
-/
namespace Oxidalloc

open WordBitmap

def blockSize : ℕ := 4096

def maxRandomBytes : ℕ := 256 * 1024 * 1024

def maxRandomBlocks : ℕ := maxRandomBytes / blockSize

structure Segment where
  ptr : ℕ
  vaStart : ℕ
  vaEnd : ℕ
  map : Words
  claim : Words
  hint : ℕ
  mapLen : ℕ
  full : Bool
  failedTrys : ℕ

/-- The number of blocks of a size; the addition of `BLOCK_SIZE` is checked. -/
def blocksOf (size : ℕ) : Except Halt ℕ :=
  if usizeBound ≤ size + blockSize then .error .panic
  else .ok ((size + blockSize - 1) / blockSize)

namespace Segment

def maxBits (s : Segment) : ℕ := (s.vaEnd - s.vaStart) / blockSize

/-- The loops over the pieces of a range that set or clear bits word by word. -/
def setPieces (start count : ℕ) : ℕ → ℕ → Words → Words
  | 0, _, words => words
  | fuel + 1, done, words =>
    if done < count then
      setPieces start count fuel (done + pieceLen start count done)
        (setBits words (start + done) (pieceLen start count done))
    else words

def clearPieces (start count : ℕ) : ℕ → ℕ → Words → Words
  | 0, _, words => words
  | fuel + 1, done, words =>
    if done < count then
      clearPieces start count fuel (done + pieceLen start count done)
        (clearBits words (start + done) (pieceLen start count done))
    else words

def rollbackClaim (s : Segment) (startIdx count : ℕ) : Segment :=
  { s with claim := clearPieces startIdx count count 0 s.claim }

/-- The first loop of `try_claim`: claim the pieces one after the other, and undo
the claim at the first piece that is taken. -/
def claimPieces (startIdx count : ℕ) : ℕ → ℕ → Segment → Bool × Segment
  | 0, _, s => (true, s)
  | fuel + 1, done, s =>
    if done < count then
      if (s.claim ((startIdx + done) / 64) ||| s.map ((startIdx + done) / 64)) &&&
          mask (pieceLen startIdx count done) ((startIdx + done) % 64) = 0#64 then
        claimPieces startIdx count fuel (done + pieceLen startIdx count done)
          { s with claim := setBits s.claim (startIdx + done) (pieceLen startIdx count done) }
      else (false, s.rollbackClaim startIdx done)
    else (true, s)

def tryClaim (s : Segment) (startIdx count : ℕ) : Bool × Segment :=
  match claimPieces startIdx count count 0 s with
  | (false, s) => (false, s)
  | (true, s) =>
    (true, { s with
      map := setPieces startIdx count count 0 s.map
      claim := clearPieces startIdx count count 0 s.claim })

/-- The first n rounds of `rollback`, which clears the bits one by one. -/
def rollbackLoop (startIdx : ℕ) (words : Words) : ℕ → Words
  | 0 => words
  | n + 1 => clearBits (rollbackLoop startIdx words n) (startIdx + n) 1

def rollback (s : Segment) (startIdx count : ℕ) : Segment :=
  { s with map := rollbackLoop startIdx s.map count }

/-- The index of the lowest set bit, 64 if there is none. -/
def trailingZeros (w : Word) : ℕ := ((List.range 64).find? fun i => w.getLsbD i).getD 64

/-- The `while chunk != u64::MAX` loop over the clear bits of one word. Each round
sets a bit of `chunk`, so 64 rounds are enough. -/
def scanWord (totalBits i : ℕ) : ℕ → Word → Segment → Option ℕ × Segment
  | 0, _, s => (none, s)
  | fuel + 1, chunk, s =>
    if chunk = BitVec.allOnes 64 then (none, s)
    else
      let bit := trailingZeros (~~~chunk)
      let globalIdx := i * 64 + bit
      if totalBits ≤ globalIdx then (none, s)
      else
        match s.tryClaim globalIdx 1 with
        | (true, s) => (some (s.vaStart + globalIdx * blockSize), { s with hint := i })
        | (false, s) => scanWord totalBits i fuel (chunk ||| (1#64 <<< bit)) s

/-- The two `for` loops of `alloc_single`, over the word indices in their order. -/
def scanWords (totalBits : ℕ) : List ℕ → Segment → Option ℕ × Segment
  | [], s => (none, s)
  | i :: rest, s =>
    let chunk := s.map i
    let chunk :=
      if i = (totalBits + 63) / 64 - 1 ∧ totalBits % 64 ≠ 0 then
        chunk ||| ~~~(1#64 <<< (totalBits % 64) - 1#64)
      else chunk
    match scanWord totalBits i 65 chunk s with
    | (some addr, s) => (some addr, s)
    | (none, s) => scanWords totalBits rest s

/-- The sum of the hint and the random number is checked in the source; a hint is the index of
a word of the map, so that it stays small. -/
def allocSingle (s : Segment) (random : ℕ) : Option ℕ × Segment :=
  let totalBits := s.maxBits
  if totalBits = 0 then (none, s)
  else
    let chunks := (totalBits + 63) / 64
    let randBlocks := random &&& (maxRandomBlocks - 1)
    let startChunk := (s.hint * 64 + randBlocks) / 64 % chunks
    scanWords totalBits
      (List.range' startChunk (chunks - startChunk) ++ List.range' 0 startChunk) s

/-- The accumulators of the search for a run of clear bits. -/
structure Search where
  currentRun : ℕ
  runStart : ℕ
  globalBit : ℕ

inductive Found where
  | claimed (addr : ℕ) (s : Segment)
  | ended (q : Search) (s : Segment)

/-- The claim of the run found, with the hint and the address that go with it. -/
def claimRun (s : Segment) (runStart count : ℕ) : Option ℕ × Segment :=
  match s.tryClaim runStart count with
  | (true, s) => (some (s.vaStart + runStart * blockSize), { s with hint := runStart / 64 })
  | (false, s) => (none, s)

/-- The `while global_bit < range_end` loop of `alloc_multi`; each round advances
`global_bit`. -/
def searchRun (count rangeEnd : ℕ) : ℕ → Search → Segment → Found
  | 0, q, s => .ended q s
  | fuel + 1, q, s =>
    if rangeEnd ≤ q.globalBit then .ended q s
    else
      let chunkIdx := q.globalBit / 64
      let bitInChunk := q.globalBit % 64
      let chunk := s.map chunkIdx
      let runStart := if q.currentRun = 0 then q.globalBit else q.runStart
      if bitInChunk = 0 ∧ chunk = 0#64 then
        let skip := min 64 (rangeEnd - q.globalBit)
        let currentRun := q.currentRun + skip
        if count ≤ currentRun then
          match s.claimRun runStart count with
          | (some addr, s) => .claimed addr s
          | (none, s) => searchRun count rangeEnd fuel ⟨0, runStart, q.globalBit + 1⟩ s
        else searchRun count rangeEnd fuel ⟨currentRun, runStart, q.globalBit + skip⟩ s
      else if chunk = BitVec.allOnes 64 then
        searchRun count rangeEnd fuel ⟨0, q.runStart, (chunkIdx + 1) * 64⟩ s
      else if chunk.getLsbD bitInChunk then
        searchRun count rangeEnd fuel ⟨0, q.runStart, q.globalBit + 1⟩ s
      else if q.currentRun + 1 = count then
        match s.claimRun runStart count with
        | (some addr, s) => .claimed addr s
        | (none, s) => searchRun count rangeEnd fuel ⟨0, runStart, q.globalBit + 1⟩ s
      else searchRun count rangeEnd fuel ⟨q.currentRun + 1, runStart, q.globalBit + 1⟩ s

/-- How far the run at the end of the second range goes on beyond `start_bit`. -/
def extendRun (map : Words) (totalBits need : ℕ) : ℕ → ℕ → ℕ → ℕ
  | 0, _, extend => extend
  | fuel + 1, b, extend =>
    if b < totalBits ∧ extend < need then
      if (map (b / 64)).getLsbD (b % 64) then extend
      else extendRun map totalBits need fuel (b + 1) (extend + 1)
    else extend

/-- One round of the `for` loop over the two ranges: the search, and for the range
before `start_bit` the attempt to join its last run with the clear bits after it. -/
def searchRange (s : Segment) (count startBit totalBits rangeStart rangeEnd : ℕ) :
    Option ℕ × Segment :=
  match searchRun count rangeEnd (rangeEnd - rangeStart) ⟨0, 0, rangeStart⟩ s with
  | .claimed addr s => (some addr, s)
  | .ended q s =>
    if rangeStart = 0 ∧ rangeEnd = startBit ∧ 0 < q.currentRun then
      let need := count - q.currentRun
      let extend := if 0 < need then extendRun s.map totalBits need need startBit 0 else 0
      if count ≤ q.currentRun + extend then s.claimRun q.runStart count else (none, s)
    else (none, s)

def allocMulti (s : Segment) (count random : ℕ) : Option ℕ × Segment :=
  let totalBits := s.maxBits
  if totalBits = 0 ∨ totalBits < count then (none, s)
  else
    let randBits := random &&& (maxRandomBlocks - 1)
    let startBit := (s.hint * 64 + randBits) % totalBits
    match s.searchRange count startBit totalBits startBit totalBits with
    | (some addr, s) => (some addr, s)
    | (none, s) => s.searchRange count startBit totalBits 0 startBit

/-- The choice between the two searches, as `VaBitmap::alloc` makes it. -/
def alloc (s : Segment) (needed random : ℕ) : Option ℕ × Segment :=
  if needed = 1 then s.allocSingle random else s.allocMulti needed random

def lowerHint (s : Segment) (chunk : ℕ) : Segment :=
  if chunk < s.hint then { s with hint := chunk } else s

/-- A large release makes a full segment a candidate for allocation again. -/
def reopen (s : Segment) (size : ℕ) : Segment :=
  if maxRandomBytes < size ∧ s.full then
    { s with failedTrys := (s.failedTrys + 255) % 256, full := false }
  else s

def free (s : Segment) (addr size : ℕ) : Except Halt Segment :=
  if addr < s.vaStart ∨ s.vaEnd ≤ addr then .ok s
  else
    let totalBits := s.maxBits
    let startIdx := (addr - s.vaStart) / blockSize
    if totalBits = 0 ∨ totalBits ≤ startIdx then .ok s
    else do
      let count ← blocksOf size
      let count := if totalBits < startIdx + count then totalBits - startIdx else count
      .ok (((s.rollback startIdx count).lowerHint (startIdx / 64)).reopen size)

def reallocInplace (s : Segment) (addr oldSize newSize : ℕ) :
    Except Halt (Option ℕ × Segment) := do
  let oldBlocks ← blocksOf oldSize
  let newBlocks ← blocksOf newSize
  if newBlocks = oldBlocks then .ok (some (oldBlocks * blockSize), s)
  else if newBlocks < oldBlocks then
    let shrinkStartBit := (addr - s.vaStart) / blockSize + newBlocks
    .ok (some (newBlocks * blockSize), s.rollback shrinkStartBit (oldBlocks - newBlocks))
  else
    let growthStartBit := (addr - s.vaStart) / blockSize + oldBlocks
    let additionalNeeded := newBlocks - oldBlocks
    if s.maxBits < growthStartBit + additionalNeeded then .ok (none, s)
    else
      match s.tryClaim growthStartBit additionalNeeded with
      | (true, s) => .ok (some (newBlocks * blockSize), s)
      | (false, s) => .ok (none, s)

end Segment

end Oxidalloc
