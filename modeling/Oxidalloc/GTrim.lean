import Oxidalloc.Slab

/-!
`GTrim`: the large classes of the shared cache are popped in batches of 16, sorted by
age into blocks whose pages go back to the kernel and blocks that stay, and pushed
back. Every block that is popped returns to the shared cache.
-/
namespace Oxidalloc

open ByteMemory Programs

namespace TimeDecay

def decideOn (avgTime : ℕ) : TimeDecay :=
  if avgTime ≤ 1 then .normal
  else if 4 ≤ avgTime ∧ avgTime ≤ 5 then .medium
  else if 6 ≤ avgTime ∧ avgTime ≤ 10 then .high
  else .aggressive

end TimeDecay

namespace GTrim

/-- `recount` with the check of the magic at every step. -/
def checkedRecount (ours : ℕ → Bool) (m : Memory) (freedMagic : UInt8) :
    ℕ → ℕ → ℕ → Except Halt (ℕ × ℕ)
  | 0, block, real => .ok (block, real)
  | n + 1, block, real =>
    if OxHeader.next m block ≠ 0 ∧ ours (OxHeader.next m block) = true then
      if OxHeader.magic m block ≠ freedMagic then
        .error (.abort .memoryCorruption
          "Find in_use block during PThread Trim / Memory Corruption")
      else checkedRecount ours m freedMagic n (OxHeader.next m block) (real + 1)
    else .ok (block, real)

def popFromGlobal (cls : ℕ) : OxM (ℕ × ℕ) := do
  let globalCache ← Oxidalloc.popFromGlobal cls 16
  if globalCache = 0 then pure (0, 0)
  else do
    let w ← get
    let (block, real) ← attempt (checkedRecount w.isOurs w.mem w.freedMagic 15 globalCache 1)
    modify fun w => { w with mem := OxHeader.setNext w.mem block 0 }
    pure (globalCache, real)

/-- The accumulators of `trim`: the sum and number of the ages seen, and the chain of
the blocks to trim. -/
structure Tally where
  avg : ℕ
  total : ℕ
  toTrim : ℕ

/-- A nonzero age counts for the average; the number of ages is a checked u32. -/
def Tally.note (q : Tally) (lifeTime : ℕ) : Except Halt Tally :=
  if lifeTime = 0 then .ok q
  else if 2 ^ 32 ≤ q.total + 1 then .error .panic
  else .ok { q with avg := min (q.avg + lifeTime) (2 ^ 32 - 1), total := q.total + 1 }

/-- The `for _ in 0..size` loop over one batch. The result has the chain of the blocks
to push back. -/
def sortBatch (timing : ℕ) : ℕ → ℕ → Tally → ℕ → OxM (Tally × ℕ)
  | 0, _, q, toPush => pure (q, toPush)
  | n + 1, block, q, toPush => do
    let w ← get
    let next := OxHeader.next w.mem block
    let lifeTime := w.currentStamp - OxHeader.lifeTime w.mem block
    let q ← attempt (q.note lifeTime)
    if timing < lifeTime then do
      modify fun w => { w with mem := OxHeader.setNext w.mem block q.toTrim }
      sortBatch timing n next { q with toTrim := block } toPush
    else do
      modify fun w => { w with mem := OxHeader.setNext w.mem block toPush }
      sortBatch timing n next q block

def pushBack (cls toPush : ℕ) : OxM Unit := do
  let w ← get
  let (block, real) := recount w.isOurs w.mem 15 toPush 1
  modify fun w => { w with mem := OxHeader.setNext w.mem block 0 }
  pushToGlobal cls toPush block real

/-- The `for _ in 0..class_usage / 16` loop. -/
def trimRounds (cls timing : ℕ) : ℕ → Tally → OxM Tally
  | 0, q => pure q
  | n + 1, q => do
    let (cache, size) ← popFromGlobal cls
    if cache = 0 then pure q
    else do
      let (q, toPush) ← sortBatch timing size cache q 0
      if toPush = 0 then trimRounds cls timing n q
      else do
        pushBack cls toPush
        trimRounds cls timing n q

def pageMask : ℕ := usizeBound - 1 - 4095

def releaseMemory (header size : ℕ) : OxM Unit := do
  let userStart := header + headerSize
  let userEnd := userStart + size
  let pageStart ← attempt (alignTo userStart 4096)
  let pageEnd := userEnd &&& pageMask
  if pageEnd ≤ pageStart then pure ()
  else do
    let _ ← madvise pageStart (pageEnd - pageStart) .dontNeed
    pure ()

/-- The `while !to_trim.is_null()` loop, for a chain of at most as many blocks as it has
rounds. The result is the number of bytes released so far. -/
def releaseLoop (cls size pad : ℕ) (forceTrim : Bool) : ℕ → ℕ → ℕ → OxM ℕ
  | 0, _, totalFreed => pure totalFreed
  | n + 1, toTrim, totalFreed =>
    if toTrim = 0 then pure totalFreed
    else do
      let w ← get
      let next := OxHeader.next w.mem toTrim
      if (totalFreed ≤ pad ∨ pad = 0) ∨ forceTrim = true then do
        releaseMemory toTrim size
        if usizeBound ≤ totalFreed + size then throw .panic
        else do
          pushToGlobal cls toTrim toTrim 1
          releaseLoop cls size pad forceTrim n next (totalFreed + size)
      else do
        pushToGlobal cls toTrim toTrim 1
        releaseLoop cls size pad forceTrim n next totalFreed

/-- The body of the loop over the classes. The chain to trim has at most the blocks
that the rounds have popped. -/
def trimClass (cls timing pad : ℕ) (forceTrim : Bool) (q : Tally) (totalFreed : ℕ) :
    OxM (Tally × ℕ) := do
  let size ← attempt (index sizeClasses cls)
  let classUsage ← getSize cls
  let q ← trimRounds cls timing (classUsage / 16) { q with toTrim := 0 }
  let totalFreed ← releaseLoop cls size pad forceTrim (classUsage / 16 * 16) q.toTrim totalFreed
  pure (q, totalFreed)

/-- The loop over the classes; the last component says that it ended early. -/
def trimClasses (timing pad : ℕ) (forceTrim : Bool) :
    List ℕ → Tally → ℕ → OxM (Tally × ℕ × Bool)
  | [], q, totalFreed => pure (q, totalFreed, false)
  | cls :: rest, q, totalFreed =>
    if pad ≤ totalFreed ∧ pad ≠ 0 then pure (q, totalFreed, true)
    else do
      let (q, totalFreed) ← trimClass cls timing pad forceTrim q totalFreed
      trimClasses timing pad forceTrim rest q totalFreed

/-- The average is stored only at the regular end. -/
def storeAverage (q : Tally) : OxM Unit :=
  if 0 < q.total then
    let avg := min (max (q.avg / q.total) 1) 10
    modify fun w => { w with averageBlockTimes := avg, globalDecay := TimeDecay.decideOn avg }
  else pure ()

def trim (pad : ℕ) : OxM (ℕ × ℕ) := do
  let w ← get
  let forceTrim := decide (90 < w.lastPressureCheck)
  let timing := w.averageBlockTimes % 2 ^ 32
  let (q, totalFreed, early) ← trimClasses timing pad forceTrim
    (List.range' getSize4096Class (numSizeClasses - getSize4096Class)) ⟨0, 0, 0⟩ 0
  if early then pure (1, totalFreed)
  else do
    storeAverage q
    pure (if pad ≤ totalFreed then 1 else 0, totalFreed)

end GTrim

end Oxidalloc
