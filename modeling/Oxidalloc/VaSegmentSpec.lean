import Oxidalloc.VaSegment

/-!
What the operations of a `Segment` do to its bits. With the `claim` words zero,
`try_claim` succeeds exactly on a clear range, sets its bits and leaves `claim` at
zero; a failed search changes nothing; a successful one takes one clear range
inside the segment. `Took` records such a step.
-/
namespace Oxidalloc.Segment

open WordBitmap

/-- No bit of the range is set. -/
def Clear (w : Words) (start count : ℕ) : Prop :=
  ∀ i, start ≤ i → i < start + count → bit w i = false

def zeros : Words := fun _ => 0#64

theorem bit_zeros (i : ℕ) : bit zeros i = false := by
  simp [bit, zeros]

section Loops

variable {start count fuel done i : ℕ} {w : Words}

theorem bit_setPieces (hfuel : count ≤ fuel + done) :
    bit (setPieces start count fuel done w) i =
      (bit w i || decide (start + done ≤ i ∧ i < start + count)) := by
  induction fuel generalizing done w with
  | zero =>
    have hempty : ¬ (start + done ≤ i ∧ i < start + count) := by omega
    simp [setPieces, hempty]
  | succ fuel ih =>
    unfold setPieces
    split
    · rename_i hdone
      have hpos := @pieceLen_pos start count done hdone
      have hle := @pieceLen_le start count done
      rw [ih (by omega), bit_setBits pieceLen_fits, Bool.or_assoc, ← Bool.decide_or]
      congr 1
      apply decide_eq_decide.mpr
      omega
    · have hempty : ¬ (start + done ≤ i ∧ i < start + count) := by omega
      simp [hempty]

theorem bit_clearPieces (hfuel : count ≤ fuel + done) :
    bit (clearPieces start count fuel done w) i =
      (bit w i && !decide (start + done ≤ i ∧ i < start + count)) := by
  induction fuel generalizing done w with
  | zero =>
    have hempty : ¬ (start + done ≤ i ∧ i < start + count) := by omega
    simp [clearPieces, hempty]
  | succ fuel ih =>
    unfold clearPieces
    split
    · rename_i hdone
      have hpos := @pieceLen_pos start count done hdone
      have hle := @pieceLen_le start count done
      rw [ih (by omega), bit_clearBits pieceLen_fits, Bool.and_assoc, ← Bool.not_or,
        ← Bool.decide_or]
      congr 2
      apply decide_eq_decide.mpr
      omega
    · have hempty : ¬ (start + done ≤ i ∧ i < start + count) := by omega
      simp [hempty]

theorem bit_rollbackLoop (n : ℕ) :
    bit (rollbackLoop start w n) i = (bit w i && !decide (start ≤ i ∧ i < start + n)) := by
  induction n with
  | zero =>
    rw [rollbackLoop, decide_eq_false (by omega), Bool.not_false, Bool.and_true]
  | succ n ih =>
    have hfits : 1 ≤ 64 - (start + n) % 64 := by
      have := Nat.mod_lt (start + n) (show 0 < 64 by omega)
      omega
    rw [rollbackLoop, bit_clearBits hfits, ih, Bool.and_assoc, ← Bool.not_or, ← Bool.decide_or]
    congr 2
    apply decide_eq_decide.mpr
    omega

end Loops

section TryClaim

variable {s s' : Segment} {start count fuel done : ℕ}

/-- A piece is free exactly when it is clear in both words, also in the claim words as they were
before the pieces below it were claimed. -/
theorem piece_free_iff {c : Words}
    (hclaim : ∀ i, bit s.claim i = (bit c i || decide (start ≤ i ∧ i < start + done))) :
    (s.claim ((start + done) / 64) ||| s.map ((start + done) / 64)) &&&
        mask (pieceLen start count done) ((start + done) % 64) = 0#64 ↔
      Clear s.map (start + done) (pieceLen start count done) ∧
        Clear c (start + done) (pieceLen start count done) := by
  rw [and_mask_eq_zero_iff pieceLen_fits]
  have hbits : ∀ i, start + done ≤ i → i < start + done + pieceLen start count done →
      (s.claim ((start + done) / 64) ||| s.map ((start + done) / 64)).getLsbD (i % 64) =
        (bit c i || bit s.map i) := by
    intro i hlo hhi
    have hword := piece_word pieceLen_fits hlo hhi
    have hfree := hclaim i
    rw [decide_eq_false (by omega), Bool.or_false] at hfree
    rw [BitVec.getLsbD_or, ← hword, ← hfree]
    rfl
  constructor
  · intro h
    have hboth : ∀ i, start + done ≤ i → i < start + done + pieceLen start count done →
        bit c i = false ∧ bit s.map i = false := by
      intro i hlo hhi
      have hnone := h i hlo hhi
      rwa [hbits i hlo hhi, Bool.or_eq_false_iff] at hnone
    exact ⟨fun i hlo hhi => (hboth i hlo hhi).2, fun i hlo hhi => (hboth i hlo hhi).1⟩
  · intro h i hlo hhi
    rw [hbits i hlo hhi, h.1 i hlo hhi, h.2 i hlo hhi, Bool.or_false]

/-- A range is clear if its first piece and the rest are. -/
theorem clear_split {w : Words} {k n : ℕ} (hk : k ≤ n) :
    Clear w start n ↔ Clear w start k ∧ Clear w (start + k) (n - k) := by
  constructor
  · intro h
    exact ⟨fun i hlo hhi => h i hlo (by omega), fun i hlo hhi => h i (by omega) (by omega)⟩
  · intro h i hlo hhi
    by_cases hi : i < start + k
    · exact h.1 i hlo hi
    · exact h.2 i (by omega) (by omega)

/-- The first loop of `try_claim`, entered with the bits below done claimed on top of the words
c. It claims the rest if all of it is clear, and otherwise leaves the words c. -/
theorem claimPieces_spec {c : Words} (hfuel : count ≤ fuel + done) (hdone : done ≤ count)
    (hbelow : Clear c start done)
    (hclaim : ∀ i, bit s.claim i = (bit c i || decide (start ≤ i ∧ i < start + done))) :
    (Clear s.map (start + done) (count - done) ∧ Clear c (start + done) (count - done) →
      ∃ claim, claimPieces start count fuel done s = (true, { s with claim := claim }) ∧
        ∀ i, bit claim i = (bit c i || decide (start ≤ i ∧ i < start + count))) ∧
    (¬ (Clear s.map (start + done) (count - done) ∧ Clear c (start + done) (count - done)) →
      claimPieces start count fuel done s = (false, { s with claim := c })) := by
  induction fuel generalizing done s with
  | zero =>
    have heq : done = count := by omega
    refine ⟨fun _ => ⟨s.claim, rfl, heq ▸ hclaim⟩, fun h => ?_⟩
    exact absurd ⟨fun i hlo hhi => by omega, fun i hlo hhi => by omega⟩ h
  | succ fuel ih =>
    unfold claimPieces
    by_cases hlt : done < count
    · have hpos := @pieceLen_pos start count done hlt
      have hle := @pieceLen_le start count done
      rw [if_pos hlt]
      by_cases hpiece : Clear s.map (start + done) (pieceLen start count done) ∧
          Clear c (start + done) (pieceLen start count done)
      · have hnext : ∀ i, bit (setBits s.claim (start + done) (pieceLen start count done)) i =
            (bit c i || decide (start ≤ i ∧ i < start + (done + pieceLen start count done))) := by
          intro i
          rw [bit_setBits pieceLen_fits, hclaim, Bool.or_assoc, ← Bool.decide_or]
          congr 1
          apply decide_eq_decide.mpr
          omega
        have hbelow' : Clear c start (done + pieceLen start count done) := by
          rw [clear_split (Nat.le_add_right done _), Nat.add_sub_cancel_left]
          exact ⟨hbelow, hpiece.2⟩
        have hrest : ∀ w, Clear w (start + done) (pieceLen start count done) →
            (Clear w (start + (done + pieceLen start count done))
                (count - (done + pieceLen start count done)) ↔
              Clear w (start + done) (count - done)) := by
          intro w hw
          rw [clear_split hle, Nat.add_assoc, Nat.sub_sub]
          exact (and_iff_right hw).symm
        rw [if_pos ((piece_free_iff hclaim).mpr hpiece)]
        have hstep := @ih
          { s with claim := setBits s.claim (start + done) (pieceLen start count done) }
            (done + pieceLen start count done) (by omega) (by omega) hbelow' hnext
        rwa [hrest _ hpiece.1, hrest _ hpiece.2] at hstep
      · rw [if_neg fun h => hpiece ((piece_free_iff hclaim).mp h)]
        refine ⟨fun h => absurd ?_ hpiece, fun _ => ?_⟩
        · exact ⟨((clear_split hle).mp h.1).1, ((clear_split hle).mp h.2).1⟩
        · have hundone : clearPieces start done done 0 s.claim = c := by
            apply words_ext
            intro i
            rw [bit_clearPieces (by omega), hclaim, Nat.add_zero]
            by_cases hi : start ≤ i ∧ i < start + done
            · simp [hi, hbelow i hi.1 hi.2]
            · simp [hi]
          rw [rollbackClaim, hundone]
    · have heq : done = count := by omega
      rw [if_neg hlt]
      refine ⟨fun _ => ⟨s.claim, rfl, heq ▸ hclaim⟩, fun h => ?_⟩
      exact absurd ⟨fun i hlo hhi => by omega, fun i hlo hhi => by omega⟩ h

theorem claimPieces_start :
    (Clear s.map start count ∧ Clear s.claim start count →
      ∃ claim, claimPieces start count count 0 s = (true, { s with claim := claim }) ∧
        ∀ i, bit claim i = (bit s.claim i || decide (start ≤ i ∧ i < start + count))) ∧
    (¬ (Clear s.map start count ∧ Clear s.claim start count) →
      claimPieces start count count 0 s = (false, s)) := by
  refine @claimPieces_spec s start count count 0 s.claim (by omega) (by omega)
    (fun i hlo hhi => by omega) fun i => ?_
  rw [decide_eq_false (by omega), Bool.or_false]

/-- On a range that is clear in both maps its bits are set, and the claim is taken back. -/
theorem tryClaim_of_clear (h : Clear s.map start count) (hfree : Clear s.claim start count) :
    s.tryClaim start count = (true, { s with map := setPieces start count count 0 s.map }) := by
  obtain ⟨claim, heq, hbits⟩ := claimPieces_start.1 ⟨h, hfree⟩
  have hclear : clearPieces start count count 0 claim = s.claim := by
    apply words_ext
    intro i
    rw [bit_clearPieces (by omega), hbits, Nat.add_zero]
    by_cases hi : start ≤ i ∧ i < start + count
    · simp [hi, hfree i hi.1 hi.2]
    · simp [hi]
  unfold tryClaim
  rw [heq]
  simp only [hclear]

/-- On any other range nothing changes. -/
theorem tryClaim_of_conflict (h : ¬ (Clear s.map start count ∧ Clear s.claim start count)) :
    s.tryClaim start count = (false, s) := by
  unfold tryClaim
  rw [claimPieces_start.2 h]

theorem clear_claim (hzero : s.claim = zeros) : Clear s.claim start count := by
  intro i _ _
  rw [hzero, bit_zeros]

theorem tryClaim_of_not_clear (h : ¬ Clear s.map start count) :
    s.tryClaim start count = (false, s) :=
  tryClaim_of_conflict fun hboth => h hboth.1

/-- Without other threads `try_claim` takes the whole range or nothing: it succeeds exactly if no
bit of the range is set in either map, and then sets these bits and no others in `map`. -/
theorem try_claim_is_all_or_nothing (s : Segment) (start count : ℕ) :
    ((s.tryClaim start count).1 = true ↔ Clear s.map start count ∧ Clear s.claim start count) ∧
      ((s.tryClaim start count).1 = true →
        (∀ i, bit (s.tryClaim start count).2.map i =
          (bit s.map i || decide (start ≤ i ∧ i < start + count))) ∧
        (s.tryClaim start count).2.claim = s.claim) ∧
      ((s.tryClaim start count).1 = false →
        (s.tryClaim start count).2.map = s.map ∧ (s.tryClaim start count).2.claim = s.claim) := by
  by_cases h : Clear s.map start count ∧ Clear s.claim start count
  · rw [tryClaim_of_clear h.1 h.2]
    refine ⟨iff_of_true rfl h, fun _ => ⟨fun i => ?_, rfl⟩, fun hfalse => absurd hfalse.symm ?_⟩
    · rw [bit_setPieces (by omega), Nat.add_zero]
    · exact Bool.false_ne_true
  · rw [tryClaim_of_conflict h]
    refine ⟨iff_of_false Bool.false_ne_true h, fun htrue => ?_, fun _ => ⟨rfl, rfl⟩⟩
    exact absurd htrue Bool.false_ne_true

end TryClaim

/-- Nothing but the bits and the search state of a segment changes. -/
structure Same (s s' : Segment) : Prop where
  ptr : s'.ptr = s.ptr
  vaStart : s'.vaStart = s.vaStart
  vaEnd : s'.vaEnd = s.vaEnd
  claim : s'.claim = s.claim
  hint : s'.hint ≤ s.hint ∨ s'.hint * 64 ≤ s.maxBits

theorem Same.maxBits {s s' : Segment} (h : Same s s') : s'.maxBits = s.maxBits := by
  unfold Segment.maxBits
  rw [h.vaStart, h.vaEnd]

theorem blocks_le_vaEnd {s : Segment} (h : s.vaStart ≤ s.vaEnd) {k : ℕ} (hk : k ≤ s.maxBits) :
    s.vaStart + k * blockSize ≤ s.vaEnd := by
  have := (Nat.le_div_iff_mul_le (show 0 < blockSize by decide)).mp hk
  omega

/-- The step takes the clear range of count blocks at start. -/
structure Took (s : Segment) (start count : ℕ) (s' : Segment) : Prop where
  same : Same s s'
  fits : start + count ≤ s.maxBits
  clear : Clear s.map start count
  bits : ∀ i, bit s'.map i = (bit s.map i || decide (start ≤ i ∧ i < start + count))

section Search

variable {s s' : Segment} {start count : ℕ}

theorem took_of_tryClaim (hzero : s.claim = zeros) (hfits : start + count ≤ s.maxBits)
    (h : s.tryClaim start count = (true, s')) : Took s start count s' := by
  by_cases hclear : Clear s.map start count
  · rw [tryClaim_of_clear hclear (clear_claim hzero), Prod.mk.injEq] at h
    obtain ⟨_, hs⟩ := h
    subst hs
    refine ⟨⟨rfl, rfl, rfl, rfl, Or.inl le_rfl⟩, hfits, hclear, fun i => ?_⟩
    rw [bit_setPieces (by omega), Nat.add_zero]
  · rw [tryClaim_of_not_clear hclear] at h
    exact Bool.noConfusion (congrArg Prod.fst h)

theorem eq_of_tryClaim_false (hzero : s.claim = zeros)
    (h : s.tryClaim start count = (false, s')) : s' = s := by
  by_cases hclear : Clear s.map start count
  · rw [tryClaim_of_clear hclear (clear_claim hzero)] at h
    exact Bool.noConfusion (congrArg Prod.fst h)
  · rw [tryClaim_of_not_clear hclear] at h
    exact (congrArg Prod.snd h).symm

theorem Took.setHint {hint : ℕ} (h : Took s start count s') (hle : hint * 64 ≤ s.maxBits) :
    Took s start count { s' with hint := hint } :=
  ⟨⟨h.same.ptr, h.same.vaStart, h.same.vaEnd, h.same.claim, Or.inr hle⟩, h.fits, h.clear, h.bits⟩

/-- The outcome of a search: a range taken and its address, or no change. -/
def Outcome (s : Segment) (count : ℕ) (r : Option ℕ × Segment) : Prop :=
  match r with
  | (some addr, s') => ∃ start, addr = s.vaStart + start * blockSize ∧ Took s start count s'
  | (none, s') => s' = s

theorem claimRun_outcome (hzero : s.claim = zeros) (hfits : start + count ≤ s.maxBits) :
    Outcome s count (s.claimRun start count) := by
  unfold claimRun
  split
  · rename_i s' hclaim
    have htook := took_of_tryClaim hzero hfits hclaim
    refine ⟨start, ?_, htook.setHint (by omega)⟩
    rw [htook.same.vaStart]
  · rename_i s' hclaim
    exact eq_of_tryClaim_false hzero hclaim

theorem scanWord_outcome (hzero : s.claim = zeros) (i fuel : ℕ) (chunk : Word) :
    Outcome s 1 (scanWord s.maxBits i fuel chunk s) := by
  induction fuel generalizing chunk with
  | zero => rfl
  | succ fuel ih =>
    unfold scanWord
    split
    · rfl
    · dsimp only
      split
      · rfl
      · rename_i hbits
        split
        · rename_i s' hclaim
          have htook := took_of_tryClaim hzero (by omega) hclaim
          refine ⟨_, ?_, htook.setHint (by omega)⟩
          rw [htook.same.vaStart]
        · rename_i s' hclaim
          rw [eq_of_tryClaim_false hzero hclaim]
          exact ih _

theorem scanWords_outcome (hzero : s.claim = zeros) (words : List ℕ) :
    Outcome s 1 (scanWords s.maxBits words s) := by
  induction words with
  | nil => rfl
  | cons i rest ih =>
    unfold scanWords
    dsimp only
    split
    · rename_i addr s' hscan
      rw [← hscan]
      exact scanWord_outcome hzero i 65 _
    · rename_i s' hscan
      have hsame : Outcome s 1 (none, s') := by
        rw [← hscan]
        exact scanWord_outcome hzero i 65 _
      rw [show s' = s from hsame]
      exact ih

theorem allocSingle_outcome (hzero : s.claim = zeros) (random : ℕ) :
    Outcome s 1 (s.allocSingle random) := by
  unfold allocSingle
  dsimp only
  split
  · rfl
  · exact scanWords_outcome hzero _

/-- The bits of the current run are those just before `global_bit`. -/
def Search.Ok (q : Search) (rangeEnd : ℕ) : Prop :=
  0 < q.currentRun → q.runStart + q.currentRun = q.globalBit ∧ q.globalBit ≤ rangeEnd

/-- A search ends with a claim, or with nothing changed and a run in the range. -/
def Found.Ok (s : Segment) (count rangeEnd : ℕ) : Found → Prop
  | .claimed addr s' => Outcome s count (some addr, s')
  | .ended q s' => s' = s ∧ q.Ok rangeEnd

theorem searchRun_ok (hzero : s.claim = zeros) {rangeEnd : ℕ} (hend : rangeEnd ≤ s.maxBits)
    {fuel : ℕ} {q : Search} (hq : q.Ok rangeEnd) :
    (searchRun count rangeEnd fuel q s).Ok s count rangeEnd := by
  induction fuel generalizing q with
  | zero => exact ⟨rfl, hq⟩
  | succ fuel ih =>
    unfold searchRun
    split
    · exact ⟨rfl, hq⟩
    · rename_i hbit
      -- the start of the run that the clear bits at `global_bit` extend
      have hstart : (if q.currentRun = 0 then q.globalBit else q.runStart) + q.currentRun =
          q.globalBit := by
        split
        · omega
        · exact (hq (by omega)).1
      have hreset : ∀ runStart globalBit, Search.Ok ⟨0, runStart, globalBit⟩ rangeEnd :=
        fun _ _ h => absurd h (Nat.lt_irrefl 0)
      have hclaim : ∀ {run : ℕ}, count ≤ run → q.globalBit + (run - q.currentRun) ≤ rangeEnd →
          q.currentRun ≤ run → ∀ {next : Search}, next.Ok rangeEnd →
          Found.Ok s count rangeEnd
            (match s.claimRun (if q.currentRun = 0 then q.globalBit else q.runStart) count with
            | (some addr, s) => .claimed addr s
            | (none, s) => searchRun count rangeEnd fuel next s) := by
        intro run hcount hfits hle next hnext
        have hout := @claimRun_outcome s
          (if q.currentRun = 0 then q.globalBit else q.runStart) count
          hzero (by omega)
        split
        · rename_i addr s' hrun
          rw [hrun] at hout
          exact hout
        · rename_i s' hrun
          rw [hrun] at hout
          rw [show s' = s from hout]
          exact ih hnext
      dsimp only
      split
      · split
        · rename_i hcount
          exact hclaim hcount (by omega) (by omega) (hreset _ _)
        · apply ih
          intro _
          dsimp only
          omega
      · split
        · exact ih (hreset _ _)
        · split
          · exact ih (hreset _ _)
          · split
            · rename_i hcount
              exact hclaim (Nat.le_of_eq hcount.symm) (by omega) (by omega) (hreset _ _)
            · apply ih
              intro _
              dsimp only
              omega

theorem extendRun_le (map : Words) (totalBits need fuel b extend : ℕ) :
    extendRun map totalBits need fuel b extend ≤ extend + (totalBits - b) := by
  induction fuel generalizing b extend with
  | zero => exact Nat.le_add_right _ _
  | succ fuel ih =>
    unfold extendRun
    split
    · split
      · exact Nat.le_add_right _ _
      · have := ih (b + 1) (extend + 1)
        omega
    · exact Nat.le_add_right _ _

theorem searchRange_outcome (hzero : s.claim = zeros) {startBit rangeStart rangeEnd : ℕ}
    (hstart : startBit ≤ s.maxBits) (hend : rangeEnd ≤ s.maxBits) :
    Outcome s count (s.searchRange count startBit s.maxBits rangeStart rangeEnd) := by
  have hok := @searchRun_ok s count hzero rangeEnd hend (rangeEnd - rangeStart) ⟨0, 0, rangeStart⟩
    (fun h => absurd h (Nat.lt_irrefl 0))
  unfold searchRange
  split
  · rename_i addr s' hfound
    rw [hfound] at hok
    exact hok
  · rename_i q s' hfound
    rw [hfound] at hok
    obtain ⟨hsame, hq⟩ := hok
    subst hsame
    split
    · rename_i hcarry
      obtain ⟨_, hrange, hrun⟩ := hcarry
      obtain ⟨hsum, hle⟩ := hq hrun
      have hjoin : ∀ extend, extend ≤ s'.maxBits - startBit → Outcome s' count
          (if count ≤ q.currentRun + extend then s'.claimRun q.runStart count else (none, s')) := by
        intro extend hextend
        split
        · exact claimRun_outcome hzero (by omega)
        · rfl
      dsimp only
      split
      · apply hjoin
        have := extendRun_le s'.map s'.maxBits (count - q.currentRun) (count - q.currentRun)
          startBit 0
        omega
      · exact hjoin 0 (Nat.zero_le _)
    · rfl

theorem allocMulti_outcome (hzero : s.claim = zeros) (count random : ℕ) :
    Outcome s count (s.allocMulti count random) := by
  unfold allocMulti
  dsimp only
  split
  · rfl
  · rename_i hbits
    have hstart : (s.hint * 64 + (random &&& (maxRandomBlocks - 1))) % s.maxBits ≤ s.maxBits :=
      Nat.le_of_lt (Nat.mod_lt _ (by omega))
    split
    · rename_i addr s' hrange
      rw [← hrange]
      exact searchRange_outcome hzero hstart le_rfl
    · rename_i s' hrange
      have hsame : Outcome s count (none, s') := by
        rw [← hrange]
        exact searchRange_outcome hzero hstart le_rfl
      rw [show s' = s from hsame]
      exact searchRange_outcome hzero hstart hstart

/-- `alloc_single` and `alloc_multi` take one clear range of the wanted length inside
the segment, or fail and change nothing. -/
theorem alloc_outcome (hzero : s.claim = zeros) (needed random : ℕ) :
    Outcome s needed (s.alloc needed random) := by
  unfold alloc
  split
  · rename_i hone
    rw [hone]
    exact allocSingle_outcome hzero random
  · exact allocMulti_outcome hzero needed random

end Search

theorem blocksOf_eq_ok {size count : ℕ} :
    blocksOf size = .ok count ↔
      size + blockSize < usizeBound ∧ count = (size + blockSize - 1) / blockSize := by
  unfold blocksOf
  split
  · constructor
    · intro h
      contradiction
    · intro h
      omega
  · rw [Except.ok.injEq, eq_comm]
    constructor
    · intro h
      exact ⟨by omega, h⟩
    · intro h
      exact h.2

section Release

variable {s s' : Segment} {addr size oldSize newSize : ℕ}

/-- The step clears the blocks of the range that lie inside the segment. -/
structure Dropped (s : Segment) (start count : ℕ) (s' : Segment) : Prop where
  same : Same s s'
  bits : ∀ i, bit s'.map i =
    (bit s.map i && !decide (start ≤ i ∧ i < start + count ∧ i < s.maxBits))

theorem rollback_bits (start count i : ℕ) :
    bit (s.rollback start count).map i =
      (bit s.map i && !decide (start ≤ i ∧ i < start + count)) :=
  bit_rollbackLoop count

theorem lowerHint_same (chunk : ℕ) :
    Same s (s.lowerHint chunk) ∧ (s.lowerHint chunk).map = s.map := by
  unfold lowerHint
  split
  · rename_i hlt
    exact ⟨⟨rfl, rfl, rfl, rfl, Or.inl hlt.le⟩, rfl⟩
  · exact ⟨⟨rfl, rfl, rfl, rfl, Or.inl le_rfl⟩, rfl⟩

theorem reopen_same (size : ℕ) : Same s (s.reopen size) ∧ (s.reopen size).map = s.map := by
  unfold reopen
  split
  · exact ⟨⟨rfl, rfl, rfl, rfl, Or.inl le_rfl⟩, rfl⟩
  · exact ⟨⟨rfl, rfl, rfl, rfl, Or.inl le_rfl⟩, rfl⟩

theorem Same.trans {s₁ s₂ s₃ : Segment} (h : Same s₁ s₂) (h' : Same s₂ s₃) : Same s₁ s₃ := by
  refine ⟨h'.ptr.trans h.ptr, h'.vaStart.trans h.vaStart, h'.vaEnd.trans h.vaEnd,
    h'.claim.trans h.claim, ?_⟩
  have hfirst := h.hint
  have hsecond := h'.hint
  rw [h.maxBits] at hsecond
  omega

theorem free_dropped (hlo : s.vaStart ≤ addr) (hhi : addr < s.vaEnd)
    (hidx : (addr - s.vaStart) / blockSize < s.maxBits) (h : s.free addr size = .ok s') :
    ∃ count, blocksOf size = .ok count ∧
      Dropped s ((addr - s.vaStart) / blockSize) count s' := by
  unfold free at h
  rw [if_neg (by omega)] at h
  dsimp only at h
  generalize (addr - s.vaStart) / blockSize = idx at h hidx ⊢
  rw [if_neg (by omega)] at h
  cases hblocks : blocksOf size with
  | error e =>
    rw [hblocks] at h
    contradiction
  | ok count =>
    rw [hblocks] at h
    have hs := Except.ok.inj h
    refine ⟨count, rfl, ?_⟩
    generalize hcount : (if s.maxBits < idx + count then s.maxBits - idx else count) = n at hs
    obtain ⟨hhint, hhintMap⟩ := @lowerHint_same (s.rollback idx n) (idx / 64)
    obtain ⟨hopen, hopenMap⟩ := @reopen_same ((s.rollback idx n).lowerHint (idx / 64)) size
    rw [hs] at hopen hopenMap
    have hroll : Same s (s.rollback idx n) := ⟨rfl, rfl, rfl, rfl, Or.inl le_rfl⟩
    refine ⟨(hroll.trans hhint).trans hopen, fun i => ?_⟩
    have hrange : (idx ≤ i ∧ i < idx + n) ↔ (idx ≤ i ∧ i < idx + count ∧ i < s.maxBits) := by
      split at hcount
      · omega
      · omega
    rw [hopenMap, hhintMap, rollback_bits, decide_eq_decide.mpr hrange]

/-- The four ways a `realloc_inplace` can end. -/
theorem reallocInplace_cases {r : Option ℕ}
    (h : s.reallocInplace addr oldSize newSize = .ok (r, s')) :
    ∃ oldBlocks newBlocks, blocksOf oldSize = .ok oldBlocks ∧ blocksOf newSize = .ok newBlocks ∧
      ((newBlocks = oldBlocks ∧ r = some (newBlocks * blockSize) ∧ s' = s) ∨
        (newBlocks < oldBlocks ∧ r = some (newBlocks * blockSize) ∧
          s' = s.rollback ((addr - s.vaStart) / blockSize + newBlocks) (oldBlocks - newBlocks)) ∨
        (oldBlocks < newBlocks ∧ r = some (newBlocks * blockSize) ∧ (s.claim = zeros →
          Took s ((addr - s.vaStart) / blockSize + oldBlocks) (newBlocks - oldBlocks) s')) ∨
        (oldBlocks < newBlocks ∧ r = none ∧ (s.claim = zeros → s' = s))) := by
  unfold reallocInplace at h
  cases hold : blocksOf oldSize with
  | error e => simp only [hold, bind, Except.bind, reduceCtorEq] at h
  | ok oldBlocks =>
    cases hnew : blocksOf newSize with
    | error e => simp only [hold, hnew, bind, Except.bind, reduceCtorEq] at h
    | ok newBlocks =>
      refine ⟨oldBlocks, newBlocks, rfl, rfl, ?_⟩
      simp only [hold, hnew, bind, Except.bind] at h
      split at h
      · rename_i heq
        rw [Except.ok.injEq, Prod.mk.injEq] at h
        exact Or.inl ⟨heq, by rw [heq]; exact h.1.symm, h.2.symm⟩
      · split at h
        · rename_i hlt
          rw [Except.ok.injEq, Prod.mk.injEq] at h
          exact Or.inr (Or.inl ⟨hlt, h.1.symm, h.2.symm⟩)
        · have hlt : oldBlocks < newBlocks := by omega
          split at h
          · rw [Except.ok.injEq, Prod.mk.injEq] at h
            exact Or.inr (Or.inr (Or.inr ⟨hlt, h.1.symm, fun _ => h.2.symm⟩))
          · rename_i hfits
            split at h
            · rename_i s₁ hclaim
              rw [Except.ok.injEq, Prod.mk.injEq] at h
              rw [h.2] at hclaim
              exact Or.inr (Or.inr (Or.inl ⟨hlt, h.1.symm, fun hzero =>
                took_of_tryClaim hzero (by omega) hclaim⟩))
            · rename_i s₁ hclaim
              rw [Except.ok.injEq, Prod.mk.injEq] at h
              rw [h.2] at hclaim
              exact Or.inr (Or.inr (Or.inr ⟨hlt, h.1.symm, fun hzero =>
                eq_of_tryClaim_false hzero hclaim⟩))

end Release

end Oxidalloc.Segment
