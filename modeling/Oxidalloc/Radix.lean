import Mathlib.Data.Nat.Bitwise
import Mathlib.Logic.Function.Basic
import Oxidalloc.Halting

/-!
The radix tree that maps a 4 GiB chunk of the address space to the segment
registered for it: a table of 2^12 pointers to tables of 2^13 entries, allocated
on demand and zero-filled by the kernel. An entry of 0 means that the chunk has
no segment. Chunks beyond the last index are dropped by `set` and never found.
-/
namespace Oxidalloc

open Function

def chunkSize : ℕ := 1024 * 1024 * 1024 * 4

def l1Bits : ℕ := 12

def l2Bits : ℕ := 13

def l2Size : ℕ := 1 <<< l2Bits

def radixMaxChunks : ℕ := 1 <<< (l1Bits + l2Bits)

structure Radix where
  l1 : ℕ → Option (ℕ → ℕ)

namespace Radix

def new : Radix := ⟨fun _ => none⟩

def split (idx : ℕ) : ℕ × ℕ := (idx >>> l2Bits, idx &&& (l2Size - 1))

/-- A `set` of this index maps a new second-level table first. -/
def needsTable (r : Radix) (chunkIdx : ℕ) : Bool :=
  decide (chunkIdx < radixMaxChunks) && (r.l1 (split chunkIdx).1).isNone

/-- The table after `set`, when the mapping of a missing second level succeeds. -/
def set (r : Radix) (chunkIdx seg : ℕ) : Radix :=
  if radixMaxChunks ≤ chunkIdx then r
  else
    let l2 := (r.l1 (split chunkIdx).1).getD fun _ => 0
    ⟨update r.l1 (split chunkIdx).1
      (some (update l2 (split chunkIdx).2 seg))⟩

def get (r : Radix) (chunkIdx : ℕ) : Option ℕ :=
  if radixMaxChunks ≤ chunkIdx then none
  else
    match r.l1 (split chunkIdx).1 with
    | none => none
    | some l2 =>
      let entry := l2 (split chunkIdx).2
      if entry = 0 then none else some entry

def startIdx (start : ℕ) : ℕ := start / chunkSize

/-- The last chunk of a range, with the saturating arithmetic of the source. -/
def endIdx (start size : ℕ) : ℕ := min (start + (size - 1)) (usizeBound - 1) / chunkSize

def setCount (start size : ℕ) : ℕ := endIdx start size - startIdx start + 1

/-- The first n rounds of the loop of `set_range`. -/
def setLoop (r : Radix) (start seg : ℕ) : ℕ → Radix
  | 0 => r
  | n + 1 => (setLoop r start seg n).set (startIdx start + n) seg

def setRange (r : Radix) (start size seg : ℕ) : Radix :=
  setLoop r start seg (setCount start size)

/-- The segment pointer for an address, 0 (null) when the chunk has none. -/
def getSegment (r : Radix) (addr : ℕ) : ℕ := (r.get (addr / chunkSize)).getD 0

def checkCollision (r : Radix) (start size : ℕ) : Bool :=
  if radixMaxChunks ≤ endIdx start size then true
  else (List.range (endIdx start size + 1 - startIdx start)).any fun k =>
    (r.get (startIdx start + k)).isSome

theorem split_injective {a b : ℕ} (h : split a = split b) : a = b := by
  have hmod : ∀ idx, idx &&& (l2Size - 1) = idx % 2 ^ 13 := fun idx =>
    Nat.and_two_pow_sub_one_eq_mod idx 13
  simp only [split, Prod.mk.injEq, hmod, l2Bits, Nat.shiftRight_eq_div_pow] at h
  omega

theorem get_new (chunkIdx : ℕ) : new.get chunkIdx = none := by
  unfold get
  split
  · rfl
  · rfl

theorem get_set (r : Radix) {chunkIdx seg : ℕ} (hseg : seg ≠ 0) (k : ℕ) :
    (r.set chunkIdx seg).get k =
      if k = chunkIdx ∧ chunkIdx < radixMaxChunks then some seg else r.get k := by
  unfold set
  by_cases hidx : radixMaxChunks ≤ chunkIdx
  · rw [if_pos hidx, if_neg (by omega)]
  · rw [if_neg hidx]
    by_cases hk : k = chunkIdx
    · rw [if_pos ⟨hk, by omega⟩, hk]
      simp [get, hidx, hseg]
    · rw [if_neg (fun h => hk h.1)]
      unfold get
      by_cases hmax : radixMaxChunks ≤ k
      · rw [if_pos hmax, if_pos hmax]
      · rw [if_neg hmax, if_neg hmax]
        by_cases hrow : (split k).1 = (split chunkIdx).1
        · -- same second-level table, so the column differs
          have hcol : (split k).2 ≠ (split chunkIdx).2 := fun hcol =>
            hk (split_injective (Prod.ext hrow hcol))
          simp only [hrow, update_self, update_of_ne hcol]
          cases r.l1 (split chunkIdx).1 with
          | none => rfl
          | some l2 => rfl
        · simp only [update_of_ne hrow]

theorem get_setLoop (r : Radix) {start seg n : ℕ} (hseg : seg ≠ 0)
    (hn : startIdx start + n ≤ radixMaxChunks) (k : ℕ) :
    (setLoop r start seg n).get k =
      if startIdx start ≤ k ∧ k < startIdx start + n then some seg else r.get k := by
  induction n with
  | zero => rw [if_neg (by omega)]; rfl
  | succ n ih =>
    rw [setLoop, get_set _ hseg, ih (by omega)]
    by_cases hk : k = startIdx start + n
    · rw [if_pos ⟨hk, by omega⟩, if_pos (by omega)]
    · rw [if_neg (fun h => hk h.1)]
      congr 1
      apply propext
      omega

theorem startIdx_le_endIdx {start size : ℕ} (hstart : start < usizeBound) :
    startIdx start ≤ endIdx start size := by
  apply Nat.div_le_div_right
  omega

/-- After `set_range` exactly the chunks of the range lead to the segment. -/
theorem get_setRange (r : Radix) {start size seg : ℕ} (hseg : seg ≠ 0)
    (hstart : start < usizeBound) (hend : endIdx start size < radixMaxChunks) (k : ℕ) :
    (r.setRange start size seg).get k =
      if startIdx start ≤ k ∧ k ≤ endIdx start size then some seg else r.get k := by
  have hle := @startIdx_le_endIdx start size hstart
  unfold setRange setCount
  rw [get_setLoop r hseg (by omega)]
  congr 1
  apply propext
  omega

theorem checkCollision_eq_false_iff (r : Radix) (start size : ℕ) :
    r.checkCollision start size = false ↔ endIdx start size < radixMaxChunks ∧
      ∀ k, startIdx start ≤ k → k ≤ endIdx start size → r.get k = none := by
  unfold checkCollision
  by_cases hend : radixMaxChunks ≤ endIdx start size
  · simp only [if_pos hend, Bool.true_eq_false, false_iff]
    intro h
    omega
  · rw [if_neg hend, List.any_eq_false]
    constructor
    · intro h
      refine ⟨by omega, fun k hlo hhi => ?_⟩
      have hk := h (k - startIdx start) (List.mem_range.mpr (by omega))
      rw [show startIdx start + (k - startIdx start) = k by omega] at hk
      simpa using hk
    · intro h k hk
      have hk := List.mem_range.mp hk
      simp [h.2 (startIdx start + k) (by omega) (by omega)]

end Radix

end Oxidalloc
