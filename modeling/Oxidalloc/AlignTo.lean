import Oxidalloc.Halting
import Oxidalloc.MachineWord

/-!
Rounding up to a multiple of a power of two, as `align_to` does it with a mask.
The addition is checked, so a size near the end of the address space panics.
-/
namespace Oxidalloc

def alignTo (size align : ℕ) : Except Halt ℕ :=
  if usizeBound ≤ size + (align - 1) then .error .panic
  else .ok ((size + (align - 1)) &&& (usizeBound - 1 - (align - 1)))

/-- Rounding up is exact division when the addition does not overflow. -/
theorem alignTo_eq_ok {size k aligned : ℕ} (hk : k ≤ 64) :
    alignTo size (2 ^ k) = .ok aligned ↔
      size + (2 ^ k - 1) < usizeBound ∧ aligned = (size + (2 ^ k - 1)) / 2 ^ k * 2 ^ k := by
  have hpos : 0 < 2 ^ k := Nat.two_pow_pos k
  have hmask : usizeBound - 1 - (2 ^ k - 1) = 2 ^ 64 - 2 ^ k := by
    unfold usizeBound
    omega
  unfold alignTo
  by_cases h : usizeBound ≤ size + (2 ^ k - 1)
  · rw [if_pos h]
    constructor
    · intro herr
      contradiction
    · intro hlt
      omega
  · rw [if_neg h, hmask, MachineWord.and_high_eq hk (by unfold usizeBound at h; omega),
      Except.ok.injEq, eq_comm]
    constructor
    · intro heq
      exact ⟨by omega, heq⟩
    · intro heq
      exact heq.2

/-- The next multiple of a power of two is less than the alignment away. -/
theorem alignTo_bounds {size align aligned : ℕ} (hpower : 2 ^ Nat.log2 align = align)
    (halign : align < usizeBound) (h : alignTo size align = .ok aligned) :
    size + (align - 1) < usizeBound ∧ size ≤ aligned ∧ aligned < size + align := by
  have hk : Nat.log2 align ≤ 64 := by
    by_contra hgt
    have hle : 2 ^ 64 ≤ 2 ^ Nat.log2 align := Nat.pow_le_pow_right (by omega) (by omega)
    unfold usizeBound at halign
    omega
  rw [← hpower, alignTo_eq_ok hk, hpower] at h
  obtain ⟨hbound, rfl⟩ := h
  have hpos : 0 < align := hpower ▸ Nat.two_pow_pos _
  have hdiv := Nat.div_add_mod (size + (align - 1)) align
  have hmod := Nat.mod_lt (size + (align - 1)) hpos
  rw [Nat.mul_comm] at hdiv
  omega

/-- Rounding up as `posix_memalign` writes it: the alignment is added before the one is
subtracted, and the first sum is checked too. -/
def alignAfter (start align : ℕ) : Except Halt ℕ :=
  if usizeBound ≤ start + align then .error .panic else alignTo start align

theorem alignTo_of_alignAfter {start align aligned : ℕ} (h : alignAfter start align = .ok aligned) :
    alignTo start align = .ok aligned := by
  unfold alignAfter at h
  split at h
  · contradiction
  · exact h

end Oxidalloc
