import Mathlib.Data.Nat.Bitwise

/-!
Masks on machine words, as facts about natural numbers: clearing the low bits
of a word rounds it down to a multiple of a power of two, and joining a multiple
of a power of two with low bits adds them.
-/
namespace Oxidalloc.MachineWord

variable {w k x y : ℕ}

theorem testBit_high (hk : k ≤ w) (i : ℕ) :
    (2 ^ w - 2 ^ k).testBit i = decide (k ≤ i ∧ i < w) := by
  have hsplit : 2 ^ w - 2 ^ k = (2 ^ (w - k) - 1) * 2 ^ k := by
    rw [Nat.sub_mul, ← Nat.pow_add, Nat.sub_add_cancel hk, Nat.one_mul]
  rw [hsplit, Nat.testBit_mul_two_pow, Nat.testBit_two_pow_sub_one, ← Bool.decide_and,
    decide_eq_decide]
  omega

/-- Clearing the low k bits of a word rounds it down. -/
theorem and_high_eq (hk : k ≤ w) (hx : x < 2 ^ w) :
    x &&& (2 ^ w - 2 ^ k) = x / 2 ^ k * 2 ^ k := by
  apply Nat.eq_of_testBit_eq
  intro i
  rw [Nat.testBit_and, testBit_high hk, Nat.testBit_mul_two_pow, Nat.testBit_div_two_pow]
  by_cases hi : k ≤ i
  · rw [Nat.sub_add_cancel hi]
    by_cases hw : i < w
    · simp [hi, hw]
    · have hbig : x < 2 ^ i := Nat.lt_of_lt_of_le hx (Nat.pow_le_pow_right (by omega) (by omega))
      simp [Nat.testBit_lt_two_pow hbig]
  · simp [hi]

theorem or_low_eq (hx : 2 ^ k ∣ x) (hy : y < 2 ^ k) : x ||| y = x + y := by
  obtain ⟨a, ha⟩ := hx
  rw [ha, Nat.two_pow_add_eq_or_of_lt hy]

end Oxidalloc.MachineWord
