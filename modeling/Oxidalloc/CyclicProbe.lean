import Mathlib.Data.Nat.Bitwise
import Mathlib.Data.Nat.Find
import Mathlib.Data.Nat.ModEq

/-!
Cyclic probe sequences over the slots 0, ..., cap - 1. A probe starts at a
home slot and advances by one modulo the capacity, so after j steps it stands
at `position cap home j`. Every slot is reached within one round, and
`firstHit` is the search loop that stops at the first slot whose test
answers. Nothing here knows what the slots contain.
-/
namespace Oxidalloc.CyclicProbe

def position (cap home j : ℕ) : ℕ := (home + j) % cap

/-- The number of steps from the home slot to slot i, going round. -/
def distance (cap home i : ℕ) : ℕ := (i + (cap - home % cap)) % cap

theorem position_lt (cap home j : ℕ) (hcap : 0 < cap) : position cap home j < cap :=
  Nat.mod_lt _ hcap

theorem position_zero (cap home : ℕ) : position cap home 0 = home % cap := rfl

theorem position_succ (cap home j : ℕ) :
    position cap home (j + 1) = (position cap home j + 1) % cap := by
  unfold position
  rw [Nat.mod_add_mod]
  rfl

theorem distance_lt (cap home i : ℕ) (hcap : 0 < cap) : distance cap home i < cap :=
  Nat.mod_lt _ hcap

/-- One round of probing visits every slot. -/
theorem position_distance (cap home i : ℕ) (hi : i < cap) :
    position cap home (distance cap home i) = i := by
  have hhome : home % cap < cap := Nat.mod_lt _ (by omega)
  unfold position distance
  rw [Nat.add_mod_mod, ← Nat.mod_add_mod]
  have hsum : home % cap + (i + (cap - home % cap)) = i + cap := by omega
  rw [hsum, Nat.add_mod_right, Nat.mod_eq_of_lt hi]

theorem position_injective (cap home j k : ℕ) (hj : j < cap) (hk : k < cap)
    (h : position cap home j = position cap home k) : j = k := by
  have hmod : home + j ≡ home + k [MOD cap] := h
  have hjk : j ≡ k [MOD cap] := Nat.ModEq.add_left_cancel' home hmod
  unfold Nat.ModEq at hjk
  rwa [Nat.mod_eq_of_lt hj, Nat.mod_eq_of_lt hk] at hjk

/-- The bounded search loop: test the current slot, stop at the first answer,
otherwise advance. -/
def firstHit {β : Type*} (cap : ℕ) (test : ℕ → Option β) : ℕ → ℕ → Option β
  | 0, _ => none
  | fuel + 1, idx =>
    match test idx with
    | some b => some b
    | none => firstHit cap test fuel ((idx + 1) % cap)

variable {β : Type*} {cap : ℕ} {test : ℕ → Option β}

theorem firstHit_from (home : ℕ) (fuel k : ℕ) (b : β) :
    firstHit cap test fuel (position cap home k) = some b ↔
      ∃ j, j < fuel ∧ test (position cap home (k + j)) = some b ∧
        ∀ i, i < j → test (position cap home (k + i)) = none := by
  induction fuel generalizing k with
  | zero => simp [firstHit]
  | succ fuel ih =>
    cases htest : test (position cap home k) with
    | some c =>
      simp only [firstHit, htest]
      constructor
      · intro hcb
        exact ⟨0, by omega, by rw [Nat.add_zero, htest, hcb], by omega⟩
      · rintro ⟨j, _, hj, hbefore⟩
        cases j with
        | zero => rw [Nat.add_zero, htest] at hj; exact hj
        | succ j =>
          have h := hbefore 0 (by omega)
          rw [Nat.add_zero, htest] at h
          contradiction
    | none =>
      simp only [firstHit, htest]
      rw [← position_succ, ih (k + 1)]
      constructor
      · rintro ⟨j, hj, hit, hbefore⟩
        refine ⟨j + 1, by omega, by rwa [Nat.add_right_comm, Nat.add_assoc] at hit, ?_⟩
        intro i hi
        cases i with
        | zero => simpa using htest
        | succ i =>
          have h := hbefore i (by omega)
          rwa [Nat.add_right_comm, Nat.add_assoc] at h
      · rintro ⟨j, hj, hit, hbefore⟩
        cases j with
        | zero => rw [Nat.add_zero, htest] at hit; contradiction
        | succ j =>
          refine ⟨j, by omega, by rwa [Nat.add_right_comm, Nat.add_assoc], ?_⟩
          intro i hi
          have h := hbefore (i + 1) (by omega)
          rwa [Nat.add_right_comm, Nat.add_assoc]

/-- The loop answers with the first slot of the round whose test answers. -/
theorem firstHit_eq_some_iff (home : ℕ) (hhome : home < cap) (b : β) :
    firstHit cap test cap home = some b ↔
      ∃ j, j < cap ∧ test (position cap home j) = some b ∧
        ∀ i, i < j → test (position cap home i) = none := by
  have h := @firstHit_from β cap test home cap 0 b
  rw [position_zero, Nat.mod_eq_of_lt hhome] at h
  simpa only [Nat.zero_add] using h

/-- The loop gives up exactly when no slot of the table answers. -/
theorem firstHit_eq_none_iff (home : ℕ) (hhome : home < cap) :
    firstHit cap test cap home = none ↔ ∀ i, i < cap → test i = none := by
  constructor
  · intro hnone i hi
    by_contra htest
    have hex : ∃ j, j < cap ∧ test (position cap home j) ≠ none :=
      ⟨distance cap home i, distance_lt cap home i (by omega),
        by rwa [position_distance cap home i hi]⟩
    classical
    obtain ⟨hj, hne⟩ := Nat.find_spec hex
    obtain ⟨b, hb⟩ := Option.ne_none_iff_exists'.mp hne
    have hsome : firstHit cap test cap home = some b := by
      refine (firstHit_eq_some_iff home hhome b).mpr ⟨Nat.find hex, hj, hb, ?_⟩
      intro k hk
      by_contra hkne
      exact Nat.find_min hex hk ⟨by omega, hkne⟩
    rw [hnone] at hsome
    contradiction
  · intro hall
    cases hres : firstHit cap test cap home with
    | none => rfl
    | some b =>
      obtain ⟨j, _, hj, _⟩ := (firstHit_eq_some_iff home hhome b).mp hres
      rw [hall _ (position_lt cap home j (by omega))] at hj
      contradiction

/-- With a power-of-two capacity, masking by cap - 1 is reduction modulo cap. -/
theorem and_mask_eq_mod (cap x : ℕ) (hcap : ∃ n, cap = 2 ^ n) : x &&& (cap - 1) = x % cap := by
  obtain ⟨n, rfl⟩ := hcap
  exact Nat.and_two_pow_sub_one_eq_mod x n

end Oxidalloc.CyclicProbe
