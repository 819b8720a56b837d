import Mathlib.Algebra.Group.Nat.Defs
import Mathlib.Data.Nat.Notation

/-!
Byte-addressed memory with little-endian numbers. A write changes only the bytes of
its range, and a read depends only on the bytes of its range, so a read after a write
gives the written number or the old one.
-/
namespace Oxidalloc.ByteMemory

abbrev Memory := ℕ → UInt8

/-- The number in the n bytes at an address. -/
def load (m : Memory) : ℕ → ℕ → ℕ
  | _, 0 => 0
  | a, n + 1 => (m a).toNat + 256 * load m (a + 1) n

def store (m : Memory) (a n v : ℕ) : Memory := fun x =>
  if a ≤ x ∧ x < a + n then UInt8.ofNat (v / 256 ^ (x - a)) else m x

def fill (m : Memory) (a n : ℕ) (b : UInt8) : Memory := fun x =>
  if a ≤ x ∧ x < a + n then b else m x

def copy (m : Memory) (src dst n : ℕ) : Memory := fun x =>
  if dst ≤ x ∧ x < dst + n then m (src + (x - dst)) else m x

variable {m m' : Memory} {a n v x : ℕ}

theorem load_congr (h : ∀ x, a ≤ x → x < a + n → m' x = m x) : load m' a n = load m a n := by
  induction n generalizing a with
  | zero => rfl
  | succ n ih =>
    rw [load, load, h a (Nat.le_refl a) (by omega)]
    rw [ih fun x hlo hhi => h x (by omega) (by omega)]

theorem load_of_digits (h : ∀ i < n, m (a + i) = UInt8.ofNat (v / 256 ^ i)) :
    load m a n = v % 256 ^ n := by
  induction n generalizing a v with
  | zero => simp [load, Nat.mod_one]
  | succ n ih =>
    have hrest : ∀ i < n, m (a + 1 + i) = UInt8.ofNat (v / 256 / 256 ^ i) := by
      intro i hi
      rw [Nat.div_div_eq_div_mul, ← Nat.pow_succ', Nat.add_assoc, Nat.add_comm 1 i]
      exact h (i + 1) (by omega)
    have hlow : m a = UInt8.ofNat v := by
      have := h 0 (by omega)
      rwa [Nat.pow_zero, Nat.div_one] at this
    have hpow : 256 ^ (n + 1) = 256 * 256 ^ n := Nat.pow_succ'
    rw [load, ih hrest, hlow, UInt8.toNat_ofNat', hpow, Nat.mod_mul]

theorem load_store (h : v < 256 ^ n) : load (store m a n v) a n = v := by
  rw [load_of_digits (v := v), Nat.mod_eq_of_lt h]
  intro i hi
  rw [store, if_pos ⟨by omega, by omega⟩, Nat.add_sub_cancel_left]

theorem load_lt (m : Memory) (a n : ℕ) : load m a n < 256 ^ n := by
  induction n generalizing a with
  | zero => simp [load]
  | succ n ih =>
    have hbyte := (m a).toNat_lt
    have hrest := ih (a + 1)
    have hpow : 256 ^ (n + 1) = 256 * 256 ^ n := Nat.pow_succ'
    rw [load, hpow]
    omega

theorem load_digit {i : ℕ} (h : i < n) : UInt8.ofNat (load m a n / 256 ^ i) = m (a + i) := by
  induction n generalizing a i with
  | zero => omega
  | succ n ih =>
    have hbyte := (m a).toNat_lt
    cases i with
    | zero =>
      rw [Nat.pow_zero, Nat.div_one, load, UInt8.ofNat_add, UInt8.ofNat_mul]
      simp
    | succ i =>
      have hdiv : ((m a).toNat + 256 * load m (a + 1) n) / 256 = load m (a + 1) n := by omega
      rw [load, Nat.pow_succ', ← Nat.div_div_eq_div_mul, hdiv, ih (by omega), Nat.add_assoc,
        Nat.add_comm 1 i]

/-- Writing back what is there changes nothing. -/
theorem store_load (m : Memory) (a n : ℕ) : store m a n (load m a n) = m := by
  funext x
  unfold store
  split
  · rename_i hx
    rw [load_digit (by omega), Nat.add_sub_cancel' hx.1]
  · rfl

theorem store_of_not_mem (h : x < a ∨ a + n ≤ x) : store m a n v x = m x :=
  if_neg (by omega)

theorem fill_of_not_mem {b : UInt8} (h : x < a ∨ a + n ≤ x) : fill m a n b x = m x :=
  if_neg (by omega)

theorem copy_of_not_mem {src : ℕ} (h : x < a ∨ a + n ≤ x) : copy m src a n x = m x :=
  if_neg (by omega)

theorem copy_apply {src dst i : ℕ} (h : i < n) : copy m src dst n (dst + i) = m (src + i) := by
  rw [copy, if_pos ⟨by omega, by omega⟩, Nat.add_sub_cancel_left]

end Oxidalloc.ByteMemory
