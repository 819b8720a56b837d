import Mathlib.Data.Nat.Bitwise
import Mathlib.Logic.Function.Basic

/-!
Bitmaps stored in 64-bit words. Bit i of the bitmap is bit i % 64 of word
i / 64. A run of bits that stays inside one word is read, set and cleared
through a mask of that word; a longer run is cut into such pieces by
`pieceLen`. The lemmas say what the masked word operations do to single bits,
so that no later proof has to look inside a word.
-/
namespace Oxidalloc.WordBitmap

open Function

abbrev Word := BitVec 64
abbrev Words := ℕ → Word

def bit (w : Words) (i : ℕ) : Bool := (w (i / 64)).getLsbD (i % 64)

/-- The mask of len bits from position shift on, inside one word. -/
def mask (len shift : ℕ) : Word :=
  if len = 64 then BitVec.allOnes 64 else ((1#64 <<< len) - 1#64) <<< shift

def setBits (w : Words) (start len : ℕ) : Words :=
  update w (start / 64) (w (start / 64) ||| mask len (start % 64))

def clearBits (w : Words) (start len : ℕ) : Words :=
  update w (start / 64) (w (start / 64) &&& ~~~ mask len (start % 64))

/-- The length of the piece that a word-by-word loop over [start, start + count)
handles after done bits. -/
def pieceLen (start count done : ℕ) : ℕ := min (64 - (start + done) % 64) (count - done)

theorem pieceLen_pos {start count done : ℕ} (h : done < count) :
    0 < pieceLen start count done := by
  have := Nat.mod_lt (start + done) (show 0 < 64 by omega)
  unfold pieceLen
  omega

theorem pieceLen_le {start count done : ℕ} : pieceLen start count done ≤ count - done :=
  Nat.min_le_right _ _

theorem pieceLen_fits {start count done : ℕ} :
    pieceLen start count done ≤ 64 - (start + done) % 64 :=
  Nat.min_le_left _ _

theorem words_ext {v w : Words} (h : ∀ i, bit v i = bit w i) : v = w := by
  funext c
  apply BitVec.eq_of_getLsbD_eq
  intro j hj
  have hi := h (64 * c + j)
  unfold bit at hi
  rwa [Nat.mul_add_div (by omega), Nat.div_eq_of_lt hj, Nat.add_zero,
    Nat.mul_add_mod, Nat.mod_eq_of_lt hj] at hi

theorem getLsbD_one_shift_sub {len j : ℕ} (hlen : len < 64) :
    ((1#64 <<< len) - 1#64).getLsbD j = decide (j < len) := by
  have hpow : 2 ^ len < 2 ^ 64 := Nat.pow_lt_pow_right (by omega) hlen
  have hone : (1#64 <<< len).toNat = 2 ^ len := by
    rw [BitVec.toNat_shiftLeft]
    simp only [BitVec.toNat_ofNat, Nat.reducePow, Nat.one_mod, Nat.shiftLeft_eq, Nat.one_mul]
    exact Nat.mod_eq_of_lt hpow
  have hval : ((1#64 <<< len) - 1#64).toNat = 2 ^ len - 1 := by
    have hpos := Nat.two_pow_pos len
    rw [BitVec.toNat_sub, hone]
    have hsum : 2 ^ 64 - (1#64).toNat + 2 ^ len = (2 ^ len - 1) + 2 ^ 64 := by
      simp only [BitVec.toNat_ofNat, Nat.reducePow, Nat.one_mod] at *
      omega
    rw [hsum, Nat.add_mod_right, Nat.mod_eq_of_lt (by omega)]
  rw [BitVec.getLsbD, hval, Nat.testBit_two_pow_sub_one]

theorem getLsbD_mask {len shift j : ℕ} (hlen : len ≤ 64 - shift) (hj : j < 64) :
    (mask len shift).getLsbD j = decide (shift ≤ j ∧ j < shift + len) := by
  unfold mask
  split
  · have hshift : shift = 0 := by omega
    subst hshift
    rw [BitVec.getLsbD_allOnes]
    apply decide_eq_decide.mpr
    omega
  · rw [BitVec.getLsbD_shiftLeft, getLsbD_one_shift_sub (by omega)]
    by_cases hs : j < shift
    · simp [hs, Nat.not_le.mpr hs]
    · simp only [hj, hs, decide_true, Bool.true_and, decide_false, Bool.not_false]
      apply decide_eq_decide.mpr
      omega

/-- Positions of one word, as positions of the bitmap. -/
theorem piece_index {start len i : ℕ} (hlen : len ≤ 64 - start % 64) :
    (i / 64 = start / 64 ∧ start % 64 ≤ i % 64 ∧ i % 64 < start % 64 + len) ↔
      start ≤ i ∧ i < start + len := by
  omega

theorem decide_piece {start len i : ℕ} (hlen : len ≤ 64 - start % 64) :
    decide (start ≤ i ∧ i < start + len) =
      (decide (i / 64 = start / 64) &&
        decide (start % 64 ≤ i % 64 ∧ i % 64 < start % 64 + len)) := by
  rw [← Bool.decide_and]
  exact decide_eq_decide.mpr (piece_index hlen).symm

section Pieces

variable {w : Words} {start len i : ℕ}

theorem bit_setBits (hlen : len ≤ 64 - start % 64) :
    bit (setBits w start len) i = (bit w i || decide (start ≤ i ∧ i < start + len)) := by
  have hj : i % 64 < 64 := Nat.mod_lt _ (by omega)
  rw [decide_piece hlen]
  unfold bit setBits
  by_cases hword : i / 64 = start / 64
  · rw [hword, update_self, BitVec.getLsbD_or, getLsbD_mask hlen hj]
    simp
  · rw [update_of_ne hword]
    simp [hword]

theorem bit_clearBits (hlen : len ≤ 64 - start % 64) :
    bit (clearBits w start len) i = (bit w i && !decide (start ≤ i ∧ i < start + len)) := by
  have hj : i % 64 < 64 := Nat.mod_lt _ (by omega)
  rw [decide_piece hlen]
  unfold bit clearBits
  by_cases hword : i / 64 = start / 64
  · rw [hword, update_self, BitVec.getLsbD_and, BitVec.getLsbD_not,
      getLsbD_mask hlen hj]
    simp [hj]
  · rw [update_of_ne hword]
    simp [hword]

/-- A word misses the mask exactly when all the masked bits of it are clear. -/
theorem and_mask_eq_zero_iff {x : Word} (hlen : len ≤ 64 - start % 64) :
    x &&& mask len (start % 64) = 0#64 ↔
      ∀ i, start ≤ i → i < start + len → x.getLsbD (i % 64) = false := by
  constructor
  · intro hzero i hlo hhi
    have hin := (piece_index hlen).mpr ⟨hlo, hhi⟩
    have hbit := congrArg (fun y => BitVec.getLsbD y (i % 64)) hzero
    simp only [BitVec.getLsbD_and, BitVec.getLsbD_zero,
      getLsbD_mask hlen (Nat.mod_lt i (show 0 < 64 by omega))] at hbit
    simpa [hin.2] using hbit
  · intro hclear
    apply BitVec.eq_of_getLsbD_eq
    intro j hj
    rw [BitVec.getLsbD_and, getLsbD_mask hlen hj, BitVec.getLsbD_zero]
    by_cases hin : start % 64 ≤ j ∧ j < start % 64 + len
    · have hidx := hclear (start + (j - start % 64)) (by omega) (by omega)
      have hmod : (start + (j - start % 64)) % 64 = j := by omega
      rw [hmod] at hidx
      simp [hidx]
    · simp [hin]

theorem piece_word (hlen : len ≤ 64 - start % 64) (hlo : start ≤ i) (hhi : i < start + len) :
    i / 64 = start / 64 := ((piece_index hlen).mpr ⟨hlo, hhi⟩).1

end Pieces

end Oxidalloc.WordBitmap
