import Mathlib.Data.List.Perm.Subperm
import Oxidalloc.Halting
import Oxidalloc.MachineWord

/-!
The head word of an `InterConnectCache` list: a block address with the ABA tag
in its low four bits. Block addresses are 16-byte aligned, so both parts can be
read back, and the tag counts the updates of the word modulo 16.
-/
namespace Oxidalloc.HeadPacking

open MachineWord

def abaTagBits : ℕ := 4

def abaTagMask : ℕ := 2 ^ abaTagBits - 1

def abaPtrMask : ℕ := usizeBound - 1 - abaTagMask

def headPack (ptr tag : ℕ) : ℕ := ptr ||| (tag &&& abaTagMask)

def headPtr (val : ℕ) : ℕ := val &&& abaPtrMask

def headTag (val : ℕ) : ℕ := val &&& abaTagMask

/-- The address of a block header: not null, 16-byte aligned, a 64-bit word. -/
structure IsBlock (ptr : ℕ) : Prop where
  ne_null : ptr ≠ 0
  aligned : 16 ∣ ptr
  lt : ptr < usizeBound

variable {ptr tag val : ℕ}

theorem headTag_eq (val : ℕ) : headTag val = val % 16 :=
  Nat.and_two_pow_sub_one_eq_mod val 4

theorem headPtr_eq (h : val < usizeBound) : headPtr val = val / 16 * 16 :=
  @and_high_eq 64 4 val (by omega) h

theorem headPack_eq (h : 16 ∣ ptr) : headPack ptr tag = ptr + tag % 16 := by
  have hmask : tag &&& abaTagMask = tag % 16 := Nat.and_two_pow_sub_one_eq_mod tag 4
  rw [headPack, hmask]
  exact @or_low_eq 4 ptr (tag % 16) h (Nat.mod_lt tag (by omega))

theorem headPack_lt (h : 16 ∣ ptr) (hlt : ptr < usizeBound) : headPack ptr tag < usizeBound := by
  rw [headPack_eq h]
  unfold usizeBound at *
  omega

theorem headPtr_headPack (h : 16 ∣ ptr) (hlt : ptr < usizeBound) :
    headPtr (headPack ptr tag) = ptr := by
  rw [headPtr_eq (headPack_lt h hlt), headPack_eq h]
  omega

theorem headTag_headPack (h : 16 ∣ ptr) : headTag (headPack ptr tag) = tag % 16 := by
  rw [headTag_eq, headPack_eq h]
  omega

/-- The tag of the word that replaces a word. -/
theorem headTag_bump (h : 16 ∣ ptr) :
    headTag (headPack ptr ((headTag val + 1) % usizeBound)) = (headTag val + 1) % 16 := by
  rw [headTag_headPack h]
  unfold usizeBound
  omega

/-- There are fewer blocks than addresses, so no counter wraps around. -/
theorem length_lt_of_blocks {l : List ℕ} (hnodup : l.Nodup) (hblocks : ∀ h ∈ l, IsBlock h) :
    l.length < usizeBound := by
  have hcons : (0 :: l).Nodup :=
    List.nodup_cons.mpr ⟨fun hmem => (hblocks 0 hmem).ne_null rfl, hnodup⟩
  have hsubset : 0 :: l ⊆ List.range usizeBound := by
    intro h hh
    rw [List.mem_range]
    rcases List.mem_cons.mp hh with heq | hmem
    · rw [heq]
      decide
    · exact (hblocks h hmem).lt
  have hle := (List.subperm_of_subset hcons hsubset).length_le
  rw [List.length_cons, List.length_range] at hle
  exact hle

end Oxidalloc.HeadPacking
