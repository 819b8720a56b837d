import Oxidalloc.CallEffects
import Oxidalloc.HeapRefinement

/-!
The checks never accuse a program that keeps to the rules. `free` and `realloc` compare the
magic number of the header, the calls that need the size of a big block look for its record,
and `trim` compares the magic number of every block that it passes; whoever does not hand
back a pointer twice or write beyond a block never sees one of these checks fail. What can
still end the process is a kernel that refuses memory or random numbers, a CPU number without
a list, or a counter that overflows.
-/
namespace Oxidalloc.Process

open ByteMemory Effects Interleaving LinkedChain Programs

section Blocks

variable {w w₁ : World} {g : Layout} {ptr size h n t : ℕ}

end Blocks

section Realloc

variable {s : State} {g : Layout} {ptr size h n t : ℕ}

end Realloc

section Trim

variable {w w₁ : World} {g : Layout} {cls timing : ℕ}

/-- The check passes as long as the loop is on blocks with the mark of freed ones. -/
theorem checkedRecount_ok {ours : ℕ → Bool} {m : Memory} {magic : UInt8} {l : List ℕ}
    (n block real : ℕ) (hlinked : Linked 0 (OxHeader.next m) block l 0) (hne : l ≠ [])
    (hmagic : ∀ h ∈ l, OxHeader.magic m h = magic) :
    ∃ r, GTrim.checkedRecount ours m magic n block real = .ok r := by
  induction n generalizing block real l with
  | zero => exact ⟨_, rfl⟩
  | succ n ih =>
    cases l with
    | nil => exact absurd rfl hne
    | cons x rest =>
      obtain ⟨rfl, _, hrest⟩ := hlinked
      rw [GTrim.checkedRecount]
      split
      · rename_i hnext
        have hfirst := hmagic block (List.mem_cons_self ..)
        rw [if_neg (by simp [hfirst])]
        refine ih _ _ hrest ?_ fun h hh => hmagic h (List.mem_cons_of_mem _ hh)
        rintro rfl
        exact hnext.1 hrest
      · exact ⟨_, rfl⟩

end Trim

end Oxidalloc.Process
