import Mathlib.Data.Nat.Notation
import Mathlib.Logic.Function.Basic

/-!
A heap of independent buffers, as a user of an allocator sees it: every buffer is a list of
cells of its own, and a call changes the buffer it names and no other. New cells have
arbitrary contents, unless they were asked for as zeros, and a buffer that is resized keeps
the cells that it still has. `Trace` follows whole histories of calls.
-/
namespace Oxidalloc.Buffers

open Function

variable {α β : Type*} [DecidableEq α]

abbrev Heap (α β : Type*) := α → Option (List β)

inductive Call (α β : Type*) where
  | make (size : ℕ)
  | makeZero (size : ℕ)
  | resize (ptr : α) (size : ℕ)
  | drop (ptr : α)
  | put (ptr : α) (i : ℕ) (v : β)
  | look (ptr : α)
deriving DecidableEq

/-- A call with its answer. A refusal leaves the heap as it is, and so does a question, and what
is put behind the last cell is not seen. -/
inductive Step (null : α) (zero : β) (h : Heap α β) : Call α β → α → Heap α β → Prop
  | refused (size : ℕ) : Step null zero h (.make size) null h
  | refusedZero (size : ℕ) : Step null zero h (.makeZero size) null h
  | refusedResize (ptr : α) (size : ℕ) (hsize : size ≠ 0) :
    Step null zero h (.resize ptr size) null h
  | made (size : ℕ) (r : α) (b : List β) (hr : r ≠ null) (hnew : h r = none)
    (hsize : b.length = size) : Step null zero h (.make size) r (update h r (some b))
  | madeZero (size : ℕ) (r : α) (hr : r ≠ null) (hnew : h r = none) :
    Step null zero h (.makeZero size) r (update h r (some (List.replicate size zero)))
  | resized (ptr : α) (size : ℕ) (r : α) (old b : List β) (hr : r ≠ null)
    (hold : h ptr = some old) (hnew : update h ptr none r = none)
    (hsize : b.length = size) (hkept : ∀ i, i < old.length → i < size → b[i]? = old[i]?) :
    Step null zero h (.resize ptr size) r
      (update (update h ptr none) r (some b))
  | emptied (ptr : α) (old : List β) (hold : h ptr = some old) :
    Step null zero h (.resize ptr 0) null (update h ptr none)
  | dropped (ptr : α) (old : List β) (hold : h ptr = some old) :
    Step null zero h (.drop ptr) null (update h ptr none)
  | put (ptr : α) (i : ℕ) (v : β) (old : List β) (hold : h ptr = some old) (hi : i < old.length) :
    Step null zero h (.put ptr i v) null (update h ptr (some (old.set i v)))
  | beyond (ptr : α) (i : ℕ) (v : β) (old : List β) (hold : h ptr = some old)
    (hi : old.length ≤ i) : Step null zero h (.put ptr i v) null h
  | looked (ptr r : α) : Step null zero h (.look ptr) r h

/-- A history of calls with their answers, from one heap to another. -/
inductive Trace (null : α) (zero : β) : Heap α β → List (Call α β × α) → Heap α β → Prop
  | nil (h : Heap α β) : Trace null zero h [] h
  | cons {h h₁ h' : Heap α β} {c : Call α β} {r : α} {rest : List (Call α β × α)}
    (hstep : Step null zero h c r h₁) (hrest : Trace null zero h₁ rest h') :
    Trace null zero h ((c, r) :: rest) h'

theorem Trace.append {null : α} {zero : β} {h h₁ h' : Heap α β} {first rest : List (Call α β × α)}
    (hfirst : Trace null zero h first h₁) (hrest : Trace null zero h₁ rest h') :
    Trace null zero h (first ++ rest) h' := by
  induction hfirst with
  | nil h => exact hrest
  | cons hstep _ ih => exact .cons hstep (ih hrest)

/-- The call neither writes a cell of a buffer nor ends, resizes or moves the buffer. -/
def Call.Spares (ptr : α) (i : ℕ) : Call α β → Prop
  | .resize p _ => p ≠ ptr
  | .drop p => p ≠ ptr
  | .put p j _ => p ≠ ptr ∨ j ≠ i
  | _ => True

variable {null : α} {zero : β} {h h' : Heap α β} {ptr : α} {i : ℕ} {v : β}

/-- The buffer is there, and a cell of it has a value. -/
def Holds (h : Heap α β) (ptr : α) (i : ℕ) (v : β) : Prop :=
  ∃ b, h ptr = some b ∧ b[i]? = some v

theorem Holds.update_ne {r : α} {b : Option (List β)} (hv : Holds h ptr i v) (hne : ptr ≠ r) :
    Holds (update h r b) ptr i v := by
  obtain ⟨c, hc, hi⟩ := hv
  exact ⟨c, by rw [update_of_ne hne, hc], hi⟩

/-- A new buffer comes where none was. -/
theorem Holds.update_new {r : α} {b : Option (List β)} (hv : Holds h ptr i v) (hr : h r = none) :
    Holds (update h r b) ptr i v := by
  refine hv.update_ne ?_
  obtain ⟨c, hc, _⟩ := hv
  rintro rfl
  rw [hr] at hc
  contradiction

/-- A call that spares a cell keeps its value. -/
theorem Holds.step {c : Call α β} {r : α} (hv : Holds h ptr i v) (hspares : c.Spares ptr i)
    (hstep : Step null zero h c r h') : Holds h' ptr i v := by
  cases hstep with
  | refused size => exact hv
  | refusedZero size => exact hv
  | refusedResize p size hsize => exact hv
  | made size r b hr hnew hsize => exact hv.update_new hnew
  | madeZero size r hr hnew => exact hv.update_new hnew
  | resized p size r old b hr hold hnew hsize hkept =>
    exact (hv.update_ne hspares.symm).update_new hnew
  | emptied p old hold => exact hv.update_ne hspares.symm
  | dropped p old hold => exact hv.update_ne hspares.symm
  | put p j w old hold hj =>
    by_cases heq : ptr = p
    · obtain ⟨b, hb, hi⟩ := hv
      subst heq
      have hji : j ≠ i := hspares.resolve_left (fun hne => hne rfl)
      rw [hold, Option.some.injEq] at hb
      subst hb
      exact ⟨old.set j w, update_self .., by rw [List.getElem?_set_ne hji, hi]⟩
    · exact hv.update_ne heq
  | beyond p j w old hold hj => exact hv
  | looked p r => exact hv

/-- A value stays where it is through every history that spares it. -/
theorem Holds.trace {history : List (Call α β × α)} (hv : Holds h ptr i v)
    (htrace : Trace null zero h history h') (hspares : ∀ e ∈ history, e.1.Spares ptr i) :
    Holds h' ptr i v := by
  induction htrace with
  | nil h => exact hv
  | cons hstep _ ih =>
    have hnext := hv.step (hspares _ (List.mem_cons_self ..)) hstep
    exact ih hnext (fun e he => hspares e (List.mem_cons_of_mem _ he))

end Oxidalloc.Buffers
