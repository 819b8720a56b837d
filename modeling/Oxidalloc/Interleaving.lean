import Mathlib.Data.Nat.Notation
import Mathlib.Logic.Function.Basic

/-!
Runs of a system given by a partial step function. A schedule is the list of
actions in the order in which they happen; an action that is not enabled has
no successor. `Guarded` restricts the runs to those whose every step meets a
condition on the state just before it, and `run_invariant` is the induction
along a run that every safety result uses. `update_cases` says where the threads stand when
one of them has moved.
-/
namespace Oxidalloc.Interleaving

open Function

variable {σ α : Type*}

def run (step : σ → α → Option σ) (s : σ) : List α → Option σ
  | [] => some s
  | a :: rest => (step s a).bind fun s' => run step s' rest

/-- Each action of the schedule meets the condition when it is taken. -/
def Guarded (step : σ → α → Option σ) (ok : σ → α → Prop) (s : σ) : List α → Prop
  | [] => True
  | a :: rest => ok s a ∧ ∀ s', step s a = some s' → Guarded step ok s' rest

instance Guarded.decidable (step : σ → α → Option σ) (ok : σ → α → Prop)
    [∀ s a, Decidable (ok s a)] : ∀ s schedule, Decidable (Guarded step ok s schedule)
  | _, [] => isTrue trivial
  | s, a :: rest =>
    match hstep : step s a with
    | none => decidable_of_iff (ok s a) (by simp [Guarded, hstep])
    | some s' =>
      have : Decidable (Guarded step ok s' rest) := Guarded.decidable step ok s' rest
      decidable_of_iff (ok s a ∧ Guarded step ok s' rest) (by simp [Guarded, hstep])

def Reachable (step : σ → α → Option σ) (init s : σ) : Prop :=
  ∃ schedule, run step init schedule = some s

variable {step : σ → α → Option σ} {ok : σ → α → Prop} {Inv : σ → Prop}

theorem run_cons {s s'' : σ} {a : α} {rest : List α} (h : run step s (a :: rest) = some s'') :
    ∃ s', step s a = some s' ∧ run step s' rest = some s'' :=
  Option.bind_eq_some_iff.mp h

theorem run_append {s : σ} (first rest : List α) :
    run step s (first ++ rest) = (run step s first).bind fun s' => run step s' rest := by
  induction first generalizing s with
  | nil => rfl
  | cons a first ih =>
    rw [List.cons_append, run, run, Option.bind_assoc]
    exact congrArg _ (funext fun s' => ih)

/-- A condition on the actions alone. -/
theorem guarded_of_forall {s : σ} {schedule : List α} (h : ∀ a ∈ schedule, ∀ s, ok s a) :
    Guarded step ok s schedule := by
  induction schedule generalizing s with
  | nil => trivial
  | cons a rest ih =>
    rw [List.forall_mem_cons] at h
    exact ⟨h.1 s, fun _ _ => ih h.2⟩

theorem guarded_trivial {s : σ} (schedule : List α) :
    Guarded step (fun _ _ => True) s schedule :=
  guarded_of_forall fun _ _ _ => trivial

theorem Guarded.append {s mid : σ} {first rest : List α} (h : Guarded step ok s (first ++ rest))
    (hrun : run step s first = some mid) : Guarded step ok s first ∧ Guarded step ok mid rest := by
  induction first generalizing s with
  | nil =>
    obtain rfl : s = mid := Option.some.inj hrun
    exact ⟨trivial, h⟩
  | cons a first ih =>
    obtain ⟨next, hnext, hrest⟩ := run_cons hrun
    refine ⟨⟨h.1, fun s' hs' => ?_⟩, (ih (h.2 next hnext) hrest).2⟩
    obtain rfl : next = s' := Option.some.inj (hnext.symm.trans hs')
    exact (ih (h.2 next hnext) hrest).1

/-- A property that guarded steps preserve holds at the end of a guarded run. -/
theorem run_invariant (hstep : ∀ s a s', Inv s → ok s a → step s a = some s' → Inv s')
    {s s' : σ} {schedule : List α} (hs : Inv s) (hok : Guarded step ok s schedule)
    (hrun : run step s schedule = some s') : Inv s' := by
  induction schedule generalizing s with
  | nil =>
    have heq : s = s' := Option.some.inj hrun
    rwa [← heq]
  | cons a rest ih =>
    obtain ⟨mid, hmid, hrest⟩ := run_cons hrun
    exact ih (hstep s a mid hs hok.1 hmid) (hok.2 mid hmid) hrest

section Threads

variable {β : Type*} {f : ℕ → β} {t : ℕ} {c : β}

theorem update_cases (f : ℕ → β) (t : ℕ) (c : β) (u : ℕ) :
    (u = t ∧ update f t c u = c) ∨ (u ≠ t ∧ update f t c u = f u) := by
  by_cases hu : u = t
  · exact Or.inl ⟨hu, by rw [hu, update_self]⟩
  · exact Or.inr ⟨hu, update_of_ne hu c f⟩

/-- A symmetric relation between any two threads, after one of them has moved. -/
theorem update_pairs {R : β → β → Prop} (hsymm : ∀ a b, R a b → R b a)
    (h : ∀ u v, u ≠ v → R (f u) (f v)) (hnew : ∀ u, u ≠ t → R (f u) c) {u v : ℕ} (huv : u ≠ v) :
    R (update f t c u) (update f t c v) := by
  rcases update_cases f t c u with ⟨hut, hu⟩ | ⟨hut, hu⟩ <;>
    rcases update_cases f t c v with ⟨hvt, hv⟩ | ⟨hvt, hv⟩ <;> rw [hu, hv]
  · exact absurd (hut.trans hvt.symm) huv
  · exact hsymm _ _ (hnew v hvt)
  · exact hnew u hut
  · exact h u v huv

end Threads

section Simulation

variable {τ : Type*} {R : σ → τ → Prop} {step' : τ → α → Option τ} {ok' : τ → α → Prop}

theorem rel_map {γ δ : Type*} {Q : γ → δ → Prop} {f : σ → γ} {g : τ → δ} {x : Option σ}
    {y : Option τ} (h : Option.Rel R x y) (hfg : ∀ s t, R s t → y = some t → Q (f s) (g t)) :
    Option.Rel Q (x.map f) (y.map g) := by
  cases h with
  | none => exact .none
  | some hst => exact .some (hfg _ _ hst rfl)

/-- Steps that keep two machines related keep them related along a run. -/
theorem run_rel (hstep : ∀ s t a, R s t → ok' t a → Option.Rel R (step s a) (step' t a)) {s : σ}
    {t : τ} {schedule : List α} (hst : R s t) (hok : Guarded step' ok' t schedule) :
    Option.Rel R (run step s schedule) (run step' t schedule) := by
  induction schedule generalizing s t with
  | nil => exact .some hst
  | cons a rest ih =>
    have hrel := hstep s t a hst hok.1
    have hnext := hok.2
    rw [run, run]
    generalize step s a = x, step' t a = y at hrel hnext
    cases hrel with
    | none => exact .none
    | some hst' => exact ih hst' (hnext _ rfl)

end Simulation

end Oxidalloc.Interleaving
