import Mathlib.Data.Nat.Notation
import Mathlib.Logic.Function.Basic
import Oxidalloc.Halting
import Oxidalloc.Interleaving
import Oxidalloc.Programs

/-!
`Once` and `OnceLock` across the interleavings of the threads and across forks. The
initialiser takes many accesses, and other threads call the cell at the same time. A fork
can come at any moment; the run then goes on in the child, where only the forking thread
exists and `reset_at_fork` gives up an initialiser that had begun. What that initialiser
has written by then stays in the memory of the child.

An initialiser is a tree of single accesses to the shared state; the accesses are
sequentially consistent.
-/
namespace Oxidalloc.OnceRace

open Interleaving Programs Function

/-- An access changes the shared state; what follows depends on the state before it. -/
inductive Proc (σ ε α : Type) where
  | ret (a : α)
  | fail (e : ε)
  | access (f : σ → σ) (k : σ → Proc σ ε α)

namespace Proc

variable {σ ε α β : Type}

def bind : Proc σ ε α → (α → Proc σ ε β) → Proc σ ε β
  | .ret a, q => q a
  | .fail e, _ => .fail e
  | .access f k, q => .access f fun s => (k s).bind q

instance : Monad (Proc σ ε) where
  pure := .ret
  bind := Proc.bind

/-- The procedure run alone, without other threads. -/
def run : Proc σ ε α → Program ε σ α
  | .ret a => pure a
  | .fail e => throw e
  | .access f k => fun s => (k s).run (f s)

def write (f : σ → σ) : Proc σ ε Unit := .access f fun _ => .ret ()

end Proc

variable {σ ε κ : Type}

/-- Where a thread stands in `call_once`. -/
inductive Control (σ ε κ : Type) where
  | outside
  | load (arg : κ)
  | claim (arg : κ)
  | running (arg : κ) (rest : Proc σ ε Unit)
  | wait
  | done

/-- `state` is the word of the cell: 0, 1 while an initialiser runs, then 2. What callers
read of the shared state after `call_once` is listed in `returned`; `completed` lists the
arguments of the initialisers that came to their end. -/
structure State (σ ε κ : Type) where
  state : ℕ
  shared : σ
  control : ℕ → Control σ ε κ
  returned : List σ
  completed : List κ
  halted : Option ε

/-- A call passes what its closure has captured. -/
inductive Action (κ : Type) where
  | call (t : ℕ) (arg : κ)
  | advance (t : ℕ)
  | fork (t : ℕ)

def State.new (s : σ) : State σ ε κ := ⟨0, s, fun _ => .outside, [], [], none⟩

def State.goto (s : State σ ε κ) (t : ℕ) (c : Control σ ε κ) : State σ ε κ :=
  { s with control := update s.control t c }

section Machine

variable (init : κ → Proc σ ε Unit)

def advance (s : State σ ε κ) (t : ℕ) : Option (State σ ε κ) :=
  match s.control t with
  | .outside => none
  | .load arg => some (s.goto t (if s.state = 2 then .done else .claim arg))
  | .claim arg =>
    if s.state = 0 then some ({ s with state := 1 }.goto t (.running arg (init arg)))
    else some (s.goto t .wait)
  | .running arg (.access f k) =>
    some ({ s with shared := f s.shared }.goto t (.running arg (k s.shared)))
  | .running arg (.ret _) =>
    some ({ s with state := 2, completed := s.completed ++ [arg] }.goto t .wait)
  | .running _ (.fail e) => some { s with halted := some e }
  | .wait => if s.state = 2 then some (s.goto t .done) else some s
  | .done => some ({ s with returned := s.returned ++ [s.shared] }.goto t .outside)

/-- `reset` says whether the handler of the child calls `reset_at_fork` for this cell. -/
def step (reset : Bool) (s : State σ ε κ) (a : Action κ) : Option (State σ ε κ) :=
  if s.halted.isSome then none
  else
    match a with
    | .call t arg =>
      match s.control t with
      | .outside => some (s.goto t (.load arg))
      | _ => none
    | .advance t => advance init s t
    | .fork t =>
      match s.control t with
      | .outside =>
        some { s with
          control := fun _ => .outside
          state := if reset = true ∧ s.state = 1 then 0 else s.state }
      | _ => none

end Machine

section Partial

/-- What is left of a procedure after some of its accesses. -/
inductive Steps (p : Proc σ ε Unit) (s : σ) : Proc σ ε Unit → σ → Prop
  | start : Steps p s p s
  | access {f : σ → σ} {k : σ → Proc σ ε Unit} {s' : σ} :
      Steps p s (.access f k) s' → Steps p s (k s') (f s')

/-- What initialisers that were given up have made of the shared state. -/
inductive Interrupted (init : κ → Proc σ ε Unit) (s₀ : σ) : σ → Prop
  | start : Interrupted init s₀ s₀
  | given_up {s s' : σ} {arg : κ} {p : Proc σ ε Unit} :
      Interrupted init s₀ s → Steps (init arg) s p s' → Interrupted init s₀ s'

theorem Steps.run_eq {p p' : Proc σ ε Unit} {s s' : σ} (h : Steps p s p' s') :
    p'.run s' = p.run s := by
  induction h with
  | start => rfl
  | access _ ih => exact ih

end Partial

/-- The invariant of the cell, for calls whose arguments are in A. While the word is not 2,
nobody has returned. When it is 2, one initialiser has come to its end, and the shared state is
what it made of it, from its beginning to its end. -/
structure Inv (init : κ → Proc σ ε Unit) (reset : Bool) (A : κ → Prop) (s₀ : σ)
    (s : State σ ε κ) : Prop where
  args : ∀ t v, s.control t = .load v ∨ s.control t = .claim v → A v
  fresh : s.state = 0 → Interrupted init s₀ s.shared
  running : ∀ t v p, s.control t = .running v p → s.state = 1 ∧ A v ∧
    ∃ s₁, Interrupted init s₀ s₁ ∧ Steps (init v) s₁ p s.shared
  owner : reset = true → s.state = 1 → ∃ t v p, s.control t = .running v p
  single : ∀ t u v v' p q, s.control t = .running v p → s.control u = .running v' q → t = u
  early : s.state ≠ 2 → s.completed = [] ∧ s.returned = [] ∧ ∀ t, s.control t ≠ .done
  complete : s.state = 2 → ∃ v, s.completed = [v] ∧ A v ∧
    ∃ s₁, Interrupted init s₀ s₁ ∧ Runs (init v).run s₁ () s.shared
  same : ∀ x ∈ s.returned, x = s.shared
  failed : ∀ e, s.halted = some e →
    ∃ v s₁, A v ∧ Interrupted init s₀ s₁ ∧ (init v).run s₁ = .error e

variable {init : κ → Proc σ ε Unit} {reset : Bool} {A : κ → Prop} {s₀ : σ} {s s' : State σ ε κ}
  {t u : ℕ} {v : κ} {p : Proc σ ε Unit} {c : Control σ ε κ}

@[simp] theorem control_goto_self : (s.goto t c).control t = c := by simp [State.goto]

theorem goto_control (s : State σ ε κ) (t u : ℕ) (c : Control σ ε κ) :
    (u = t ∧ (s.goto t c).control u = c) ∨ (u ≠ t ∧ (s.goto t c).control u = s.control u) :=
  update_cases s.control t c u

theorem inv_new (s₀ : σ) : Inv init reset A s₀ (.new s₀) := by
  refine ⟨?_, fun _ => .start, ?_, ?_, ?_, ?_, ?_, ?_, ?_⟩ <;> simp [State.new]

/-- A thread that neither begins nor ends an initialiser, and is past the cell only if the
word is 2. -/
theorem Inv.goto (h : Inv init reset A s₀ s) (hbefore : ∀ v p, s.control t ≠ .running v p)
    (hargs : ∀ v, c = .load v ∨ c = .claim v → A v) (hrun : ∀ v p, c ≠ .running v p)
    (hdone : c = .done → s.state = 2) :
    Inv init reset A s₀ (s.goto t c) := by
  have hmoved := fun u => goto_control s t u c
  have hold : ∀ u v p, (s.goto t c).control u = .running v p ↔ s.control u = .running v p := by
    intro u v p
    rcases hmoved u with ⟨heq, hc⟩ | ⟨_, hc⟩ <;> rw [hc]
    exact iff_of_false (hrun v p) (heq ▸ hbefore v p)
  refine ⟨?_, h.fresh, ?_, ?_, ?_, ?_, h.complete, h.same, h.failed⟩
  · intro u v hu
    rcases hmoved u with ⟨_, hc⟩ | ⟨_, hc⟩ <;> rw [hc] at hu
    · exact hargs v hu
    · exact h.args u v hu
  · intro u v p hu
    exact h.running u v p ((hold u v p).mp hu)
  · intro hreset hone
    obtain ⟨u, v, p, hu⟩ := h.owner hreset hone
    exact ⟨u, v, p, (hold u v p).mpr hu⟩
  · intro u u' v v' p q hu hu'
    exact h.single u u' v v' p q ((hold u v p).mp hu) ((hold u' v' q).mp hu')
  · intro hne
    obtain ⟨hcompleted, hreturned, hnone⟩ := h.early hne
    refine ⟨hcompleted, hreturned, ?_⟩
    intro u hu
    rcases hmoved u with ⟨_, hc⟩ | ⟨_, hc⟩ <;> rw [hc] at hu
    · exact hne (hdone hu)
    · exact hnone u hu

/-- The one thread that runs an initialiser, at any of its accesses. -/
theorem Inv.running_goto {s₁ shared : σ} (h : Inv init reset A s₀ s) (hv : A v)
    (hstate : s.state ≠ 2) (hsole : ∀ u v q, s.control u = .running v q → u = t)
    (hint : Interrupted init s₀ s₁) (hsteps : Steps (init v) s₁ p shared) :
    Inv init reset A s₀ ({ s with state := 1, shared := shared }.goto t (.running v p)) := by
  obtain ⟨hcompleted, hreturned, hnone⟩ := h.early hstate
  have hmoved := fun u =>
    goto_control { s with state := 1, shared := shared } t u (.running v p)
  have hnow : ∀ u v' q, ({ s with state := 1, shared := shared }.goto t (.running v p)).control u =
      .running v' q → u = t := by
    intro u v' q hu
    rcases hmoved u with ⟨heq, _⟩ | ⟨_, hc⟩
    · exact heq
    · exact hsole u v' q (hc.symm.trans hu)
  refine ⟨?_, fun hzero => absurd hzero Nat.one_ne_zero, ?_,
    fun _ _ => ⟨t, v, p, control_goto_self⟩, ?_, ?_,
    fun htwo => absurd htwo (by simp [State.goto]), ?_, h.failed⟩
  · intro u v' hu
    rcases hmoved u with ⟨_, hc⟩ | ⟨_, hc⟩ <;> rw [hc] at hu
    · exact absurd hu (by simp)
    · exact h.args u v' hu
  · intro u v' q hu
    have heq := hnow u v' q hu
    subst heq
    rw [control_goto_self, Control.running.injEq] at hu
    obtain ⟨rfl, rfl⟩ := hu
    exact ⟨rfl, hv, s₁, hint, hsteps⟩
  · intro u u' v v' q r hu hu'
    rw [hnow u v q hu, hnow u' v' r hu']
  · intro _
    refine ⟨hcompleted, hreturned, ?_⟩
    intro u hu
    rcases hmoved u with ⟨_, hc⟩ | ⟨_, hc⟩ <;> rw [hc] at hu
    · contradiction
    · exact hnone u hu
  · intro x hx
    rw [show s.returned = _ from hreturned] at hx
    contradiction

theorem Inv.finish (h : Inv init reset A s₀ s) (ht : s.control t = .running v (.ret ())) :
    Inv init reset A s₀ ({ s with state := 2, completed := s.completed ++ [v] }.goto t .wait) := by
  obtain ⟨hstate, hv, s₁, hint, hsteps⟩ := h.running t v _ ht
  obtain ⟨hcompleted, hreturned, _⟩ := h.early (by omega)
  have hmoved := fun u =>
    goto_control { s with state := 2, completed := s.completed ++ [v] } t u .wait
  have hnone : ∀ u v' q, ({ s with state := 2, completed := s.completed ++ [v] }.goto t
      .wait).control u ≠ .running v' q := by
    intro u v' q hu
    rcases hmoved u with ⟨_, hc⟩ | ⟨hne, hc⟩ <;> rw [hc] at hu
    · contradiction
    · exact hne (h.single u t v' v q _ hu ht)
  refine ⟨?_, fun hzero => absurd hzero (by simp [State.goto]),
    fun u v' q hu => absurd hu (hnone u v' q), fun _ hone => absurd hone (by simp [State.goto]),
    fun u u' v v' q r hu => absurd hu (hnone u v q),
    fun hne => absurd rfl hne, fun _ => ⟨v, ?_, hv, s₁, hint, ?_⟩, h.same, h.failed⟩
  · intro u v' hu
    rcases hmoved u with ⟨_, hc⟩ | ⟨_, hc⟩ <;> rw [hc] at hu
    · exact absurd hu (by simp)
    · exact h.args u v' hu
  · exact congrArg (· ++ [v]) hcompleted
  · exact hsteps.run_eq.symm

theorem Inv.read (h : Inv init reset A s₀ s) (ht : s.control t = .done) :
    Inv init reset A s₀ ({ s with returned := s.returned ++ [s.shared] }.goto t .outside) := by
  have hstate : s.state = 2 := by
    by_contra hne
    exact (h.early hne).2.2 t ht
  have hinv : Inv init reset A s₀ { s with returned := s.returned ++ [s.shared] } := by
    refine ⟨h.args, h.fresh, h.running, h.owner, h.single,
      fun hne => absurd hstate hne, h.complete, ?_, h.failed⟩
    intro x hx
    rcases List.mem_append.mp hx with hx | hx
    · exact h.same x hx
    · exact List.mem_singleton.mp hx
  exact hinv.goto (by simp [ht]) (by simp) (by simp) (by simp)

/-- The child keeps what an initialiser of the parent has done so far. -/
theorem Inv.fork (h : Inv init reset A s₀ s) :
    Inv init reset A s₀ { s with
      control := fun _ => .outside
      state := if reset = true ∧ s.state = 1 then 0 else s.state } := by
  by_cases hgone : reset = true ∧ s.state = 1
  · simp only [hgone, and_self, if_true]
    obtain ⟨t, v, p, ht⟩ := h.owner hgone.1 hgone.2
    obtain ⟨_, _, s₁, hint, hsteps⟩ := h.running t v p ht
    obtain ⟨hcompleted, hreturned, _⟩ := h.early (by omega)
    exact ⟨by simp, fun _ => .given_up hint hsteps, by simp, by simp, by simp, fun _ => ⟨hcompleted, hreturned, by simp⟩, by simp, h.same, h.failed⟩
  · simp only [hgone, if_false]
    refine ⟨by simp, h.fresh, by simp, fun hreset hone => absurd ⟨hreset, hone⟩ hgone, by simp, ?_, h.complete, h.same, h.failed⟩
    intro hne
    exact ⟨(h.early hne).1, (h.early hne).2.1, by simp⟩

theorem advance_inv (h : Inv init reset A s₀ s) (hstep : advance init s t = some s') :
    Inv init reset A s₀ s' := by
  unfold advance at hstep
  split at hstep
  · contradiction
  · rename_i arg ht
    have harg := h.args t arg (Or.inl ht)
    rw [← Option.some.inj hstep]
    split
    · rename_i htwo
      exact h.goto (by simp [ht]) (by simp) (by simp) (fun _ => htwo)
    · refine h.goto (by simp [ht]) ?_ (by simp) (by simp)
      rintro v (hv | hv)
      · contradiction
      · exact Control.claim.inj hv ▸ harg
  · rename_i arg ht
    split at hstep
    · rename_i hzero
      rw [← Option.some.inj hstep]
      refine h.running_goto (h.args t arg (Or.inr ht)) (by omega) ?_ (h.fresh hzero) .start
      intro u v q hu
      have hone := (h.running u v q hu).1
      omega
    · rw [← Option.some.inj hstep]
      exact h.goto (by simp [ht]) (by simp) (by simp) (by simp)
  · rename_i arg f k ht
    rw [← Option.some.inj hstep]
    obtain ⟨hone, hv, s₁, hint, hsteps⟩ := h.running t arg _ ht
    have hnext := h.running_goto (t := t) hv (by omega)
      (fun u v q hu => h.single u t v arg q _ hu ht) hint (.access hsteps)
    rwa [show ({ s with state := 1, shared := f s.shared } : State σ ε κ) =
      { s with shared := f s.shared } by rw [← hone]] at hnext
  · rename_i ht
    rw [← Option.some.inj hstep]
    exact h.finish ht
  · rename_i arg e ht
    rw [← Option.some.inj hstep]
    obtain ⟨_, hv, s₁, hint, hsteps⟩ := h.running t arg _ ht
    refine ⟨h.args, h.fresh, h.running, h.owner, h.single, h.early, h.complete, h.same, ?_⟩
    intro e' he'
    refine ⟨arg, s₁, hv, hint, ?_⟩
    rw [← Option.some.inj he']
    exact hsteps.run_eq.symm
  · rename_i ht
    split at hstep
    · rename_i htwo
      rw [← Option.some.inj hstep]
      exact h.goto (by simp [ht]) (by simp) (by simp) (fun _ => htwo)
    · rw [← Option.some.inj hstep]
      exact h
  · rename_i ht
    rw [← Option.some.inj hstep]
    exact h.read ht

theorem step_inv {a : Action κ} (h : Inv init reset A s₀ s) (ha : ∀ t v, a = .call t v → A v)
    (hstep : step init reset s a = some s') : Inv init reset A s₀ s' := by
  unfold step at hstep
  split at hstep
  · contradiction
  · cases a with
    | call t arg =>
      dsimp only at hstep
      split at hstep
      · rename_i ht
        rw [← Option.some.inj hstep]
        refine h.goto (by simp [ht]) ?_ (by simp) (by simp)
        rintro v (hv | hv)
        · exact Control.load.inj hv ▸ ha t arg rfl
        · contradiction
      · contradiction
    | advance t => exact advance_inv h hstep
    | fork t =>
      dsimp only at hstep
      split at hstep
      · rw [← Option.some.inj hstep]
        exact h.fork
      · contradiction

/-- In a run the arguments are those of its calls. -/
theorem run_inv {schedule : List (Action κ)}
    (hrun : run (step init reset) (.new s₀) schedule = some s) :
    Inv init reset (fun v => ∃ t, Action.call t v ∈ schedule) s₀ s := by
  refine @run_invariant _ _ _ (fun _ a => a ∈ schedule) _ ?_ _ _ _ (inv_new s₀)
    (guarded_of_forall fun a ha _ => ha) hrun
  rintro s a s' hs ha hstep
  refine step_inv hs ?_ hstep
  rintro t v rfl
  exact ⟨t, ha⟩

theorem Inv.completed_le (h : Inv init reset A s₀ s) : s.completed.length ≤ 1 := by
  by_cases htwo : s.state = 2
  · obtain ⟨v, hcompleted, _⟩ := h.complete htwo
    rw [hcompleted]
    exact Nat.le_refl 1
  · rw [(h.early htwo).1]
    exact Nat.zero_le 1

/-- What a caller has read is the work of the one initialiser that came to its end. -/
theorem Inv.of_returned {x : σ} (h : Inv init reset A s₀ s) (hx : x ∈ s.returned) :
    ∃ v s₁, s.completed = [v] ∧ A v ∧ Runs (init v).run s₁ () x := by
  have htwo : s.state = 2 := by
    by_contra hne
    rw [(h.early hne).2.1] at hx
    contradiction
  obtain ⟨v, hcompleted, hv, s₁, _, hruns⟩ := h.complete htwo
  exact ⟨v, s₁, hcompleted, hv, (h.same x hx) ▸ hruns⟩

/-- What has come to its end stays in the list. -/
theorem step_completed {a : Action κ} (hstep : step init reset s a = some s') :
    s.completed <+: s'.completed := by
  unfold step advance at hstep
  repeat' split at hstep
  all_goals
    first
    | contradiction
    | obtain rfl := Option.some.inj hstep
      simp [State.goto]

/-- An initialiser that came to its end stays the only one. -/
theorem run_completed {schedule : List (Action κ)} (h : Inv init reset A s₀ s')
    (hv : s.completed = [v]) (hrun : run (step init reset) s schedule = some s') :
    s'.completed = [v] := by
  have hkept : s.completed <+: s'.completed :=
    @run_invariant _ _ _ _ (fun s₁ => s.completed <+: s₁.completed)
      (fun _ _ _ h _ hstep => h.trans (step_completed hstep)) s s' schedule (List.prefix_refl _)
      (guarded_trivial schedule) hrun
  have hle := h.completed_le
  rw [hv] at hkept
  exact (hkept.eq_of_length_le hle).symm

section OnceLock

variable {α : Type}

/-- The closure that `get_or_init` passes: it writes the value that it was given. -/
def initValue (v : α) : Proc (Option α) ε Unit := .write fun _ => some v

/-- What has been returned is the value of the one initialiser that came to its end, and a
call has passed this value. -/
theorem returned_value {schedule : List (Action α)} {s : State (Option α) ε α} {x : Option α}
    (hrun : run (step initValue true) (.new none) schedule = some s) (hx : x ∈ s.returned) :
    ∃ v t, s.completed = [v] ∧ x = some v ∧ Action.call t v ∈ schedule := by
  obtain ⟨v, s₁, hcompleted, ⟨t, hcall⟩, hruns⟩ := (run_inv hrun).of_returned hx
  refine ⟨v, t, hcompleted, ?_, hcall⟩
  have heq := Except.ok.inj (show Except.ok ((), some v) = Except.ok ((), x) from hruns)
  exact (congrArg Prod.snd heq).symm

/-- `get_or_init` of a `OnceLock`, with forks at any moment. At most one initialiser comes to
its end; all calls return its value, which some call has passed. The run follows the child at a
fork. If the initialiser has come to its end before the fork, then the calls of the parent after
the fork, whatever its threads do, return the same value as those of the child. -/
theorem getOrInit_agrees (schedule : List (Action α)) (s : State (Option α) ε α)
    (hrun : run (step initValue true) (.new none) schedule = some s) :
    s.completed.length ≤ 1 ∧
      (∀ x ∈ s.returned, ∃ v t, s.completed = [v] ∧ x = some v ∧ Action.call t v ∈ schedule) ∧
      ∀ before t after other (forked parent : State (Option α) ε α),
        schedule = before ++ .fork t :: after →
        run (step initValue true) (.new none) before = some forked → forked.completed ≠ [] →
        run (step initValue true) forked other = some parent →
        ∀ x ∈ s.returned, ∀ y ∈ parent.returned, x = y := by
  refine ⟨(run_inv hrun).completed_le, fun x hx => returned_value hrun hx, ?_⟩
  intro before t after other forked parent hsplit hbefore hdone hparent x hx y hy
  have hforked := run_inv hbefore
  obtain ⟨v, hv⟩ : ∃ v, forked.completed = [v] := by
    by_cases htwo : forked.state = 2
    · exact ⟨_, (hforked.complete htwo).choose_spec.1⟩
    · exact absurd (hforked.early htwo).1 hdone
  have hchild : run (step initValue true) forked (.fork t :: after) = some s := by
    rw [hsplit, run_append, hbefore] at hrun
    exact hrun
  have hother : run (step initValue true) (.new none) (before ++ other) = some parent := by
    rw [run_append, hbefore]
    exact hparent
  obtain ⟨_, _, hcompleted, rfl, _⟩ := returned_value hrun hx
  obtain ⟨_, _, hcompleted', rfl, _⟩ := returned_value hother hy
  rw [run_completed (run_inv hrun) hv hchild] at hcompleted
  rw [run_completed (run_inv hother) hv hparent] at hcompleted'
  rw [← List.singleton_inj.mp hcompleted, ← List.singleton_inj.mp hcompleted']

/-- A first caller begins with its value while another one waits. A thread forks before the
write, and the child begins again with a value of its own. -/
def begun : List (Action ℕ) :=
  [.call 1 5, .call 2 6, .advance 1, .advance 1, .advance 2, .fork 3, .call 3 7] ++
    List.replicate 6 (.advance 3)

/-- Then the child forks as well. -/
def childOfChild : List (Action ℕ) := [.call 4 8, .advance 4, .advance 4]

theorem begun_result :
    (run (step initValue true) (.new none : State (Option ℕ) Halt ℕ) begun).map
        (fun s => (s.completed, (run (step initValue true) s childOfChild).isSome)) =
      some ([7], true) := by
  decide +kernel

theorem begun_forked :
    (run (step initValue true) (.new none : State (Option ℕ) Halt ℕ)
        (begun ++ .fork 3 :: childOfChild)).map (·.returned) = some [some 7, some 7] := by
  decide +kernel

theorem getOrInit_agrees_forkedInit :
    ∃ s parent : State (Option ℕ) Halt ℕ,
      run (step initValue true) (.new none) (begun ++ .fork 3 :: childOfChild) = some s ∧
      run (step initValue true) (.new none) (begun ++ childOfChild) = some parent ∧
      s.returned = [some 7, some 7] ∧ ∀ y ∈ parent.returned, some 7 = y := by
  obtain ⟨s, hrun, hreturned⟩ := Option.map_eq_some_iff.mp begun_forked
  obtain ⟨forked, hbegun, heq⟩ := Option.map_eq_some_iff.mp begun_result
  obtain ⟨hcompleted, hsome⟩ := Prod.mk.inj heq
  obtain ⟨parent, hparent⟩ := Option.isSome_iff_exists.mp hsome
  have hagree := (getOrInit_agrees _ s hrun).2.2 begun 3 childOfChild childOfChild forked parent
    rfl hbegun (by simp [hcompleted]) hparent
  refine ⟨s, parent, hrun, ?_, hreturned, hagree (some 7) (by simp [hreturned])⟩
  rw [run_append, hbegun]
  exact hparent

end OnceLock

section EnsureCache

/-- The fields of the `InterConnectCache`; `locks` is set in the hardened build only. -/
structure Icc where
  list : ℕ
  usage : ℕ
  locks : ℕ
  ncpu : ℕ
  deriving DecidableEq, Repr

/-- What the kernel answers to the closure of `ensure_cache`: the number of CPUs, and the
addresses of its mappings. -/
structure Answers where
  cpus : ℕ
  list : Option ℕ
  usage : Option ℕ
  locks : Option ℕ

/-- The `mmap!` of the module, whose failure aborts. -/
def mapped (answer : Option ℕ) : Proc Icc Halt ℕ :=
  match answer with
  | some addr => pure addr
  | none => .fail (.abort .iccFailedToInitialize "MMAP call failed")

def initCache (hardened : Bool) (answers : Answers) : Proc Icc Halt Unit := do
  let list ← mapped answers.list
  let usage ← mapped answers.usage
  let locks ← if hardened then mapped answers.locks else pure 0
  .write fun icc => { icc with list := list }
  .write fun icc => { icc with usage := usage }
  if hardened then .write fun icc => { icc with locks := locks } else pure ()
  .write fun icc => { icc with ncpu := answers.cpus }

/-- All fields of the cache are those of one run of the closure. -/
structure Answers.Set (hardened : Bool) (answers : Answers) (icc : Icc) : Prop where
  list : answers.list = some icc.list
  usage : answers.usage = some icc.usage
  locks : hardened = true → answers.locks = some icc.locks
  ncpu : icc.ncpu = answers.cpus

/-- The kernel has refused one of the mappings that the closure asks for. -/
def Answers.Refused (hardened : Bool) (answers : Answers) : Prop :=
  answers.list = none ∨ answers.usage = none ∨ (hardened = true ∧ answers.locks = none)

/-- A run of the closure fails at a mapping, or sets all fields from its answers. -/
theorem initCache_cases (hardened : Bool) (answers : Answers) (icc : Icc) :
    ((initCache hardened answers).run icc =
        .error (.abort .iccFailedToInitialize "MMAP call failed") ∧ answers.Refused hardened) ∨
      ∃ icc', (initCache hardened answers).run icc = .ok ((), icc') ∧
        answers.Set hardened icc' := by
  obtain ⟨cpus, list, usage, locks⟩ := answers
  cases list with
  | none => exact Or.inl ⟨rfl, Or.inl rfl⟩
  | some list =>
    cases usage with
    | none => exact Or.inl ⟨rfl, Or.inr (Or.inl rfl)⟩
    | some usage =>
      cases hardened with
      | false => exact Or.inr ⟨_, rfl, rfl, rfl, by simp, rfl⟩
      | true =>
        cases locks with
        | none => exact Or.inl ⟨rfl, Or.inr (Or.inr ⟨rfl, rfl⟩)⟩
        | some locks => exact Or.inr ⟨_, rfl, rfl, rfl, fun _ => rfl, rfl⟩

/-- `ensure_cache` under concurrent calls, with forks at any moment: at most one closure
comes to its end, and whoever has returned from `ensure_cache` finds the list, the counters,
the locks and the number of CPUs that the kernel gave to this closure, the same as everybody
else. The process ends only if a mapping for one of the calls is refused. -/
theorem ensureCache_complete (hardened reset : Bool) (schedule : List (Action Answers))
    (s : State Icc Halt Answers)
    (hrun : run (step (initCache hardened) reset) (.new ⟨0, 0, 0, 0⟩) schedule = some s) :
    s.completed.length ≤ 1 ∧
      (∀ x ∈ s.returned,
        (∃ answers t, s.completed = [answers] ∧ Action.call t answers ∈ schedule ∧
          answers.Set hardened x) ∧ ∀ y ∈ s.returned, y = x) ∧
      ∀ e, s.halted = some e → e = .abort .iccFailedToInitialize "MMAP call failed" ∧
        ∃ answers t, Action.call t answers ∈ schedule ∧ answers.Refused hardened := by
  have hinv := run_inv hrun
  refine ⟨hinv.completed_le, ?_, ?_⟩
  · intro x hx
    obtain ⟨answers, s₁, hcompleted, ⟨t, hcall⟩, hruns⟩ := hinv.of_returned hx
    refine ⟨⟨answers, t, hcompleted, hcall, ?_⟩, ?_⟩
    · rcases initCache_cases hardened answers s₁ with ⟨herr, _⟩ | ⟨icc, hok, hfields⟩
      · rw [Runs, herr] at hruns
        contradiction
      · rw [Runs, hok, Except.ok.injEq, Prod.mk.injEq] at hruns
        exact hruns.2 ▸ hfields
    · intro y hy
      exact (hinv.same y hy).trans (hinv.same x hx).symm
  · intro e he
    obtain ⟨answers, s₁, ⟨t, hcall⟩, _, herr⟩ := hinv.failed e he
    rcases initCache_cases hardened answers s₁ with ⟨herr', hrefused⟩ | ⟨icc, hok, _⟩
    · rw [herr'] at herr
      exact ⟨(Except.error.inj herr).symm, answers, t, hcall, hrefused⟩
    · rw [hok] at herr
      contradiction

/-- Two threads come at once; the second waits for the first to set the fields. -/
def twoCallers : List (Action Answers) :=
  [.call 1 ⟨4, some 4096, some 8192, none⟩, .call 2 ⟨4, some 12288, some 16384, none⟩,
    .advance 1, .advance 2, .advance 1, .advance 2, .advance 2] ++
    List.replicate 6 (.advance 1) ++ [.advance 2, .advance 2]

theorem twoCallers_returned :
    (run (step (initCache false) false) (.new ⟨0, 0, 0, 0⟩) twoCallers).map (·.returned) =
      some [⟨4096, 8192, 0, 4⟩, ⟨4096, 8192, 0, 4⟩] := by
  decide +kernel

theorem ensureCache_complete_twoCallers :
    ∃ s, run (step (initCache false) false) (.new ⟨0, 0, 0, 0⟩) twoCallers = some s ∧
      s.returned = [⟨4096, 8192, 0, 4⟩, ⟨4096, 8192, 0, 4⟩] ∧ s.completed.length ≤ 1 := by
  obtain ⟨s, hrun, hreturned⟩ := Option.map_eq_some_iff.mp twoCallers_returned
  exact ⟨s, hrun, hreturned, (ensureCache_complete false false twoCallers s hrun).1⟩

end EnsureCache

end Oxidalloc.OnceRace
