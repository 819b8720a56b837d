import Mathlib.Order.Defs.Unbundled
import Oxidalloc.Programs

/-!
What a program may do to its state, and how it may fail. `Within R E x` says that every run
of x is a step of the relation R, and that x fails with errors of E only. R is a preorder, so
the rule for a sequence takes the parts one by one, and what holds of every part holds of the
whole program.
-/
namespace Oxidalloc.Effects

open Programs

variable {ε σ τ α β : Type} {R : σ → σ → Prop} {E : ε → Prop} {s : σ} {a : α}

/-- The program from one state. -/
def WithinAt (R : σ → σ → Prop) (E : ε → Prop) (x : Program ε σ α) (s : σ) : Prop :=
  Yields E x s fun _ s' => R s s'

def Within (R : σ → σ → Prop) (E : ε → Prop) (x : Program ε σ α) : Prop := ∀ s, WithinAt R E x s

theorem Within.failsOnly {x : Program ε σ α} (h : Within R E x) : FailsOnly E x s := (h s).fails

theorem Within.runs {x : Program ε σ α} {s' : σ} (h : Within R E x) (hrun : Runs x s a s') :
    R s s' :=
  (h s).result a s' hrun

/-- The same with every error allowed. -/
theorem Within.anyError {x : Program ε σ α} (h : Within R E x) : Within R (fun _ => True) x :=
  fun s => ⟨fun _ _ => trivial, (h s).result⟩

/-- Every state may follow every other one. -/
def Any (_ _ : σ) : Prop := True

instance Any.isPreorder : IsPreorder σ (@Any σ) where
  refl := fun _ => trivial
  trans := fun _ _ _ _ _ => trivial

section Rules

theorem within_throw {e : ε} (h : E e) : Within R E (throw e : Program ε σ α) :=
  fun _ => yields_throw h

theorem withinAt_set {s₁ : σ} (h : R s s₁) :
    WithinAt R E (set s₁ : Program ε σ PUnit) s := by
  refine ⟨total_set.failsOnly, fun u s' hrun => ?_⟩
  rw [runs_set.mp hrun]
  exact h

theorem within_modify {f : σ → σ} (h : ∀ s, R s (f s)) :
    Within R E (modify f : Program ε σ PUnit) := by
  intro s
  refine ⟨total_modify.failsOnly, fun u s' hrun => ?_⟩
  rw [runs_modify.mp hrun]
  exact h s

/-- A program on a part of the state, whatever it does there. -/
theorem within_zoom {part : τ → σ} {put : τ → σ → τ} {T : τ → τ → Prop} {x : Program ε σ α}
    (hput : ∀ t s, T t (put t s)) (hx : Within R E x) : Within T E (zoom part put x) := by
  refine fun t => ⟨fun e he => ?_, fun a t' hrun => ?_⟩
  · have he : (x (part t)).map (fun p => (p.1, put t p.2)) = .error e := he
    cases hxs : x (part t) with
    | error e' =>
      rw [hxs] at he
      exact Except.error.inj he ▸ hx.failsOnly e' hxs
    | ok p =>
      rw [hxs] at he
      contradiction
  · obtain ⟨s', _, rfl⟩ := runs_zoom.mp hrun
    exact hput t s'

/-- A part that may fail and does not touch the state. -/
theorem withinAt_of_attempt {x : Except ε α} {f : α → Program ε σ β}
    (hx : ∀ e, x = .error e → E e) (hf : ∀ a, WithinAt R E (f a) s) :
    WithinAt R E (attempt x >>= f) s := by
  refine ⟨failsOnly_bind (failsOnly_attempt hx) fun a mid hrun => ?_, fun b s' hrun => ?_⟩
  · rw [(runs_attempt.mp hrun).2]
    exact (hf a).fails
  · obtain ⟨a, _, hrun⟩ := runs_attempt_bind.mp hrun
    exact (hf a).result b s' hrun

theorem within_ite {p : Prop} [Decidable p] {x y : Program ε σ α} (hx : Within R E x)
    (hy : Within R E y) : Within R E (if p then x else y) := by
  split
  · exact hx
  · exact hy

/-- A program that reads the state first is looked at from the state that it reads. -/
theorem within_get_bind {f : σ → Program ε σ β} (h : ∀ s, WithinAt R E (f s) s) :
    Within R E (get >>= f) :=
  fun s => ⟨(h s).fails, fun b s' hrun => (h s).result b s' (runs_get_bind.mp hrun)⟩

variable [IsPreorder σ R]

theorem within_pure : Within R E (pure a : Program ε σ α) := fun _ => yields_pure (refl_of R _)

theorem within_get : Within R E (get : Program ε σ σ) := by
  refine fun s => ⟨total_get.failsOnly, fun c s' hrun => ?_⟩
  rw [(runs_get.mp hrun).2]
  exact refl_of R s

theorem within_attempt {x : Except ε α} (h : ∀ e, x = .error e → E e) :
    Within R E (attempt x : Program ε σ α) := by
  refine fun s => ⟨failsOnly_attempt h, fun c s' hrun => ?_⟩
  rw [(runs_attempt.mp hrun).2]
  exact refl_of R s

theorem withinAt_bind {x : Program ε σ α} {f : α → Program ε σ β} (hx : WithinAt R E x s)
    (hf : ∀ a, Within R E (f a)) : WithinAt R E (x >>= f) s :=
  yields_bind hx fun a mid hmid => (hf a mid).mono fun _ _ hlast => trans_of R hmid hlast

theorem within_bind {x : Program ε σ α} {f : α → Program ε σ β} (hx : Within R E x)
    (hf : ∀ a, Within R E (f a)) : Within R E (x >>= f) :=
  fun s => withinAt_bind (hx s) hf

theorem within_read {f : σ → α} : Within R E (read f : Program ε σ α) :=
  within_bind within_get fun _ => within_pure

end Rules

end Oxidalloc.Effects
