import Oxidalloc.Programs

/-!
Programs that keep a record of what they do in a ghost state beside their own. Such a program
erases to another one if they have the same results and the same errors, whatever the record
is; then every run of the second is a run of the first.
-/
namespace Oxidalloc.GhostState

open Programs

variable {ε σ γ α β : Type}

/-- The program does not touch the record. -/
def quietly (x : Program ε σ α) : Program ε (σ × γ) α := zoom Prod.fst (fun s s' => (s', s.2)) x

/-- Only the record changes. -/
def record (f : γ → γ) : Program ε (σ × γ) PUnit := modify fun s => (s.1, f s.2)

/-- Without the record the first program is the second. -/
def Erases (y : Program ε (σ × γ) α) (x : Program ε σ α) : Prop :=
  ∀ s, (y s).map (fun p => (p.1, p.2.1)) = x s.1

section Runs

variable {x : Program ε σ α} {s s' : σ} {g : γ} {a : α}

theorem runs_quietly (h : Runs x s a s') : Runs (quietly x) (s, g) a (s', g) :=
  runs_zoom.mpr ⟨s', h, rfl⟩

theorem runs_quietly_bind {k : α → Program ε (σ × γ) β} {b : β} {t : σ × γ} :
    Runs (quietly x >>= k) (s, g) b t ↔ ∃ a s', Runs x s a s' ∧ Runs (k a) (s', g) b t := by
  rw [runs_bind]
  constructor
  · rintro ⟨a, mid, hx, hk⟩
    obtain ⟨s', hfirst, rfl⟩ := runs_zoom.mp hx
    exact ⟨a, s', hfirst, hk⟩
  · rintro ⟨a, s', hx, hk⟩
    exact ⟨a, (s', g), runs_quietly hx, hk⟩

theorem runs_record {f : γ → γ} :
    Runs (record f : Program ε (σ × γ) PUnit) (s, g) ⟨⟩ (s, f g) :=
  rfl

theorem runs_record_bind {f : γ → γ} {k : PUnit → Program ε (σ × γ) β} {b : β} {t : σ × γ} :
    Runs (record f >>= k) (s, g) b t ↔ Runs (k ⟨⟩) (s, f g) b t :=
  runs_modify_bind

theorem Erases.runs {y : Program ε (σ × γ) α} (h : Erases y x) (g : γ) (hrun : Runs x s a s') :
    ∃ g', Runs y (s, g) a (s', g') := by
  have heq := h (s, g)
  rw [show x s = _ from hrun] at heq
  cases hy : y (s, g) with
  | error e =>
    rw [hy] at heq
    contradiction
  | ok p =>
    obtain ⟨b, t, g'⟩ := p
    rw [hy] at heq
    obtain ⟨rfl, rfl⟩ := Prod.mk.inj (Except.ok.inj heq)
    exact ⟨g', hy⟩

theorem Erases.erased {y : Program ε (σ × γ) α} {t : σ × γ} (h : Erases y x)
    (hrun : Runs y (s, g) a t) : Runs x s a t.1 := by
  have heq := h (s, g)
  rw [show y (s, g) = _ from hrun] at heq
  exact heq.symm

theorem Erases.ends {y : Program ε (σ × γ) α} (h : Erases y x) (hends : Ends y (s, g)) :
    Ends x s := by
  obtain ⟨b, t, hrun⟩ := hends
  exact ⟨b, t.1, h.erased hrun⟩

end Runs

section Rules

theorem erases_quietly {x : Program ε σ α} : Erases (quietly x : Program ε (σ × γ) α) x := by
  intro s
  show ((x s.1).map _).map _ = x s.1
  cases x s.1 <;> rfl

theorem erases_pure {a : α} : Erases (pure a : Program ε (σ × γ) α) (pure a) :=
  fun _ => rfl

theorem erases_throw {e : ε} : Erases (throw e : Program ε (σ × γ) α) (throw e) := fun _ => rfl

theorem erases_attempt {x : Except ε α} :
    Erases (attempt x : Program ε (σ × γ) α) (attempt x) := by
  intro s
  show (x.map _).map _ = x.map _
  cases x <;> rfl

theorem erases_bind {y : Program ε (σ × γ) α} {x : Program ε σ α}
    {k : α → Program ε (σ × γ) β} {f : α → Program ε σ β} (hx : Erases y x)
    (hf : ∀ a, Erases (k a) (f a)) : Erases (y >>= k) (x >>= f) := by
  intro s
  show ((y s).bind fun p => k p.1 p.2).map _ = (x s.1).bind fun p => f p.1 p.2
  rw [← hx s]
  cases y s with
  | error e => rfl
  | ok p => exact hf p.1 p.2

theorem erases_record_bind {f : γ → γ} {y : PUnit → Program ε (σ × γ) α} {x : Program ε σ α}
    (h : Erases (y ⟨⟩) x) : Erases (record f >>= y) x :=
  fun s => h (s.1, f s.2)

theorem erases_ite {p : Prop} [Decidable p] {y₁ y₂ : Program ε (σ × γ) α} {x₁ x₂ : Program ε σ α}
    (h₁ : Erases y₁ x₁) (h₂ : Erases y₂ x₂) :
    Erases (if p then y₁ else y₂) (if p then x₁ else x₂) := by
  split
  · exact h₁
  · exact h₂

end Rules

end Oxidalloc.GhostState
