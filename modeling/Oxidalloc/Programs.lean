import Mathlib.Logic.Basic

/-!
Programs with a state that may end without a result. `Runs x s a s'` says that x
started in s returns a and leaves s'; a program that halts with an error runs to
no state. The lemmas take a run of a composed program apart, so that a proof
follows the program text and needs no unfolding of the state and error layers.
-/
namespace Oxidalloc.Programs

variable {ε σ τ α β : Type}

abbrev Program (ε σ α : Type) := StateT σ (Except ε) α

def Runs (x : Program ε σ α) (s : σ) (a : α) (s' : σ) : Prop := x s = .ok (a, s')

variable {s s' : σ} {a c : α} {b : β}

@[simp] theorem runs_pure : Runs (pure a : Program ε σ α) s c s' ↔ c = a ∧ s' = s := by
  unfold Runs
  show (Except.ok (a, s) : Except ε _) = .ok (c, s') ↔ _
  rw [Except.ok.injEq, Prod.mk.injEq, eq_comm, @eq_comm _ s]

theorem runs_bind {x : Program ε σ α} {f : α → Program ε σ β} :
    Runs (x >>= f) s b s' ↔ ∃ a mid, Runs x s a mid ∧ Runs (f a) mid b s' := by
  unfold Runs
  show (x s).bind (fun p => f p.1 p.2) = _ ↔ _
  cases x s with
  | error e =>
    constructor
    · intro h
      contradiction
    · rintro ⟨a, mid, h, _⟩
      contradiction
  | ok p =>
    constructor
    · intro h
      exact ⟨p.1, p.2, rfl, h⟩
    · rintro ⟨a, mid, h, hf⟩
      rw [Except.ok.injEq] at h
      rw [h]
      exact hf

/-- A program goes on where its first part ends. -/
theorem bind_of_runs {x : Program ε σ α} {f : α → Program ε σ β} {mid : σ} (h : Runs x s a mid) :
    (x >>= f) s = f a mid := by
  show (x s).bind (fun p => f p.1 p.2) = _
  rw [show x s = _ from h]
  rfl

theorem runs_bind_iff {x : Program ε σ α} {f : α → Program ε σ β} {mid : σ} (h : Runs x s a mid) :
    Runs (x >>= f) s b s' ↔ Runs (f a) mid b s' := by
  unfold Runs
  rw [bind_of_runs h]

@[simp] theorem runs_get {s₁ : σ} :
    Runs (get : Program ε σ σ) s s₁ s' ↔ s₁ = s ∧ s' = s :=
  runs_pure

@[simp] theorem runs_set {s₁ : σ} {u : PUnit} :
    Runs (set s₁ : Program ε σ PUnit) s u s' ↔ s' = s₁ := by
  unfold Runs
  show (Except.ok (PUnit.unit, s₁) : Except ε _) = .ok (u, s') ↔ _
  rw [Except.ok.injEq, Prod.mk.injEq, eq_comm, @eq_comm _ s₁]
  simp

@[simp] theorem runs_modify {f : σ → σ} {u : PUnit} :
    Runs (modify f : Program ε σ PUnit) s u s' ↔ s' = f s := by
  unfold Runs
  show (Except.ok (PUnit.unit, f s) : Except ε _) = .ok (u, s') ↔ _
  rw [Except.ok.injEq, Prod.mk.injEq, eq_comm, @eq_comm _ (f s)]
  simp

/-- A part of the state. -/
def read (f : σ → α) : Program ε σ α := do
  let s ← get
  pure (f s)

@[simp] theorem runs_read {f : σ → α} :
    Runs (read f : Program ε σ α) s a s' ↔ a = f s ∧ s' = s :=
  runs_pure

@[simp] theorem runs_throw {e : ε} : ¬ Runs (throw e : Program ε σ α) s a s' :=
  fun h => nomatch h

section Bind

variable {f : α → Program ε σ β} {g : PUnit → Program ε σ β} {h : σ → Program ε σ β}

@[simp] theorem runs_pure_bind : Runs ((pure a : Program ε σ α) >>= f) s b s' ↔ Runs (f a) s b s' :=
  Iff.rfl

@[simp] theorem runs_get_bind :
    Runs ((get : Program ε σ σ) >>= h) s b s' ↔ Runs (h s) s b s' :=
  Iff.rfl

@[simp] theorem runs_set_bind {s₁ : σ} :
    Runs ((set s₁ : Program ε σ PUnit) >>= g) s b s' ↔ Runs (g ⟨⟩) s₁ b s' :=
  Iff.rfl

@[simp] theorem runs_modify_bind {m : σ → σ} :
    Runs ((modify m : Program ε σ PUnit) >>= g) s b s' ↔ Runs (g ⟨⟩) (m s) b s' :=
  Iff.rfl

@[simp] theorem runs_read_bind {part : σ → α} :
    Runs ((read part : Program ε σ α) >>= f) s b s' ↔ Runs (f (part s)) s b s' :=
  Iff.rfl

end Bind

/-- Code that may fail and does not touch the state. -/
def attempt (x : Except ε α) : Program ε σ α := fun s => x.map fun a => (a, s)

@[simp] theorem runs_attempt {x : Except ε α} :
    Runs (attempt x : Program ε σ α) s a s' ↔ x = .ok a ∧ s' = s := by
  unfold Runs attempt
  cases x with
  | error e =>
    constructor
    · intro h
      contradiction
    · intro h
      exact absurd h.1 nofun
  | ok c =>
    show (Except.ok (c, s) : Except ε _) = .ok (a, s') ↔ _
    rw [Except.ok.injEq, Except.ok.injEq, Prod.mk.injEq, @eq_comm _ s]

theorem runs_attempt_bind {x : Except ε α} {f : α → Program ε σ β} :
    Runs ((attempt x : Program ε σ α) >>= f) s b s' ↔ ∃ a, x = .ok a ∧ Runs (f a) s b s' := by
  rw [runs_bind]
  constructor
  · rintro ⟨a, mid, hx, hf⟩
    obtain ⟨hok, hmid⟩ := runs_attempt.mp hx
    exact ⟨a, hok, hmid ▸ hf⟩
  · rintro ⟨a, hok, hf⟩
    exact ⟨a, s, runs_attempt.mpr ⟨hok, rfl⟩, hf⟩

/-- A program on a part of the state. -/
def zoom (part : τ → σ) (put : τ → σ → τ) (x : Program ε σ α) : Program ε τ α :=
  fun t => (x (part t)).map fun p => (p.1, put t p.2)

theorem runs_zoom {part : τ → σ} {put : τ → σ → τ} {x : Program ε σ α} {t t' : τ} :
    Runs (zoom part put x) t a t' ↔ ∃ s', Runs x (part t) a s' ∧ t' = put t s' := by
  unfold Runs zoom
  cases x (part t) with
  | error e =>
    constructor
    · intro h
      contradiction
    · rintro ⟨s', h, _⟩
      contradiction
  | ok p =>
    show (Except.ok (p.1, put t p.2) : Except ε _) = .ok (a, t') ↔ _
    rw [Except.ok.injEq, Prod.mk.injEq]
    constructor
    · rintro ⟨ha, ht⟩
      exact ⟨p.2, by rw [← ha], ht.symm⟩
    · rintro ⟨s', h, ht⟩
      rw [Except.ok.injEq] at h
      rw [ht, h]
      exact ⟨rfl, rfl⟩

/-- The result of a program that comes to its end. -/
def outcome (x : Program ε σ α) (s : σ) : Option (α × σ) := (x s).toOption

theorem outcome_eq_some {x : Program ε σ α} : outcome x s = some (a, s') ↔ Runs x s a s' := by
  unfold outcome Runs
  cases x s with
  | error e => exact ⟨nofun, nofun⟩
  | ok p =>
    exact ⟨fun h => congrArg Except.ok (Option.some.inj h),
      fun h => congrArg some (Except.ok.inj h)⟩

/-- A run is taken, and then a program from where it ends. -/
theorem exists_outcome {τ : Type} {run : Option σ} {x : Program ε σ α} {f : σ → α × σ → τ} {t : τ}
    (h : (run.bind fun s => (outcome x s).map (f s)) = some t) :
    ∃ s a s', run = some s ∧ Runs x s a s' ∧ f s (a, s') = t := by
  obtain ⟨s, hrun, h⟩ := Option.bind_eq_some_iff.mp h
  obtain ⟨⟨a, s'⟩, hx, ht⟩ := Option.map_eq_some_iff.mp h
  exact ⟨s, a, s', hrun, outcome_eq_some.mp hx, ht⟩

/-- The error of a program that fails. -/
def errorOf (x : Program ε σ α) (s : σ) : Option ε :=
  match x s with
  | .error e => some e
  | .ok _ => none

theorem errorOf_eq_some {x : Program ε σ α} {e : ε} : errorOf x s = some e ↔ x s = .error e := by
  unfold errorOf
  cases x s with
  | error e' =>
    exact ⟨fun h => congrArg Except.error (Option.some.inj h),
      fun h => congrArg some (Except.error.inj h)⟩
  | ok p => exact ⟨nofun, nofun⟩

/-- A program that fails fails with one of the errors only. -/
def FailsOnly (E : ε → Prop) (x : Program ε σ α) (s : σ) : Prop := ∀ e, x s = .error e → E e

section FailsOnly

variable {E : ε → Prop}

theorem failsOnly_pure : FailsOnly E (pure a : Program ε σ α) s := nofun

theorem failsOnly_throw {e : ε} (h : E e) : FailsOnly E (throw e : Program ε σ α) s := by
  intro e' he'
  rwa [← Except.error.inj he']

/-- The parts fail with these errors only, the second one wherever the first one ends. -/
theorem failsOnly_bind {x : Program ε σ α} {f : α → Program ε σ β} (hx : FailsOnly E x s)
    (hf : ∀ a mid, Runs x s a mid → FailsOnly E (f a) mid) : FailsOnly E (x >>= f) s := by
  intro e he
  have he : (x s).bind (fun p => f p.1 p.2) = .error e := he
  cases hxs : x s with
  | error e' =>
    rw [hxs] at he
    exact Except.error.inj he ▸ hx e' hxs
  | ok p =>
    rw [hxs] at he
    exact hf p.1 p.2 hxs e he

theorem failsOnly_after {x : Program ε σ α} {f : α → Program ε σ β} {mid : σ}
    (hx : Runs x s a mid) (hf : FailsOnly E (f a) mid) : FailsOnly E (x >>= f) s := by
  intro e he
  rw [bind_of_runs hx] at he
  exact hf e he

theorem failsOnly_attempt {x : Except ε α} (h : ∀ e, x = .error e → E e) :
    FailsOnly E (attempt x : Program ε σ α) s := by
  intro e he
  cases x with
  | error e' => exact h e (congrArg Except.error (Except.error.inj he))
  | ok a => contradiction

theorem failsOnly_ite {p : Prop} [Decidable p] {x y : Program ε σ α} (hx : p → FailsOnly E x s)
    (hy : ¬ p → FailsOnly E y s) : FailsOnly E (if p then x else y) s := by
  by_cases h : p
  · rw [if_pos h]
    exact hx h
  · rw [if_neg h]
    exact hy h

/-- A program that never fails. -/
def Total (x : Program ε σ α) : Prop := ∀ s e, x s ≠ .error e

theorem Total.failsOnly {x : Program ε σ α} (h : Total x) : FailsOnly E x s :=
  fun e he => absurd he (h s e)

theorem total_pure : Total (pure a : Program ε σ α) := fun _ _ => nofun

theorem total_get : Total (get : Program ε σ σ) := fun _ _ => nofun

theorem total_read {f : σ → α} : Total (read f : Program ε σ α) := fun _ _ => nofun

theorem total_set : Total (set s : Program ε σ PUnit) := fun _ _ => nofun

theorem total_modify {f : σ → σ} : Total (modify f : Program ε σ PUnit) := fun _ _ => nofun

theorem total_bind {x : Program ε σ α} {f : α → Program ε σ β} (hx : Total x)
    (hf : ∀ a, Total (f a)) :
    Total (x >>= f) :=
  fun s e he => @failsOnly_bind _ _ _ _ s (fun _ => False) x f hx.failsOnly
    (fun a _ _ => (hf a).failsOnly) e he

theorem total_ite {p : Prop} [Decidable p] {x y : Program ε σ α} (hx : Total x) (hy : Total y) :
    Total (if p then x else y) := by
  split
  · exact hx
  · exact hy

end FailsOnly

theorem Runs.unique {x : Program ε σ α} {s₁ : σ} (h : Runs x s a s') (h' : Runs x s c s₁) :
    a = c ∧ s' = s₁ :=
  Prod.mk.inj (Except.ok.inj (h.symm.trans h'))

/-- Every run of the program leaves a part of the state as it is. -/
def Fixes (f : σ → τ) (x : Program ε σ α) : Prop := ∀ s a s', Runs x s a s' → f s' = f s

section Fixes

variable {f : σ → τ}

theorem fixes_pure : Fixes f (pure a : Program ε σ α) := by
  intro s c s' h
  rw [(runs_pure.mp h).2]

theorem fixes_throw {e : ε} : Fixes f (throw e : Program ε σ α) :=
  fun _ _ _ h => absurd h runs_throw

theorem fixes_modify {m : σ → σ} (h : ∀ s, f (m s) = f s) :
    Fixes f (modify m : Program ε σ PUnit) := by
  intro s u s' hrun
  rw [runs_modify.mp hrun]
  exact h s

theorem fixes_attempt {x : Except ε α} : Fixes f (attempt x : Program ε σ α) := by
  intro s c s' h
  rw [(runs_attempt.mp h).2]

theorem fixes_bind {x : Program ε σ α} {g : α → Program ε σ β} (hx : Fixes f x)
    (hg : ∀ a, Fixes f (g a)) : Fixes f (x >>= g) := by
  intro s c s' h
  obtain ⟨a, mid, hfirst, hsecond⟩ := runs_bind.mp h
  exact (hg a mid c s' hsecond).trans (hx s a mid hfirst)

theorem fixes_get_bind {g : σ → Program ε σ β} (hg : ∀ s, Fixes f (g s)) :
    Fixes f ((get : Program ε σ σ) >>= g) :=
  fun s c s' h => hg s s c s' (runs_get_bind.mp h)

theorem fixes_zoom {ρ : Type} {part : σ → ρ} {put : σ → ρ → σ} {x : Program ε ρ α}
    (h : ∀ s r, f (put s r) = f s) : Fixes f (zoom part put x) := by
  intro s c s' hrun
  obtain ⟨r, _, hs'⟩ := runs_zoom.mp hrun
  rw [hs', h]

theorem fixes_ite {p : Prop} [Decidable p] {x y : Program ε σ α} (hx : Fixes f x)
    (hy : Fixes f y) : Fixes f (if p then x else y) := by
  split
  · exact hx
  · exact hy

end Fixes

/-- Every run of the program from a state with the property ends in one. -/
def Preserves (P : σ → Prop) (x : Program ε σ α) : Prop := ∀ s a s', P s → Runs x s a s' → P s'

section Preserves

variable {P : σ → Prop}

theorem Fixes.preserves {f : σ → τ} {x : Program ε σ α} (h : Fixes f x)
    (hP : ∀ s s', P s → f s' = f s → P s') : Preserves P x :=
  fun s a s' hs hrun => hP s s' hs (h s a s' hrun)

theorem preserves_pure : Preserves P (pure a : Program ε σ α) := by
  intro s c s' hs h
  rwa [(runs_pure.mp h).2]

theorem preserves_throw {e : ε} : Preserves P (throw e : Program ε σ α) :=
  fun _ _ _ _ h => absurd h runs_throw

theorem preserves_modify {m : σ → σ} (h : ∀ s, P s → P (m s)) :
    Preserves P (modify m : Program ε σ PUnit) := by
  intro s u s' hs hrun
  rw [runs_modify.mp hrun]
  exact h s hs

theorem preserves_attempt {x : Except ε α} : Preserves P (attempt x : Program ε σ α) := by
  intro s c s' hs h
  rwa [(runs_attempt.mp h).2]

theorem preserves_bind {x : Program ε σ α} {g : α → Program ε σ β} (hx : Preserves P x)
    (hg : ∀ a, Preserves P (g a)) : Preserves P (x >>= g) := by
  intro s c s' hs h
  obtain ⟨a, mid, hfirst, hsecond⟩ := runs_bind.mp h
  exact hg a mid c s' (hx s a mid hs hfirst) hsecond

theorem preserves_get_bind {g : σ → Program ε σ β} (hg : ∀ s, Preserves P (g s)) :
    Preserves P ((get : Program ε σ σ) >>= g) :=
  fun s c s' hs h => hg s s c s' hs (runs_get_bind.mp h)

theorem preserves_ite {p : Prop} [Decidable p] {x y : Program ε σ α} (hx : Preserves P x)
    (hy : Preserves P y) : Preserves P (if p then x else y) := by
  split
  · exact hx
  · exact hy

end Preserves

/-- The program comes to its end from the state. -/
def Ends (x : Program ε σ α) (s : σ) : Prop := ∃ a s', Runs x s a s'

section Ends

theorem Runs.ends {x : Program ε σ α} (h : Runs x s a s') : Ends x s := ⟨a, s', h⟩

theorem ends_pure : Ends (pure a : Program ε σ α) s := ⟨a, s, rfl⟩

theorem ends_modify {m : σ → σ} : Ends (modify m : Program ε σ PUnit) s := ⟨⟨⟩, m s, rfl⟩

/-- The second part ends wherever the first one does. -/
theorem ends_bind {x : Program ε σ α} {f : α → Program ε σ β} (hx : Ends x s)
    (hf : ∀ a mid, Runs x s a mid → Ends (f a) mid) : Ends (x >>= f) s := by
  obtain ⟨a, mid, hrun⟩ := hx
  obtain ⟨b, s', hrest⟩ := hf a mid hrun
  exact ⟨b, s', runs_bind.mpr ⟨a, mid, hrun, hrest⟩⟩

theorem ends_after {x : Program ε σ α} {f : α → Program ε σ β} {mid : σ} (hx : Runs x s a mid)
    (hf : Ends (f a) mid) : Ends (x >>= f) s := by
  obtain ⟨b, s', hrest⟩ := hf
  exact ⟨b, s', (runs_bind_iff hx).mpr hrest⟩

theorem ends_ite {p : Prop} [Decidable p] {x y : Program ε σ α} (hx : p → Ends x s)
    (hy : ¬ p → Ends y s) : Ends (if p then x else y) s := by
  split
  · rename_i h
    exact hx h
  · rename_i h
    exact hy h

end Ends

/-- The program ends with a result that has the property, or fails with one of the errors. -/
structure Yields (E : ε → Prop) (x : Program ε σ α) (s : σ) (Q : α → σ → Prop) : Prop where
  fails : FailsOnly E x s
  result : ∀ a s', Runs x s a s' → Q a s'

section Yields

variable {E : ε → Prop} {Q : α → σ → Prop}

theorem Yields.mono {Q' : α → σ → Prop} {x : Program ε σ α} (h : Yields E x s Q)
    (hQ : ∀ a s', Q a s' → Q' a s') : Yields E x s Q' :=
  ⟨h.fails, fun a s' hrun => hQ a s' (h.result a s' hrun)⟩

theorem Yields.ends {x : Program ε σ α} (h : Yields E x s Q) (hE : ∀ e, ¬ E e) : Ends x s := by
  cases hx : x s with
  | error e => exact absurd (h.fails e hx) (hE e)
  | ok p => exact ⟨p.1, p.2, hx⟩

theorem yields_pure (h : Q a s) : Yields E (pure a : Program ε σ α) s Q := by
  refine ⟨failsOnly_pure, fun c s' hrun => ?_⟩
  obtain ⟨rfl, rfl⟩ := runs_pure.mp hrun
  exact h

theorem yields_throw {e : ε} (h : E e) : Yields E (throw e : Program ε σ α) s Q :=
  ⟨failsOnly_throw h, fun _ _ hrun => absurd hrun runs_throw⟩

/-- The second part starts wherever the first one ends. -/
theorem yields_bind {R : α → σ → Prop} {Q : β → σ → Prop} {x : Program ε σ α}
    {f : α → Program ε σ β} (hx : Yields E x s R)
    (hf : ∀ a mid, R a mid → Yields E (f a) mid Q) : Yields E (x >>= f) s Q := by
  refine ⟨failsOnly_bind hx.fails fun a mid hrun => (hf a mid (hx.result a mid hrun)).fails, ?_⟩
  intro b s' hrun
  obtain ⟨a, mid, hfirst, hsecond⟩ := runs_bind.mp hrun
  exact (hf a mid (hx.result a mid hfirst)).result b s' hsecond

theorem yields_after {Q : β → σ → Prop} {x : Program ε σ α} {f : α → Program ε σ β} {mid : σ}
    (hx : Runs x s a mid) (hf : Yields E (f a) mid Q) : Yields E (x >>= f) s Q := by
  refine ⟨fun e he => hf.fails e ?_, fun b s' hrun => hf.result b s' ((runs_bind_iff hx).mp hrun)⟩
  rwa [bind_of_runs hx] at he

theorem yields_ite {p : Prop} [Decidable p] {x y : Program ε σ α} (hx : p → Yields E x s Q)
    (hy : ¬ p → Yields E y s Q) : Yields E (if p then x else y) s Q := by
  split
  · rename_i h
    exact hx h
  · rename_i h
    exact hy h

end Yields

end Oxidalloc.Programs
