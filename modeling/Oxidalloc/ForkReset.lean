import Oxidalloc.Interleaving
import Oxidalloc.SizeClasses

/-!
The spin locks and `Once` cells of the process across a fork. Threads enter and leave
the sections that these guard, in any order and nesting; a thread that finds a guard
taken spins until it is free. After a fork only the forking thread exists in the child,
and `fork_child` sets the guards of its hand-written list back to free. A guard that is
not in the list stays as it was, and its owner is gone.
-/
namespace Oxidalloc.ForkReset

open Interleaving Function

/-- The process-wide `SerialLock`s; the locks of the `ICC`, one for every CPU and class,
are in the hardened build only. -/
inductive Lock where
  | vaMap
  | bigAllocMap
  | icc (cpu cls : ℕ)
  deriving DecidableEq, Repr

/-- The process-wide `Once` cells: `ONCE` of the bootstrap, `ONCE` and `ONCE_PROTECTION` of
the bitmap, `ICC.once`, and those of `get_size_4096_class`, `get_clock` and the fallbacks. -/
inductive OnceCell where
  | bootstrap
  | vaMap
  | vaProtection
  | icc
  | class4096
  | globalStamp
  | freeInit
  | reallocInit
  | musInit
  deriving DecidableEq, Repr

/-- What a thread can be inside of. `grow` unlocks by hand and then drops its guard, which
unlocks again. -/
inductive Section where
  | locked (l : Lock)
  | guarded (l : Lock)
  | initialising (o : OnceCell)
  deriving DecidableEq, Repr

/-- The states of a `Once` are 0, then 1 while its initialiser runs, then 2. -/
structure State (n : ℕ) where
  locks : Lock → Bool
  onces : OnceCell → ℕ
  ncpu : ℕ
  inside : Fin n → List Section

variable {n : ℕ}

def State.setLock (s : State n) (l : Lock) (held : Bool) : State n :=
  { s with locks := update s.locks l held }

def State.setOnce (s : State n) (o : OnceCell) (state : ℕ) : State n :=
  { s with onces := update s.onces o state }

def State.goto (s : State n) (t : Fin n) (sections : List Section) : State n :=
  { s with inside := update s.inside t sections }

section Reset

/-- `SerialLock::reset_on_fork` -/
def State.resetLock (s : State n) (l : Lock) : State n := s.setLock l false

/-- `Once::reset_at_fork` is an exchange of 1 for 0. -/
def State.resetOnce (s : State n) (o : OnceCell) : State n :=
  if s.onces o = 1 then s.setOnce o 0 else s

/-- `ICC.reset_on_fork`; there are no locks before the cache is made. -/
def State.resetGlobalLocks (s : State n) : State n :=
  { s with
    locks := fun l =>
      match l with
      | .icc cpu cls =>
        if cpu < s.ncpu ∧ cls < numSizeClasses then false else s.locks (.icc cpu cls)
      | l => s.locks l }

def State.forkChild (s : State n) (hardened : Bool) : State n :=
  let s := s.resetLock .vaMap
  let s := (s.resetOnce .vaMap).resetOnce .vaProtection
  let s := if hardened then s.resetGlobalLocks else s
  let s := s.resetOnce .class4096
  let s := s.resetOnce .globalStamp
  let s := ((s.resetOnce .freeInit).resetOnce .reallocInit).resetOnce .musInit
  s.resetOnce .bootstrap

/-- The threads other than the forking one are not in the child. -/
def State.alone (s : State n) (t : Fin n) : State n :=
  { s with inside := fun u => if u = t then s.inside t else [] }

end Reset

inductive Action (n : ℕ) where
  | lock (t : Fin n) (l : Lock)
  | unlock (t : Fin n)
  | callOnce (t : Fin n) (o : OnceCell)
  | finish (t : Fin n)
  | fork (t : Fin n)
  deriving DecidableEq, Repr

/-- The build, and the number of CPUs that `ensure_cache` finds. -/
structure Build where
  hardened : Bool
  cpus : ℕ

/-- The locks that exist: those of the `ICC` once it is made. The CPU number is not
checked against the number of CPUs. -/
def Exists (b : Build) (s : State n) : Lock → Bool
  | .icc _ cls => b.hardened && decide (0 < s.ncpu) && decide (cls < numSizeClasses)
  | _ => true

def unlock (s : State n) (t : Fin n) : Option (State n) :=
  match s.inside t with
  | .locked .vaMap :: rest => some ((s.setLock .vaMap false).goto t (.guarded .vaMap :: rest))
  | .locked l :: rest => some ((s.setLock l false).goto t rest)
  | .guarded l :: rest => some ((s.setLock l false).goto t rest)
  | _ => none

/-- The initialiser of `ICC.once` makes the tables for all CPUs. -/
def finish (b : Build) (s : State n) (t : Fin n) : Option (State n) :=
  match s.inside t with
  | .initialising o :: rest =>
    let s := if o = .icc then { s with ncpu := b.cpus } else s
    some ((s.setOnce o 2).goto t rest)
  | _ => none

/-- One action of one thread. An action that would spin is not enabled. -/
def step (b : Build) (s : State n) : Action n → Option (State n)
  | .lock t l =>
    if Exists b s l = true ∧ s.locks l = false then
      some ((s.setLock l true).goto t (.locked l :: s.inside t))
    else none
  | .unlock t => unlock s t
  | .callOnce t o =>
    if s.onces o = 2 then some s
    else if s.onces o = 0 then some ((s.setOnce o 1).goto t (.initialising o :: s.inside t))
    else none
  | .finish t => finish b s t
  | .fork t => if s.inside t = [] then some ((s.alone t).forkChild b.hardened) else none

def initial : State n := ⟨fun _ => false, fun _ => 0, 0, fun _ => []⟩

/-- No lock is taken and no initialiser is running. -/
structure Released (s : State n) : Prop where
  locks : ∀ l, s.locks l = false
  onces : ∀ o, s.onces o ≠ 1

/-- Whatever is taken is taken by the thread itself. -/
structure OwnGuards (s : State n) (t : Fin n) : Prop where
  locks : ∀ l, s.locks l = true → .locked l ∈ s.inside t
  onces : ∀ o, s.onces o = 1 → .initialising o ∈ s.inside t

/-- What no other thread may be inside of at a fork: the lock of the map of big
allocations, the initialiser of the `ICC`, and the locks of its CPUs beyond the last. -/
def Missed (ncpu : ℕ) : Section → Bool
  | .locked .bigAllocMap => true
  | .locked (.icc cpu _) => decide (ncpu ≤ cpu)
  | .initialising .icc => true
  | _ => false

def ForkSafe (s : State n) : Action n → Prop
  | .fork _ => ∀ u, ∀ x ∈ s.inside u, Missed s.ncpu x = false
  | _ => True

instance ForkSafe.decidable (s : State n) : ∀ a, Decidable (ForkSafe s a)
  | .fork _ => inferInstanceAs (Decidable (∀ u, ∀ x ∈ s.inside u, Missed s.ncpu x = false))
  | .lock .. | .unlock .. | .callOnce .. | .finish .. => isTrue trivial

section Child

variable {s : State n}

theorem resetOnce_onces (o o' : OnceCell) :
    (s.resetOnce o).onces o' = 1 ↔ s.onces o' = 1 ∧ o' ≠ o := by
  unfold State.resetOnce
  by_cases ho : o' = o
  · subst ho
    split
    · rename_i hrunning
      show update s.onces o' 0 o' = 1 ↔ _
      rw [update_self]
      exact ⟨nofun, fun h => absurd rfl h.2⟩
    · rename_i hidle
      exact ⟨fun h => absurd h hidle, fun h => absurd rfl h.2⟩
  · split
    · show update s.onces o 0 o' = 1 ↔ _
      rw [update_of_ne ho]
      exact ⟨fun h => ⟨h, ho⟩, fun h => h.1⟩
    · exact ⟨fun h => ⟨h, ho⟩, fun h => h.1⟩

theorem resetOnce_locks (o : OnceCell) (l : Lock) : (s.resetOnce o).locks l = s.locks l := by
  unfold State.resetOnce
  split <;> rfl

theorem resetOnce_inside (o : OnceCell) (t : Fin n) : (s.resetOnce o).inside t = s.inside t := by
  unfold State.resetOnce
  split <;> rfl

theorem resetOnce_ncpu (o : OnceCell) : (s.resetOnce o).ncpu = s.ncpu := by
  unfold State.resetOnce
  split <;> rfl

/-- The only cell that `fork_child` misses is that of the `ICC`. -/
theorem forkChild_onces {hardened : Bool} {o : OnceCell} (h : (s.forkChild hardened).onces o = 1) :
    s.onces o = 1 ∧ o = .icc := by
  have hglobal : ∀ s' : State n,
      (if hardened then s'.resetGlobalLocks else s').onces = s'.onces := by
    intro s'
    split <;> rfl
  simp only [State.forkChild, resetOnce_onces, hglobal, State.resetLock, State.setLock] at h
  obtain ⟨⟨⟨⟨⟨⟨⟨⟨hs, hva⟩, hprotection⟩, hclass⟩, hstamp⟩, hfree⟩, hrealloc⟩, hmus⟩, hboot⟩ := h
  refine ⟨hs, ?_⟩
  cases o <;> simp_all

/-- The locks that `fork_child` misses. -/
theorem forkChild_locks {hardened : Bool} {l : Lock} (h : (s.forkChild hardened).locks l = true) :
    s.locks l = true ∧ (l = .bigAllocMap ∨ ∃ cpu cls, l = .icc cpu cls ∧
      ¬ (hardened = true ∧ cpu < s.ncpu ∧ cls < numSizeClasses)) := by
  have hva : ∀ l, (s.resetLock .vaMap).locks l = true → s.locks l = true ∧ l ≠ .vaMap := by
    intro l hl
    have hl : update s.locks .vaMap false l = true := hl
    by_cases hl' : l = .vaMap
    · rw [hl', update_self] at hl
      contradiction
    · rw [update_of_ne hl'] at hl
      exact ⟨hl, hl'⟩
  unfold State.forkChild at h
  simp only [resetOnce_locks] at h
  cases hardened with
  | false =>
    simp only [Bool.false_eq_true, if_false, resetOnce_locks] at h
    obtain ⟨hs, hne⟩ := hva l h
    refine ⟨hs, ?_⟩
    cases l with
    | vaMap => exact absurd rfl hne
    | bigAllocMap => exact Or.inl rfl
    | icc cpu cls => exact Or.inr ⟨cpu, cls, rfl, fun hreset => absurd hreset.1 nofun⟩
  | true =>
    simp only [if_true, State.resetGlobalLocks, resetOnce_ncpu, resetOnce_locks] at h
    cases l with
    | vaMap => exact absurd rfl (hva _ h).2
    | bigAllocMap => exact ⟨(hva _ h).1, Or.inl rfl⟩
    | icc cpu cls =>
      dsimp only at h
      split at h
      · contradiction
      · rename_i hout
        exact ⟨(hva _ h).1, Or.inr ⟨cpu, cls, rfl, fun hreset => hout hreset.2⟩⟩

theorem forkChild_inside {hardened : Bool} (t : Fin n) :
    (s.forkChild hardened).inside t = s.inside t := by
  have hglobal : ∀ s' : State n,
      (if hardened then s'.resetGlobalLocks else s').inside t = s'.inside t := by
    intro s'
    split <;> rfl
  simp only [State.forkChild, resetOnce_inside, hglobal]
  rfl

end Child

section Invariant

/-- A guard that is taken is taken by a thread that is inside its section. -/
structure Owned (b : Build) (s : State n) : Prop where
  locks : ∀ l, s.locks l = true → ∃ t, .locked l ∈ s.inside t
  onces : ∀ o, s.onces o = 1 → ∃ t, .initialising o ∈ s.inside t
  iccs : ∀ t cpu cls, .locked (.icc cpu cls) ∈ s.inside t →
    b.hardened = true ∧ cls < numSizeClasses

theorem owned_initial (b : Build) : Owned b (initial : State n) := ⟨nofun, nofun, nofun⟩

variable {b : Build} {s s' : State n} {t : Fin n}

theorem mem_goto {x : Section} {sections : List Section} {u : Fin n} :
    x ∈ (s.goto t sections).inside u ↔ if u = t then x ∈ sections else x ∈ s.inside u := by
  show x ∈ update s.inside t sections u ↔ _
  rw [update_apply]
  split <;> rfl

/-- A thread that enters or leaves a section. The guards that become taken are those of
sections that it enters, and the sections that it leaves have their guards freed. -/
theorem Owned.goto {locks : Lock → Bool} {onces : OnceCell → ℕ} {ncpu : ℕ}
    {sections : List Section} (h : Owned b s)
    (hlocks : ∀ l, locks l = true → .locked l ∈ sections ∨
      s.locks l = true ∧ (.locked l ∈ s.inside t → .locked l ∈ sections))
    (honces : ∀ o, onces o = 1 → .initialising o ∈ sections ∨
      s.onces o = 1 ∧ (.initialising o ∈ s.inside t → .initialising o ∈ sections))
    (hiccs : ∀ cpu cls, .locked (.icc cpu cls) ∈ sections →
      .locked (.icc cpu cls) ∈ s.inside t ∨ b.hardened = true ∧ cls < numSizeClasses) :
    Owned b { s with
      locks := locks, onces := onces, ncpu := ncpu,
      inside := update s.inside t sections } := by
  have hmem : ∀ {x : Section}, x ∈ sections ∨
      (∃ u, x ∈ s.inside u) ∧ (x ∈ s.inside t → x ∈ sections) →
      ∃ u, x ∈ update s.inside t sections u := by
    intro x hx
    rcases hx with hx | ⟨⟨u, hu⟩, hkeep⟩
    · exact ⟨t, mem_goto.mpr (by rwa [if_pos rfl])⟩
    · by_cases hut : u = t
      · exact ⟨t, mem_goto.mpr (by rw [if_pos rfl]; exact hkeep (hut ▸ hu))⟩
      · exact ⟨u, mem_goto.mpr (by rwa [if_neg hut])⟩
  refine ⟨fun l hl => ?_, fun o ho => ?_, fun u cpu cls hu => ?_⟩
  · exact hmem ((hlocks l hl).imp_right fun hold => ⟨h.locks l hold.1, hold.2⟩)
  · exact hmem ((honces o ho).imp_right fun hold => ⟨h.onces o hold.1, hold.2⟩)
  · have hu := mem_goto.mp hu
    split at hu
    · exact (hiccs cpu cls hu).elim (h.iccs t cpu cls) id
    · exact h.iccs u cpu cls hu

theorem lock_preserves {l : Lock} (h : Owned b s) (hexists : Exists b s l = true) :
    Owned b ((s.setLock l true).goto t (.locked l :: s.inside t)) := by
  refine h.goto (fun l' hl' => ?_) (fun o ho => Or.inr ⟨ho, List.mem_cons_of_mem _⟩)
    fun cpu cls hmem => ?_
  · by_cases hl : l' = l
    · rw [hl]
      exact Or.inl List.mem_cons_self
    · have hl' : update s.locks l true l' = true := hl'
      rw [update_of_ne hl] at hl'
      exact Or.inr ⟨hl', List.mem_cons_of_mem _⟩
  · rcases List.mem_cons.mp hmem with heq | hold
    · have hl : l = .icc cpu cls := (Section.locked.inj heq).symm
      rw [hl] at hexists
      simp only [Exists, Bool.and_eq_true, decide_eq_true_eq] at hexists
      exact Or.inr ⟨hexists.1.1, hexists.2⟩
    · exact Or.inl hold

/-- The top section of a thread is left and its lock is freed. -/
theorem Owned.free {l : Lock} {top : Section} {sections rest : List Section} (h : Owned b s)
    (htop : s.inside t = top :: rest) (hl : top = .locked l ∨ top = .guarded l)
    (hsections : ∀ x, x ∈ sections → x ∈ rest ∨ ∃ l, x = .guarded l)
    (hrest : ∀ x ∈ rest, x ∈ sections) : Owned b ((s.setLock l false).goto t sections) := by
  have hkeep : ∀ x, x ≠ .locked l → x ≠ .guarded l → x ∈ s.inside t → x ∈ sections := by
    intro x hlocked hguarded hx
    rw [htop] at hx
    rcases List.mem_cons.mp hx with heq | hx
    · rw [heq] at hlocked hguarded
      exact (hl.elim hlocked hguarded).elim
    · exact hrest x hx
  refine h.goto (fun l' hl' => ?_) (fun o ho => Or.inr ⟨ho, hkeep _ nofun nofun⟩)
    fun cpu cls hmem => ?_
  · have hl' : update s.locks l false l' = true := hl'
    by_cases heq : l' = l
    · rw [heq, update_self] at hl'
      contradiction
    · rw [update_of_ne heq] at hl'
      exact Or.inr ⟨hl', hkeep _ (fun h => heq (Section.locked.inj h)) nofun⟩
  · rcases hsections _ hmem with hx | ⟨l', hx⟩
    · rw [htop]
      exact Or.inl (List.mem_cons_of_mem _ hx)
    · contradiction

theorem unlock_preserves (h : Owned b s) (hstep : unlock s t = some s') : Owned b s' := by
  unfold unlock at hstep
  split at hstep
  · rename_i rest htop
    rw [← Option.some.inj hstep]
    refine h.free htop (Or.inl rfl) (fun x hx => ?_) fun x hx => List.mem_cons_of_mem _ hx
    rcases List.mem_cons.mp hx with heq | hx
    · exact Or.inr ⟨_, heq⟩
    · exact Or.inl hx
  · rename_i l rest _ htop
    rw [← Option.some.inj hstep]
    exact h.free htop (Or.inl rfl) (fun x hx => Or.inl hx) fun x hx => hx
  · rename_i l rest htop
    rw [← Option.some.inj hstep]
    exact h.free htop (Or.inr rfl) (fun x hx => Or.inl hx) fun x hx => hx
  · contradiction

theorem callOnce_preserves {o : OnceCell} (h : Owned b s) :
    Owned b ((s.setOnce o 1).goto t (.initialising o :: s.inside t)) := by
  refine h.goto (fun l hl => Or.inr ⟨hl, List.mem_cons_of_mem _⟩) (fun o' ho' => ?_)
    fun cpu cls hmem => Or.inl ((List.mem_cons.mp hmem).resolve_left nofun)
  by_cases ho : o' = o
  · rw [ho]
    exact Or.inl List.mem_cons_self
  · have ho' : update s.onces o 1 o' = 1 := ho'
    rw [update_of_ne ho] at ho'
    exact Or.inr ⟨ho', List.mem_cons_of_mem _⟩

theorem finish_preserves (h : Owned b s) (hstep : finish b s t = some s') : Owned b s' := by
  unfold finish at hstep
  split at hstep
  · rename_i o rest htop
    have hkeep : ∀ x, x ≠ .initialising o → x ∈ s.inside t → x ∈ rest := by
      intro x hne hx
      rw [htop] at hx
      exact List.mem_of_ne_of_mem hne hx
    have hfinish : ∀ ncpu, Owned b { s with
        onces := update s.onces o 2, ncpu := ncpu,
        inside := update s.inside t rest } := by
      intro ncpu
      refine h.goto (fun l hl => Or.inr ⟨hl, hkeep _ nofun⟩) (fun o' ho' => ?_)
        fun cpu cls hmem => Or.inl (by rw [htop]; exact List.mem_cons_of_mem _ hmem)
      by_cases ho : o' = o
      · rw [ho, update_self] at ho'
        contradiction
      · rw [update_of_ne ho] at ho'
        exact Or.inr ⟨ho', hkeep _ fun heq => ho (Section.initialising.inj heq)⟩
    dsimp only at hstep
    split at hstep
    · rw [← Option.some.inj hstep]
      exact hfinish b.cpus
    · rw [← Option.some.inj hstep]
      exact hfinish s.ncpu
  · contradiction

/-- Every guard that some other thread had taken is in the list of `fork_child`. -/
theorem fork_released (h : Owned b s) (hsafe : ForkSafe s (.fork t)) :
    Released ((s.alone t).forkChild b.hardened) := by
  refine ⟨fun l => ?_, fun o ho => ?_⟩
  · by_contra hheld
    rw [Bool.not_eq_false] at hheld
    obtain ⟨hl, hmissed⟩ := forkChild_locks hheld
    obtain ⟨u, hu⟩ := h.locks l hl
    have hnot := hsafe u _ hu
    rcases hmissed with hbig | ⟨cpu, cls, hicc, hout⟩
    · rw [hbig] at hnot
      contradiction
    · rw [hicc] at hnot hu
      obtain ⟨hhardened, hcls⟩ := h.iccs u cpu cls hu
      have hnot : ¬ s.ncpu ≤ cpu := decide_eq_false_iff_not.mp hnot
      exact hout ⟨hhardened, Nat.lt_of_not_le hnot, hcls⟩
  · obtain ⟨hs, hicc⟩ := forkChild_onces ho
    obtain ⟨u, hu⟩ := h.onces o hs
    have hnot := hsafe u _ hu
    rw [hicc] at hnot
    contradiction

/-- In the child no thread is inside of anything. -/
theorem fork_inside (hempty : s.inside t = []) (u : Fin n) :
    ((s.alone t).forkChild b.hardened).inside u = [] := by
  rw [forkChild_inside]
  show (if u = t then s.inside t else []) = []
  rw [hempty, ite_self]

theorem owned_of_released (h : Released s) (hempty : ∀ u, s.inside u = []) : Owned b s := by
  refine ⟨fun l hl => ?_, fun o ho => absurd ho (h.onces o), fun u cpu cls hu => ?_⟩
  · rw [h.locks l] at hl
    contradiction
  · rw [hempty u] at hu
    contradiction

theorem step_preserves {a : Action n} (h : Owned b s) (hok : ForkSafe s a)
    (hstep : step b s a = some s') : Owned b s' := by
  cases a with
  | lock t l =>
    simp only [step] at hstep
    split at hstep
    · rename_i hfree
      rw [← Option.some.inj hstep]
      exact lock_preserves h hfree.1
    · contradiction
  | unlock t => exact unlock_preserves h hstep
  | callOnce t o =>
    simp only [step] at hstep
    split at hstep
    · rw [← Option.some.inj hstep]
      exact h
    · split at hstep
      · rw [← Option.some.inj hstep]
        exact callOnce_preserves h
      · contradiction
  | finish t => exact finish_preserves h hstep
  | fork t =>
    simp only [step] at hstep
    split at hstep
    · rename_i hempty
      rw [← Option.some.inj hstep]
      exact owned_of_released (fork_released h hok) (fork_inside hempty)
    · contradiction

end Invariant

section Alone

def Action.tid : Action n → Fin n
  | .lock t _ => t
  | .unlock t => t
  | .callOnce t _ => t
  | .finish t => t
  | .fork t => t

variable {b : Build} {s s' : State n} {t : Fin n}

/-- The other threads are inside of nothing. -/
def Alone (s : State n) (t : Fin n) : Prop := ∀ u, u ≠ t → s.inside u = []

theorem goto_alone {sections : List Section} (h : Alone s t) : Alone (s.goto t sections) t := by
  intro u hu
  show update s.inside t sections u = []
  rw [update_of_ne hu]
  exact h u hu

theorem step_alone {a : Action n} (h : Alone s a.tid) (hstep : step b s a = some s') :
    Alone s' a.tid := by
  cases a with
  | lock t l =>
    simp only [step] at hstep
    split at hstep
    · rw [← Option.some.inj hstep]
      exact goto_alone h
    · contradiction
  | unlock t =>
    simp only [step, unlock] at hstep
    split at hstep
    · rw [← Option.some.inj hstep]
      exact goto_alone h
    · rw [← Option.some.inj hstep]
      exact goto_alone h
    · rw [← Option.some.inj hstep]
      exact goto_alone h
    · contradiction
  | callOnce t o =>
    simp only [step] at hstep
    split at hstep
    · rw [← Option.some.inj hstep]
      exact h
    · split at hstep
      · rw [← Option.some.inj hstep]
        exact goto_alone h
      · contradiction
  | finish t =>
    simp only [step, finish] at hstep
    split at hstep
    · split at hstep
      · rw [← Option.some.inj hstep]
        exact goto_alone h
      · rw [← Option.some.inj hstep]
        exact goto_alone h
    · contradiction
  | fork t =>
    simp only [step] at hstep
    split at hstep
    · rename_i hempty
      rw [← Option.some.inj hstep]
      exact fun u _ => fork_inside hempty u
    · contradiction

/-- A thread that is alone can only be inside of what is taken. -/
theorem Alone.forkSafe (h : Alone s t) (hempty : s.inside t = []) : ForkSafe s (.fork t) := by
  intro u x hx
  by_cases hu : u = t
  · rw [hu, hempty] at hx
    contradiction
  · rw [h u hu] at hx
    contradiction

theorem alone_step_preserves {a : Action n} (h : Owned b s ∧ Alone s a.tid)
    (hstep : step b s a = some s') : Owned b s' ∧ Alone s' a.tid := by
  refine ⟨?_, step_alone h.2 hstep⟩
  cases a with
  | fork t =>
    have hempty : s.inside t = [] := by
      simp only [step] at hstep
      split at hstep
      · assumption
      · contradiction
    exact step_preserves h.1 (h.2.forkSafe hempty) hstep
  | lock t l => exact step_preserves (a := .lock t l) h.1 trivial hstep
  | unlock t => exact step_preserves (a := .unlock t) h.1 trivial hstep
  | callOnce t o => exact step_preserves (a := .callOnce t o) h.1 trivial hstep
  | finish t => exact step_preserves (a := .finish t) h.1 trivial hstep

theorem Owned.ownGuards (h : Owned b s) (halone : Alone s t) : OwnGuards s t := by
  have hmine : ∀ {x : Section} {u : Fin n}, x ∈ s.inside u → x ∈ s.inside t := by
    intro x u hx
    by_cases hu : u = t
    · rwa [← hu]
    · rw [halone u hu] at hx
      contradiction
  refine ⟨fun l hl => ?_, fun o ho => ?_⟩
  · obtain ⟨u, hu⟩ := h.locks l hl
    exact hmine hu
  · obtain ⟨u, hu⟩ := h.onces o ho
    exact hmine hu

end Alone

/-- If at every fork the other threads are outside of the sections that `fork_child`
misses, each child starts with all guards free, and its thread never finds a guard taken
other than by itself. -/
theorem fork_leaves_no_stuck_guard (b : Build) (schedule : List (Action n)) (s c : State n)
    (t : Fin n) (hok : Guarded (step b) ForkSafe initial schedule)
    (hrun : run (step b) initial schedule = some s) (hsafe : ForkSafe s (.fork t))
    (hfork : step b s (.fork t) = some c) :
    Released c ∧ ∀ later c', Guarded (step b) (fun _ a => a.tid = t) c later →
      run (step b) c later = some c' → OwnGuards c' t := by
  have howned : Owned b s :=
    @run_invariant _ _ (step b) ForkSafe (Owned b)
      (fun _ _ _ h hok hstep => step_preserves h hok hstep) _ _ _ (owned_initial b) hok hrun
  simp only [step] at hfork
  split at hfork
  · rename_i hempty
    have hreleased := fork_released howned hsafe
    have hinside := fork_inside (b := b) hempty
    rw [Option.some.inj hfork] at hreleased hinside
    refine ⟨hreleased, fun later c' hmine hlater => ?_⟩
    have hend : Owned b c' ∧ Alone c' t :=
      @run_invariant _ _ (step b) (fun _ a => a.tid = t) (fun s => Owned b s ∧ Alone s t)
        (fun _ a _ h htid hstep => htid ▸ alone_step_preserves (htid.symm ▸ h) hstep) _ _ _
        ⟨owned_of_released hreleased hinside, fun u _ => hinside u⟩ hmine hlater
    exact hend.1.ownGuards hend.2
  · contradiction

/-- The second thread makes the first segment: it is in the initialiser of the bitmap and
holds the lock. -/
def growing : List (Action 2) := [.callOnce 1 .vaMap, .lock 1 .vaMap]

theorem fork_leaves_no_stuck_guard_growing :
    ∃ s c, run (step ⟨false, 1⟩) initial growing = some s ∧ s.locks .vaMap = true ∧
      s.onces .vaMap = 1 ∧ step ⟨false, 1⟩ s (.fork 0) = some c ∧ Released c :=
  ⟨_, _, rfl, rfl, rfl, rfl,
    (fork_leaves_no_stuck_guard ⟨false, 1⟩ growing _ _ 0 (by decide) rfl (by decide) rfl).1⟩

/-- The second thread records a big allocation, and the third makes the `ICC`. -/
def recording : List (Action 3) := [.lock 1 .bigAllocMap, .callOnce 2 .icc]

theorem recording_child :
    ((run (step ⟨false, 1⟩) initial recording).bind fun s => step ⟨false, 1⟩ s (.fork 0)).map
      (fun c => (c.locks .bigAllocMap, c.onces .icc)) = some (true, 1) := by
  decide

theorem fork_leaves_stuck_guards :
    ¬ ∀ s c : State 3, Reachable (step ⟨false, 1⟩) initial s →
      step ⟨false, 1⟩ s (.fork 0) = some c → Released c := by
  intro h
  obtain ⟨c, hchild, hc⟩ := Option.map_eq_some_iff.mp recording_child
  obtain ⟨s, hrun, hfork⟩ := Option.bind_eq_some_iff.mp hchild
  have hheld : c.locks .bigAllocMap = true := congrArg Prod.fst hc
  have hreleased := (h s c ⟨recording, hrun⟩ hfork).locks .bigAllocMap
  rw [hheld] at hreleased
  contradiction

end Oxidalloc.ForkReset
