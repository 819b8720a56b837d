import Oxidalloc.FreeSpace

/-!
The statics of `get_va_from_kernel` along the calls of a `VaBitmap`. Only the search for a
reservation writes them. Every size that it asks the kernel for is a power of two from 4 GiB
to 256 TiB, and so is the largest size that was ever granted.
-/
namespace Oxidalloc.VaBitmap

open Interleaving KernelVa Programs

/-- The statics, and what no program changes. -/
def settings (va : VaBitmap) : Statics × ℕ × (ℕ → ℕ) := (va.statics, va.maxReservation, va.sys)

/-- The settings and the pointers of the list. -/
def outline (va : VaBitmap) : (Statics × ℕ × (ℕ → ℕ)) × List ℕ :=
  (settings va, va.segments.map (·.ptr))

theorem settings_of_outline {α : Type} {x : VaM α} (h : Fixes outline x) : Fixes settings x :=
  fun va a va' hrun => congrArg Prod.fst (h va a va' hrun)

section Settings

theorem draw_outline : Fixes outline draw := by
  intro va answer va' h
  simp only [draw, runs_get_bind, runs_set_bind, runs_pure] at h
  rw [h.2]
  rfl

theorem draw_fixes : Fixes settings draw := settings_of_outline draw_outline

theorem mmapMemory_fixes (len : ℕ) : Fixes settings (mmapMemory len) :=
  fixes_bind draw_fixes fun _ => fixes_pure

theorem mmapSegment_fixes : Fixes settings mmapSegment := by
  refine fixes_bind (mmapMemory_fixes 64) fun answer => ?_
  cases answer with
  | none => exact fixes_pure
  | some ptr => exact fixes_get_bind fun _ => fixes_pure

theorem mapRadixTable_fixes (len : ℕ) : Fixes settings (mapRadixTable len) := by
  refine fixes_bind (mmapMemory_fixes len) fun answer => ?_
  cases answer with
  | none => exact fixes_throw
  | some ptr => exact fixes_pure

theorem initRadix_fixes : Fixes settings initRadix := by
  refine fixes_get_bind fun va => ?_
  split
  · exact fixes_pure
  · exact fixes_bind (mapRadixTable_fixes _) fun _ => fixes_modify fun _ => rfl

theorem setRadix_fixes (chunkIdx seg : ℕ) : Fixes settings (setRadix chunkIdx seg) := by
  refine fixes_get_bind fun va => ?_
  split
  · exact fixes_throw
  · refine fixes_ite (fixes_bind (mapRadixTable_fixes _) fun _ => ?_) ?_
    · exact fixes_modify fun _ => rfl
    · exact fixes_modify fun _ => rfl

theorem setRange_fixes (start seg n : ℕ) : Fixes settings (setRange start seg n) := by
  induction n with
  | zero => exact fixes_pure
  | succ n ih => exact fixes_bind ih fun _ => setRadix_fixes _ _

theorem growWith_fixes (userVa endVa totalSize : ℕ) :
    Fixes settings (growWith userVa endVa totalSize) := by
  refine fixes_get_bind fun va => ?_
  split
  · exact fixes_throw
  refine fixes_ite fixes_pure (fixes_bind (mmapMemory_fixes _) fun mapRaw => ?_)
  cases mapRaw with
  | none => exact fixes_pure
  | some mapRaw =>
    refine fixes_bind (mmapMemory_fixes _) fun claimRaw => ?_
    cases claimRaw with
    | none => exact fixes_pure
    | some claimRaw =>
      refine fixes_bind mmapSegment_fixes fun segRaw => ?_
      cases segRaw with
      | none => exact fixes_pure
      | some ptr =>
        refine fixes_bind (setRange_fixes _ _ _) fun _ => ?_
        exact fixes_bind (fixes_modify fun _ => rfl) fun _ => fixes_pure

theorem putSegment_outline (va : VaBitmap) (s : Segment) : outline (va.putSegment s) = outline va :=
  congrArg (Prod.mk (settings va)) (putSegment_ptrs va s)

theorem allocIn_outline (ptr needed : ℕ) : Fixes outline (allocIn ptr needed) := by
  refine fixes_get_bind fun va => ?_
  split
  · exact fixes_throw
  · refine fixes_bind draw_outline fun _ =>
      fixes_bind (fixes_modify fun va => ?_) fun _ => fixes_pure
    exact putSegment_outline va _

theorem allocHinted_outline (needed : ℕ) : Fixes outline (allocHinted needed) :=
  fixes_get_bind fun _ => fixes_ite fixes_pure (allocIn_outline _ _)

theorem isFull_outline (ptr : ℕ) : Fixes outline (isFull ptr) := by
  intro va full va' h
  rw [isFull_quiet h]

theorem noteFailure_outline (ptr : ℕ) : Fixes outline (noteFailure ptr) := by
  intro va u va' h
  rw [noteFailure, runs_get_bind] at h
  split at h
  · exact absurd h runs_throw
  · rw [runs_set.mp h]
    exact putSegment_outline va _

/-- The walk changes the latest segment if it succeeds, but not the list. -/
theorem allocWalk_outline (needed : ℕ) (ptrs : List ℕ) : Fixes outline (allocWalk needed ptrs) := by
  induction ptrs with
  | nil => exact fixes_pure
  | cons ptr rest ih =>
    refine fixes_bind (isFull_outline ptr) fun full => fixes_ite ih ?_
    refine fixes_bind (allocIn_outline ptr needed) fun found => ?_
    cases found with
    | some addr => exact fixes_bind (fixes_modify fun _ => rfl) fun _ => fixes_pure
    | none => exact fixes_bind (noteFailure_outline ptr) fun _ => ih

theorem free_outline (addr size : ℕ) : Fixes outline (free addr size) := by
  refine fixes_ite fixes_pure (fixes_get_bind fun va => fixes_bind fixes_attempt fun found => ?_)
  cases found with
  | none => exact fixes_pure
  | some s => exact fixes_bind fixes_attempt fun _ => fixes_modify fun va => putSegment_outline va _

theorem reallocInplace_outline (addr oldSize newSize : ℕ) :
    Fixes outline (reallocInplace addr oldSize newSize) := by
  refine fixes_get_bind fun va => fixes_bind fixes_attempt fun found => ?_
  cases found with
  | none => exact fixes_pure
  | some s =>
    refine fixes_bind fixes_attempt fun _ =>
      fixes_bind (fixes_modify fun va => ?_) fun _ => fixes_pure
    exact putSegment_outline va _

theorem mmapReserve_fixes (size : ℕ) : Fixes settings (mmapReserve size) := by
  intro va r va' h
  rw [mmapReserve, runs_bind] at h
  obtain ⟨answer, va₁, hdraw, h⟩ := h
  rw [runs_get_bind] at h
  refine Eq.trans ?_ (draw_fixes va answer va₁ hdraw)
  split at h
  · simp only [runs_set_bind, runs_pure] at h
    rw [h.2]
    rfl
  · rw [(runs_pure.mp h).2]

theorem getrandom_fixes : Fixes settings getrandom :=
  fixes_bind draw_fixes fun _ => fixes_ite fixes_throw draw_fixes

end Settings

/-- The sizes that are asked for: the powers of two from 4 GiB to 256 TiB. -/
def Asked (size : ℕ) : Prop := ∃ k, 32 ≤ k ∧ k ≤ 48 ∧ size = 2 ^ k

/-- The bounds of the search. -/
structure Sized (va : VaBitmap) : Prop where
  largest : Asked va.maxReservation
  latest : va.statics.latestTried = 0 ∨ Asked va.statics.latestTried

section Search

variable {va va' : VaBitmap} {size fuel : ℕ}

theorem asked_minReserve : Asked minReserve := ⟨32, by decide, by decide, rfl⟩

theorem Asked.half (h : Asked size) (hmin : ¬ size ≤ minReserve) : Asked (size / 2) := by
  obtain ⟨k, hlo, hhi, rfl⟩ := h
  have hne : k ≠ 32 := by
    rintro rfl
    exact hmin le_rfl
  refine ⟨k - 1, by omega, by omega, ?_⟩
  conv_lhs => rw [show k = k - 1 + 1 by omega, Nat.pow_succ]
  exact Nat.mul_div_cancel _ Nat.two_pos

theorem Asked.minReserve_le (h : Asked size) : minReserve ≤ size := by
  obtain ⟨k, hlo, _, rfl⟩ := h
  exact Nat.pow_le_pow_right Nat.two_pos hlo

theorem Asked.le (h : Asked size) : size ≤ 2 ^ 48 := by
  obtain ⟨k, _, hhi, rfl⟩ := h
  exact Nat.pow_le_pow_right Nat.two_pos hhi

theorem asked_max {other : ℕ} (h : Asked size) (h' : other = 0 ∨ Asked other) :
    Asked (max other size) := by
  rcases Nat.le_total other size with hle | hle
  · rwa [Nat.max_eq_right hle]
  · rw [Nat.max_eq_left hle]
    refine h'.resolve_left fun hzero => ?_
    have hpos := h.minReserve_le
    unfold minReserve chunkSize at hpos
    omega

theorem Sized.of_settings (h : Sized va) (heq : settings va' = settings va) : Sized va' := by
  obtain ⟨hstatics, hmax, _⟩ := Prod.mk.inj heq |>.imp id Prod.mk.inj
  exact ⟨hmax ▸ h.largest, hstatics ▸ h.latest⟩

theorem addToBaseHint_eq {u : Unit} (h : Runs (addToBaseHint size) va u va') :
    va.statics.baseHint + size < usizeBound ∧
      va' = { va with statics := { va.statics with baseHint := va.statics.baseHint + size } } := by
  rw [addToBaseHint, runs_get_bind] at h
  split at h
  · exact absurd h runs_throw
  · exact ⟨by omega, runs_modify.mp h⟩

theorem probeLoop_sized {r : ℕ × ℕ × ℕ} (hsize : Asked size) (h : Sized va)
    (hrun : Runs (probeLoop fuel size) va r va') : Sized va' ∧ (r.1 ≠ 0 → Asked r.2.2) := by
  induction fuel generalizing size va with
  | zero => exact absurd hrun runs_throw
  | succ fuel ih =>
    rw [probeLoop, runs_bind] at hrun
    obtain ⟨answer, va₁, hreserve, hrun⟩ := hrun
    have hsized := h.of_settings (mmapReserve_fixes size va answer va₁ hreserve)
    cases answer with
    | some base =>
      rw [runs_get_bind, runs_bind] at hrun
      obtain ⟨_, va₂, hlatest, hrun⟩ := hrun
      have hmax : Sized va₂ := by
        rw [runs_modify.mp hlatest]
        exact ⟨hsized.largest, Or.inr (asked_max hsize hsized.latest)⟩
      split at hrun
      · rw [runs_bind] at hrun
        obtain ⟨_, va₃, hhint, hrun⟩ := hrun
        obtain ⟨rfl, rfl⟩ := runs_pure.mp hrun
        rw [(addToBaseHint_eq hhint).2]
        exact ⟨⟨hmax.largest, hmax.latest⟩, fun _ => hsize⟩
      · simp only [runs_modify_bind, runs_pure] at hrun
        rw [hrun.1, hrun.2]
        exact ⟨⟨hmax.largest, hmax.latest⟩, fun _ => hsize⟩
    | none =>
      rw [runs_get_bind] at hrun
      split at hrun
      · exact absurd hrun runs_throw
      · split at hrun
        · rw [runs_bind] at hrun
          obtain ⟨_, va₂, hinit, hrun⟩ := hrun
          obtain ⟨rfl, rfl⟩ := runs_pure.mp hrun
          rw [runs_modify.mp hinit]
          exact ⟨⟨hsized.largest, hsized.latest⟩, fun hne => absurd rfl hne⟩
        · rename_i hmin
          rw [runs_bind] at hrun
          obtain ⟨_, va₂, hhint, hrun⟩ := hrun
          refine ih (hsize.half hmin) ?_ hrun
          rw [(addToBaseHint_eq hhint).2]
          exact ⟨hsized.largest, hsized.latest⟩

theorem randomizeBaseHint_sized {u : Unit} (h : Sized va) (hrun : Runs randomizeBaseHint va u va') :
    Sized va' := by
  rw [randomizeBaseHint, runs_get_bind] at hrun
  split at hrun
  · rwa [(runs_pure.mp hrun).2]
  · rw [runs_bind] at hrun
    obtain ⟨rand, va₁, hrand, hrun⟩ := hrun
    obtain ⟨offset, _, hrun⟩ := runs_attempt_bind.mp hrun
    have hsized := h.of_settings (getrandom_fixes va rand va₁ hrand)
    rw [runs_modify.mp hrun]
    exact ⟨hsized.largest, h.latest⟩

/-- The first size of a search. -/
def firstSize (va : VaBitmap) : ℕ :=
  max (if 3 < va.statics.reserve then va.statics.latestTried else va.maxReservation) minReserve

theorem Sized.firstSize (h : Sized va) : Asked va.firstSize := by
  refine asked_max asked_minReserve ?_
  split
  · exact h.latest
  · exact Or.inr h.largest

/-- A search is `randomize_base_hint` and the loop, from the first size on. -/
theorem getVaFromKernel_cases {r : ℕ × ℕ × ℕ} (hrun : Runs getVaFromKernel va r va') :
    ∃ va₁ va₂, Runs randomizeBaseHint va () va₁ ∧
      (va₂ = va₁ ∨ va₂ = { va₁ with
        statics := { va₁.statics with reserve := va₁.statics.reserve + 1 } }) ∧
      Runs (probeLoop 64 va₁.firstSize) va₂ r va' := by
  rw [getVaFromKernel, runs_bind] at hrun
  obtain ⟨u, va₁, hrandom, hrun⟩ := hrun
  refine ⟨va₁, ?_⟩
  rw [runs_get_bind] at hrun
  unfold VaBitmap.firstSize
  split at hrun
  · rename_i hreserve
    rw [if_pos hreserve]
    exact ⟨va₁, hrandom, Or.inl rfl, hrun⟩
  · rename_i hreserve
    rw [runs_bind] at hrun
    obtain ⟨_, va₂, hcount, hrun⟩ := hrun
    rw [if_neg hreserve]
    exact ⟨va₂, hrandom, Or.inr (runs_modify.mp hcount), hrun⟩

theorem getVaFromKernel_sized {r : ℕ × ℕ × ℕ} (h : Sized va)
    (hrun : Runs getVaFromKernel va r va') :
    Sized va' ∧ (r.1 ≠ 0 → Asked r.2.2) := by
  obtain ⟨va₁, va₂, hrandom, hcount, hprobe⟩ := getVaFromKernel_cases hrun
  have hsized := randomizeBaseHint_sized h hrandom
  refine probeLoop_sized hsized.firstSize ?_ hprobe
  rcases hcount with rfl | rfl
  · exact hsized
  · exact ⟨hsized.largest, hsized.latest⟩

end Search

section Calls

variable {P : VaBitmap → Prop}

theorem growRetry_preserves (hgrow : Preserves P grow) (n : ℕ) : Preserves P (growRetry n) := by
  induction n with
  | zero => exact preserves_pure
  | succ n ih =>
    refine preserves_bind hgrow fun found => ?_
    cases found with
    | some ptr => exact preserves_pure
    | none => exact ih

variable (hkept : ∀ va va', P va → outline va' = outline va → P va')

include hkept

theorem growFirst_preserves (hgrow : Preserves P grow) : Preserves P growFirst := by
  refine preserves_get_bind fun va => preserves_ite (preserves_bind hgrow fun found => ?_)
    preserves_pure
  cases found with
  | some ptr => exact preserves_modify fun va h => hkept va _ h rfl
  | none => exact preserves_throw

theorem allocGrown_preserves (hgrow : Preserves P grow) (needed : ℕ) :
    Preserves P (allocGrown needed) := by
  refine preserves_bind (growRetry_preserves hgrow 10) fun found => ?_
  cases found with
  | none => exact preserves_pure
  | some ptr =>
    refine preserves_bind (preserves_modify fun va h => hkept va _ h rfl) fun _ => ?_
    exact (allocIn_outline ptr needed).preserves hkept

/-- What depends on the outline only and is kept by `grow` is kept by `alloc`. -/
theorem alloc_preserves (hgrow : Preserves P grow) (size : ℕ) : Preserves P (alloc size) := by
  refine preserves_ite preserves_pure (preserves_bind preserves_attempt fun needed => ?_)
  refine preserves_bind ((allocHinted_outline needed).preserves hkept) fun hinted => ?_
  cases hinted with
  | some addr => exact preserves_pure
  | none =>
    refine preserves_bind (growFirst_preserves hkept hgrow) fun _ => preserves_get_bind fun va => ?_
    refine preserves_bind ((allocWalk_outline needed _).preserves hkept) fun walked => ?_
    cases walked with
    | some addr => exact preserves_pure
    | none => exact allocGrown_preserves hkept hgrow needed

theorem step_preserves (hgrow : Preserves P grow) {sys sys' : System} {op : Op} (h : P sys.va)
    (hstep : step sys op = some sys') : P sys'.va := by
  rcases step_cases hstep with ⟨size, r, hrun⟩ | ⟨addr, size, u, hrun⟩ | ⟨addr, old, new, r, hrun⟩
  · exact alloc_preserves hkept hgrow size _ _ _ h hrun
  · exact (free_outline addr size).preserves hkept _ _ _ h hrun
  · exact (reallocInplace_outline addr old new).preserves hkept _ _ _ h hrun

theorem run_preserves (hgrow : Preserves P grow) {sys sys' : System} {ops : List Op} (h : P sys.va)
    (hrun : run step sys ops = some sys') : P sys'.va :=
  @run_invariant _ _ step (fun _ _ => True) (fun sys => P sys.va)
    (fun _ _ _ h _ hstep => step_preserves hkept hgrow h hstep) _ _ _ h (guarded_trivial _) hrun

end Calls

section Sizes

theorem Sized.of_outline {va va' : VaBitmap} (h : Sized va) (heq : outline va' = outline va) :
    Sized va' :=
  h.of_settings (congrArg Prod.fst heq)

theorem grow_sized : Preserves Sized grow := by
  have hkept : ∀ va va' : VaBitmap, Sized va → settings va' = settings va → Sized va' :=
    fun _ _ h heq => h.of_settings heq
  refine preserves_bind (initRadix_fixes.preserves hkept) fun _ => preserves_bind ?_ fun res => ?_
  · exact fun va r va' h hrun => (getVaFromKernel_sized h hrun).1
  · exact (growWith_fixes _ _ _).preserves hkept

theorem run_sized {maxReservation : ℕ} {answers : ℕ → ℕ} {ops : List Op} {sys : System}
    (hmax : Asked maxReservation)
    (hrun : run step ⟨new maxReservation answers, []⟩ ops = some sys) : Sized sys.va :=
  run_preserves (fun _ _ h heq => h.of_outline heq) grow_sized ⟨hmax, Or.inl rfl⟩ hrun

end Sizes

end Oxidalloc.VaBitmap
