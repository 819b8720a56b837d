import Oxidalloc.VaStatics
import Oxidalloc.World

/-!
A fresh reservation is large enough. `init_reverse` stores a power of two, the search halves
it at most down to 4 GiB, and `LATEST_TRIED` is a size that was granted, so every segment has
at least 4 GiB. An empty segment of that size has a run for every request that `malloc` lets
through, from any start of the search.
-/
namespace Oxidalloc.VaBitmap

open Interleaving KernelVa Programs Segment

/-- The loop of `get_va_from_kernel` without a bound on its rounds. -/
def probe (size : ℕ) : VaM (ℕ × ℕ × ℕ) := do
  match ← mmapReserve size with
  | some output => do
    let va ← get
    setStatics { va.statics with latestTried := max va.statics.latestTried size }
    if va.statics.baseInit then addToBaseHint size
    else modify fun va =>
      { va with statics := { va.statics with baseHint := output, baseInit := true } }
    pure (output, output + size, size)
  | none => do
    let va ← get
    if size ≤ minReserve ∧ va.statics.baseInit = false then
      throw (.abort .vaIinitFailed
        "Init failed during Segment Allocation: No available VA reserve")
    else if hmin : size ≤ minReserve then do
      setStatics { va.statics with baseInit := false }
      pure (0, 0, 0)
    else do
      addToBaseHint size
      probe (size / 2)
termination_by size
decreasing_by
  unfold minReserve chunkSize at hmin
  omega

/-- `get_va_from_kernel` with this loop. -/
def searchVa : VaM (ℕ × ℕ × ℕ) := do
  randomizeBaseHint
  let va ← get
  if 3 < va.statics.reserve then probe (max va.statics.latestTried minReserve)
  else do
    setStatics { va.statics with reserve := va.statics.reserve + 1 }
    probe (max va.maxReservation minReserve)

section Search

variable {va va' : VaBitmap} {size fuel k : ℕ}

theorem asked_pow (k : ℕ) : Asked (min (max (2 ^ k) defaultReservation) (2 ^ 48)) := by
  show Asked (min (max (2 ^ k) (2 ^ 34)) (2 ^ 48))
  rcases Nat.le_total k 34 with hlow | hlow
  · rw [Nat.max_eq_right (Nat.pow_le_pow_right Nat.two_pos hlow)]
    exact ⟨34, by decide, by decide, rfl⟩
  rw [Nat.max_eq_left (Nat.pow_le_pow_right Nat.two_pos hlow)]
  rcases Nat.le_total k 48 with hhigh | hhigh
  · rw [Nat.min_eq_left (Nat.pow_le_pow_right Nat.two_pos hhigh)]
    exact ⟨k, by omega, hhigh, rfl⟩
  · rw [Nat.min_eq_right (Nat.pow_le_pow_right Nat.two_pos hhigh)]
    exact ⟨48, by decide, by decide, rfl⟩

/-- `init_reverse` leaves a size that may be asked for. -/
theorem initReverse_asked {env : Env} {sys : ℕ → ℕ} {w : World} {u : Unit}
    (h : Runs initReverse (World.new env sys) u w) : Asked w.va.maxReservation := by
  rw [initReverse, runs_get_bind] at h
  split at h
  · rw [(runs_pure.mp h).2]
    exact ⟨34, by decide, by decide, rfl⟩
  · rename_i val _
    rw [runs_modify.mp h]
    show Asked (min (max ((checkedNextPowerOfTwo val).getD defaultReservation) defaultReservation)
      (2 ^ 48))
    unfold checkedNextPowerOfTwo
    split
    · exact asked_pow _
    · exact asked_pow 34

/-- One more round is enough if the rest agree. -/
theorem probeLoop_succ
    (h : ¬ size ≤ minReserve → probeLoop fuel (size / 2) = probe (size / 2)) :
    probeLoop (fuel + 1) size = probe size := by
  rw [probeLoop, probe]
  congr 1
  funext answer
  cases answer with
  | some output => rfl
  | none =>
    dsimp only
    congr 1
    funext va
    by_cases hmin : size ≤ minReserve
    · simp only [hmin, true_and, if_true, dif_pos]
    · simp only [hmin, false_and, if_false, dif_neg, not_false_eq_true, h]

theorem pow_le_minReserve : 2 ^ k ≤ minReserve ↔ k ≤ 32 := by
  have hmin : minReserve = 2 ^ 32 := rfl
  rw [hmin, Nat.pow_le_pow_iff_right (by decide)]

/-- The bound on the rounds is never reached. -/
theorem probeLoop_eq (hk : k ≤ fuel + 32) : probeLoop (fuel + 1) (2 ^ k) = probe (2 ^ k) := by
  induction fuel generalizing k with
  | zero =>
    refine probeLoop_succ fun hmin => absurd ?_ hmin
    rw [pow_le_minReserve]
    omega
  | succ fuel ih =>
    refine probeLoop_succ fun hmin => ?_
    rw [pow_le_minReserve] at hmin
    have hhalf : 2 ^ k / 2 = 2 ^ (k - 1) := by
      rw [← Nat.sub_add_cancel (show 1 ≤ k by omega), Nat.pow_succ,
        Nat.mul_div_cancel _ Nat.two_pos,
        Nat.add_sub_cancel]
    rw [hhalf]
    exact ih (by omega)

theorem Asked.probeLoop_eq (h : Asked size) : probeLoop 64 size = probe size := by
  obtain ⟨k, _, hk, rfl⟩ := h
  exact VaBitmap.probeLoop_eq (show k ≤ 63 + 32 by omega)

theorem Sized.getVaFromKernel_eq (h : Sized va) : getVaFromKernel va = searchVa va := by
  cases hrandom : randomizeBaseHint va with
  | error e =>
    show (randomizeBaseHint va).bind _ = (randomizeBaseHint va).bind _
    rw [hrandom]
    rfl
  | ok p =>
    have hsized := randomizeBaseHint_sized h hrandom
    have hlatest := (asked_max asked_minReserve hsized.latest).probeLoop_eq
    have hlargest := (asked_max asked_minReserve (Or.inr hsized.largest)).probeLoop_eq
    rw [getVaFromKernel, searchVa, bind_of_runs hrandom, bind_of_runs hrandom]
    show (if _ then _ else _ : VaM _) p.2 = (if _ then _ else _ : VaM _) p.2
    rw [hlatest, hlargest]

end Search

/-- The segment behind a pointer is empty enough for every request up to 4 GiB. -/
def Serves (va : VaBitmap) (ptr : ℕ) : Prop :=
  ∃ s ∈ va.segments, s.ptr = ptr ∧ s.full = false ∧ ∀ needed ≤ 2 ^ 20, s.HasRun needed

section Fresh

variable {va va' : VaBitmap} {r : Option ℕ} {needed : ℕ}

theorem Grown.serves {base size ptr : ℕ} (h : Grown va base size ptr va') (hsize : Asked size) :
    Serves va' ptr := by
  obtain ⟨hint, mapLen, _, hsegments⟩ := h.segments
  refine ⟨_, hsegments ▸ List.mem_cons_self, rfl, rfl, fun needed hneeded => ⟨0, ?_, ?_⟩⟩
  · have hmin : 2 ^ 32 ≤ size := hsize.minReserve_le
    show 0 + needed ≤ (base + size - base) / 4096
    omega
  · exact fun i _ _ => bit_zeros i

theorem grow_fresh (h : Sized va) (hrun : Runs grow va r va') :
    (r = none → va'.segments = va.segments) ∧ ∀ ptr, r = some ptr → Serves va' ptr := by
  rw [grow, runs_bind] at hrun
  obtain ⟨_, va₁, hinit, hrun⟩ := hrun
  rw [runs_bind] at hrun
  obtain ⟨res, va₂, hsearch, hrun⟩ := hrun
  have hsized := h.of_settings (initRadix_fixes va _ va₁ hinit)
  have hbefore : va₂.segments = va.segments :=
    (getVaFromKernel_spec hsearch).1.segments.trans (initRadix_spec hinit).1.segments
  have hasked := (getVaFromKernel_sized hsized hsearch).2
  rcases (getVaFromKernel_spec hsearch).2 with rfl | ⟨base, size, rfl, _⟩
  · obtain ⟨rfl, hquiet⟩ := growWith_null hrun
    exact ⟨fun _ => hquiet.segments.trans hbefore,
      fun _ hp => absurd hp.symm (Option.some_ne_none _)⟩
  · rcases growWith_spec hrun with ⟨rfl, hquiet⟩ | ⟨ptr, rfl, hgrown⟩
    · exact ⟨fun _ => hquiet.segments.trans hbefore,
        fun _ hp => absurd hp.symm (Option.some_ne_none _)⟩
    · refine ⟨fun hp => absurd hp (Option.some_ne_none _), fun p hp => ?_⟩
      rw [← Option.some.inj hp]
      exact hgrown.serves (hasked hgrown.base_ne)

theorem growRetry_fresh {n : ℕ} (h : Sized va) (hrun : Runs (growRetry n) va r va') :
    (r = none → va'.segments = va.segments) ∧ ∀ ptr, r = some ptr → Serves va' ptr := by
  induction n generalizing va with
  | zero =>
    obtain ⟨rfl, rfl⟩ := runs_pure.mp hrun
    exact ⟨fun _ => rfl, nofun⟩
  | succ n ih =>
    rw [growRetry, runs_bind] at hrun
    obtain ⟨found, va₁, hgrow, hrun⟩ := hrun
    cases found with
    | some ptr =>
      obtain ⟨rfl, rfl⟩ := runs_pure.mp hrun
      exact grow_fresh h hgrow
    | none =>
      obtain ⟨hnone, hsome⟩ := ih (grow_sized va _ va₁ h hgrow) hrun
      exact ⟨fun hr => (hnone hr).trans ((grow_fresh h hgrow).1 rfl), hsome⟩

theorem Serves.allocIn_isSome {ptr : ℕ} (h : Wf va) (hserves : Serves va ptr) (hpos : 0 < needed)
    (hneeded : needed ≤ 2 ^ 20) (hrun : Runs (allocIn ptr needed) va r va') : r.isSome := by
  obtain ⟨s, hs, rfl, _, hhas⟩ := hserves
  obtain ⟨addr, va₁, hfound⟩ := (h.allocIn_runs hs hpos).1 (hhas needed hneeded)
  rw [(hrun.unique hfound).1]
  rfl

theorem Serves.allocWalk_isSome {ptr : ℕ} (h : Wf va) (hserves : Serves va ptr) (hpos : 0 < needed)
    (hneeded : needed ≤ 2 ^ 20)
    (hrun : Runs (allocWalk needed (va.segments.map (·.ptr))) va r va') : r.isSome := by
  obtain ⟨s, hs, rfl, hopen, hhas⟩ := hserves
  obtain ⟨addr, va₁, hfound⟩ := h.allocWalk_finds hpos (fun _ hp => hp) hs
    (List.mem_map.mpr ⟨s, hs, rfl⟩) hopen (hhas needed hneeded)
  rw [(hrun.unique hfound).1]
  rfl

theorem growFirst_fresh {u : Unit} (h : Sized va) (hrun : Runs growFirst va u va') :
    va'.segments = va.segments ∨ ∃ ptr, Serves va' ptr := by
  rw [growFirst, runs_get_bind] at hrun
  split at hrun
  · rw [runs_bind] at hrun
    obtain ⟨found, va₁, hgrow, hrun⟩ := hrun
    cases found with
    | some ptr =>
      rw [runs_modify.mp hrun]
      exact Or.inr ⟨ptr, (grow_fresh h hgrow).2 ptr rfl⟩
    | none => exact absurd hrun runs_throw
  · exact Or.inl (congrArg segments (runs_pure.mp hrun).2)

theorem length_of_outline {α : Type} {x : VaM α} {a : α} (h : Fixes outline x)
    (hrun : Runs x va a va') :
    va'.segments.length = va.segments.length := by
  have hptrs := congrArg (fun p => p.2.length) (h va a va' hrun)
  simpa only [outline, List.length_map] using hptrs

theorem allocGrown_fresh (h : Wf va) (hsized : Sized va) (hpos : 0 < needed)
    (hneeded : needed ≤ 2 ^ 20) (hrun : Runs (allocGrown needed) va r va') :
    va'.segments.length = va.segments.length ∨ r.isSome := by
  rw [allocGrown, runs_bind] at hrun
  obtain ⟨found, va₁, hgrow, hrun⟩ := hrun
  obtain ⟨hnone, hsome⟩ := growRetry_fresh hsized hgrow
  cases found with
  | none =>
    rw [(runs_pure.mp hrun).2, hnone rfl]
    exact Or.inl rfl
  | some ptr =>
    rw [runs_modify_bind] at hrun
    have hkeeps := growRetry_keeps h hgrow
    have hwf := (hkeeps.wf.keeps_of_segments (hkeeps.wf.registered.latest ptr) rfl).wf
    exact Or.inr (Serves.allocIn_isSome hwf (hsome ptr rfl) hpos hneeded hrun)

/-- An `alloc` that gets a new segment succeeds. -/
theorem alloc_fresh {total : ℕ} (h : Wf va) (hsized : Sized va) (htotal : total ≤ 2 ^ 32)
    (hrun : Runs (alloc total) va r va') :
    va'.segments.length = va.segments.length ∨ r.isSome := by
  rw [alloc] at hrun
  split at hrun
  · rw [(runs_pure.mp hrun).2]
    exact Or.inl rfl
  · rename_i hzero
    obtain ⟨needed, hblocks, hrun⟩ := runs_attempt_bind.mp hrun
    obtain rfl := blocksOf_eq_ceilBlocks hblocks
    have hpos := ceilBlocks_pos (Nat.pos_of_ne_zero hzero)
    have hneeded : ceilBlocks total ≤ 2 ^ 20 := by
      unfold ceilBlocks blockSize
      omega
    rw [runs_bind] at hrun
    obtain ⟨hinted, va₁, hhint, hrun⟩ := hrun
    have hlen₁ := length_of_outline (allocHinted_outline _) hhint
    have hsized₁ := hsized.of_outline (allocHinted_outline _ va _ va₁ hhint)
    cases hinted with
    | some addr =>
      rw [(runs_pure.mp hrun).1]
      exact Or.inr rfl
    | none =>
      have hkeep₁ : Keeps va va₁ := allocHinted_result h hhint
      rw [runs_bind] at hrun
      obtain ⟨_, va₂, hfirst, hrun⟩ := hrun
      have hkeep₂ := growFirst_keeps hkeep₁.wf hfirst
      have hsized₂ := growFirst_preserves (fun _ _ h heq => h.of_outline heq) grow_sized va₁ _ va₂
        hsized₁ hfirst
      rw [runs_get_bind, runs_bind] at hrun
      obtain ⟨walked, va₃, hwalk, hrun⟩ := hrun
      cases walked with
      | some addr =>
        rw [(runs_pure.mp hrun).1]
        exact Or.inr rfl
      | none =>
        rcases growFirst_fresh hsized₁ hfirst with hsame | ⟨ptr, hserves⟩
        · have hlen₃ := length_of_outline (allocWalk_outline _ _) hwalk
          have hsized₃ := hsized₂.of_outline (allocWalk_outline _ _ va₂ _ va₃ hwalk)
          have hkeep₃ : Keeps va₂ va₃ := allocWalk_result hkeep₂.wf hwalk
          rw [← hlen₁, ← hsame, ← hlen₃]
          exact allocGrown_fresh hkeep₃.wf hsized₃ hpos hneeded hrun
        · exact absurd (hserves.allocWalk_isSome hkeep₂.wf hpos hneeded hwalk) Bool.false_ne_true

end Fresh

/-- One call of `get_va_from_kernel`. -/
def searchStep (va : VaBitmap) (_ : Unit) : Option VaBitmap :=
  (outcome getVaFromKernel va).map Prod.snd

theorem searchStep_sized {va va' : VaBitmap} {u : Unit} (h : Sized va)
    (hstep : searchStep va u = some va') : Sized va' := by
  obtain ⟨⟨res, mid⟩, hrun, rfl⟩ := Option.map_eq_some_iff.mp hstep
  exact (getVaFromKernel_sized h (outcome_eq_some.mp hrun)).1

/-- Whatever `init_reverse` stores and the kernel answers, the search ends, what it returns is a
power of two of at least 4 GiB, and an `alloc` of at most 3 GiB and a header, rounded up, that
gets a new segment succeeds. -/
theorem fresh_reservation_serves (env : Env) (sys : ℕ → ℕ) (w : World)
    (hboot : Runs initReverse (World.new env sys) () w) (answers : ℕ → ℕ) :
    (∀ calls va, run searchStep (new w.va.maxReservation answers) calls = some va →
      getVaFromKernel va = searchVa va ∧
      ∀ base last size va', Runs getVaFromKernel va (base, last, size) va' → base ≠ 0 →
        2 ^ 32 ≤ size ∧ ∃ k, size = 2 ^ k) ∧
    ∀ ops sys, run step ⟨new w.va.maxReservation answers, []⟩ ops = some sys →
      ∀ unit bound total r va', (unit = 4096 ∨ unit = 2097152) →
        alignTo (3 * 2 ^ 30 + headerSize) unit = .ok bound → total ≤ bound →
        Runs (alloc total) sys.va r va' → sys.va.segments.length < va'.segments.length →
        r.isSome := by
  have hasked := initReverse_asked hboot
  constructor
  · intro calls va hrun
    have hnew : Sized (new w.va.maxReservation answers) := ⟨hasked, Or.inl rfl⟩
    have hsized : Sized va :=
      @run_invariant _ _ searchStep (fun _ _ => True) Sized
        (fun _ _ _ h _ hstep => searchStep_sized h hstep) _ _ _ hnew (guarded_trivial _) hrun
    refine ⟨hsized.getVaFromKernel_eq, fun base last size va' hsearch hne => ?_⟩
    have hsize := (getVaFromKernel_sized hsized hsearch).2 hne
    have hle := hsize.minReserve_le
    obtain ⟨k, _, _, hk⟩ := hsize
    exact ⟨hle, k, hk⟩
  · intro ops sys hrun unit bound total r va' hunit hbound htotal halloc hgrown
    have hle : total ≤ 2 ^ 32 := by
      refine htotal.trans ?_
      rcases hunit with rfl | rfl
      · rw [← Except.ok.inj hbound]
        decide
      · rw [← Except.ok.inj hbound]
        decide
    have hfresh := alloc_fresh (run_refines hrun).wf (run_sized hasked hrun) hle halloc
    exact hfresh.resolve_left (Nat.ne_of_gt hgrown)

theorem fresh_reservation_serves_first :
    ∃ r va', Runs (alloc 4096) (new defaultReservation (smallAnswers.getD · 1)) r va' ∧
      va'.segments.length = 1 ∧ r.isSome := by
  have hresult : (outcome (alloc 4096) (new defaultReservation (smallAnswers.getD · 1))).map
      (fun x => x.2.segments.length) = some 1 := by
    decide +kernel
  obtain ⟨⟨r, va'⟩, halloc, hlen⟩ := Option.map_eq_some_iff.mp hresult
  have hruns := outcome_eq_some.mp halloc
  have hserves := fresh_reservation_serves ⟨none, none, 1⟩ (smallAnswers.getD · 1) _ rfl
    (smallAnswers.getD · 1)
  refine ⟨r, va', hruns, hlen,
    hserves.2 [] _ rfl 4096 3221229568 4096 r va' (Or.inl rfl) (by decide)
    (by decide) hruns ?_⟩
  rw [show va'.segments.length = 1 from hlen]
  exact Nat.zero_lt_one

end Oxidalloc.VaBitmap
