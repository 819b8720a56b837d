import Oxidalloc.SegmentSearch
import Oxidalloc.VaRefinement

/-!
Whether `VaBitmap::alloc` uses the address space that is free. The attempt in the latest
segment and the walk over the list find every clear run of a segment that is not flagged
full. The flag is set by failed requests of any size and is cleared only by large releases,
so a flagged segment may be empty and is skipped all the same.
-/
namespace Oxidalloc.VaBitmap

open Interleaving Programs Segment WordBitmap

/-- The latest segment, if there is one, is on the list. -/
def Listed (va : VaBitmap) : Prop :=
  va.latestSegment = 0 ∨ va.latestSegment ∈ va.segments.map (·.ptr)

section Attempts

variable {va va' : VaBitmap} {s t : Segment} {needed ptr : ℕ}

theorem Wf.segmentAt_self (h : Wf va) (hs : s ∈ va.segments) : va.segmentAt s.ptr = some s :=
  h.registered.segmentAt_iff.mpr ⟨hs, rfl⟩

theorem runs_draw_self (va : VaBitmap) :
    Runs draw va (va.sys va.tick) { va with tick := va.tick + 1 } := rfl

theorem Wf.tick (h : Wf va) : Wf { va with tick := va.tick + 1 } :=
  (h.keeps_of_quiet (draw_quiet (runs_draw_self va))).wf

/-- An attempt in a segment succeeds exactly if the segment has the run, and changes nothing
if it fails. -/
theorem Wf.allocIn_runs (h : Wf va) (hs : s ∈ va.segments) (hneeded : 0 < needed) :
    (s.HasRun needed → ∃ addr va', Runs (allocIn s.ptr needed) va (some addr) va') ∧
      (¬ s.HasRun needed → Runs (allocIn s.ptr needed) va none
        { va with tick := va.tick + 1 }) := by
  have hiff := alloc_isSome_iff (h.claims s hs) hneeded (va.sys va.tick)
  have hout := alloc_outcome (h.claims s hs) needed (va.sys va.tick)
  have hruns : Runs (allocIn s.ptr needed) va (s.alloc needed (va.sys va.tick)).1
      (VaBitmap.putSegment { va with tick := va.tick + 1 }
        (s.alloc needed (va.sys va.tick)).2) := by
    rw [allocIn, runs_get_bind, h.segmentAt_self hs]
    exact runs_bind.mpr ⟨_, _, runs_draw_self va, rfl⟩
  rcases hres : s.alloc needed (va.sys va.tick) with ⟨found, s'⟩
  rw [hres] at hiff hout hruns
  cases found with
  | none =>
    refine ⟨fun hrun => absurd (hiff.mpr hrun) Bool.false_ne_true, fun _ => ?_⟩
    rw [show s' = s from hout, putSegment_self h.tick.registered hs] at hruns
    exact hruns
  | some addr => exact ⟨fun _ => ⟨addr, _, hruns⟩, fun hnone => absurd (hiff.mp rfl) hnone⟩

/-- A segment after a failed attempt. -/
def failed (s : Segment) : Segment :=
  { s with failedTrys := (s.failedTrys + 1) % 256, full := s.full || decide (2 < s.failedTrys) }

theorem Wf.noteFailure_runs (h : Wf va) (hs : s ∈ va.segments) :
    Runs (noteFailure s.ptr) va () (va.putSegment (failed s)) := by
  rw [noteFailure, runs_get_bind, h.segmentAt_self hs]
  exact runs_set.mpr rfl

theorem Wf.isFull_runs (h : Wf va) (hs : s ∈ va.segments) : Runs (isFull s.ptr) va s.full va := by
  rw [isFull, runs_get_bind, h.segmentAt_self hs]
  exact runs_pure.mpr ⟨rfl, rfl⟩

theorem putSegment_ptrs (va : VaBitmap) (s : Segment) :
    (va.putSegment s).segments.map (·.ptr) = va.segments.map (·.ptr) := by
  rw [putSegment, List.map_map]
  refine List.map_congr_left fun t _ => ?_
  show (if t.ptr = s.ptr then s else t).ptr = t.ptr
  split
  · rename_i heq
    exact heq.symm
  · rfl

theorem mem_putSegment_of_ne (ht : t ∈ va.segments) (hne : t.ptr ≠ s.ptr) :
    t ∈ (va.putSegment s).segments := by
  refine List.mem_map.mpr ⟨t, ht, ?_⟩
  rw [if_neg hne]

/-- The walk goes past a segment without the run. -/
theorem Wf.passes (h : Wf va) (ht : t ∈ va.segments) (hneeded : 0 < needed)
    (hnone : t.full = true ∨ ¬ t.HasRun needed) :
    ∃ va', Wf va' ∧ va'.segments.map (·.ptr) = va.segments.map (·.ptr) ∧
      (∀ s ∈ va.segments, s.ptr ≠ t.ptr → s ∈ va'.segments) ∧
      ∀ rest r va'', Runs (allocWalk needed (t.ptr :: rest)) va r va'' ↔
        Runs (allocWalk needed rest) va' r va'' := by
  by_cases hfull : t.full = true
  · refine ⟨va, h, rfl, fun s hs _ => hs, fun rest r va'' => ?_⟩
    rw [allocWalk, runs_bind_iff (h.isFull_runs ht), if_pos hfull]
  · have hrun := (h.allocIn_runs ht hneeded).2 (hnone.resolve_left hfull)
    have ht' : t ∈ { va with tick := va.tick + 1 }.segments := ht
    have hnote := h.tick.noteFailure_runs ht'
    refine ⟨_, (noteFailure_keeps h.tick hnote).wf, putSegment_ptrs _ _, ?_, fun rest r va'' => ?_⟩
    · intro s hs hne
      exact mem_putSegment_of_ne hs hne
    · rw [allocWalk, runs_bind_iff (h.isFull_runs ht), if_neg hfull, runs_bind_iff hrun,
        runs_bind_iff hnote]

theorem Wf.allocWalk_finds (h : Wf va) (hneeded : 0 < needed) {ptrs : List ℕ}
    (hptrs : ∀ p ∈ ptrs, p ∈ va.segments.map (·.ptr)) (hs : s ∈ va.segments)
    (hin : s.ptr ∈ ptrs) (hopen : s.full = false) (hrun : s.HasRun needed) :
    ∃ addr va', Runs (allocWalk needed ptrs) va (some addr) va' := by
  induction ptrs generalizing va with
  | nil => exact absurd hin List.not_mem_nil
  | cons ptr rest ih =>
    obtain ⟨t, ht, rfl⟩ := List.mem_map.mp (hptrs ptr List.mem_cons_self)
    by_cases hnone : t.full = true ∨ ¬ t.HasRun needed
    · obtain ⟨va', hwf, hsame, hkept, hwalk⟩ := h.passes ht hneeded hnone
      have hne : s.ptr ≠ t.ptr := by
        intro heq
        rw [h.registered.ptr_injective hs ht heq] at hopen hrun
        rcases hnone with hfull | hnot
        · exact Bool.false_ne_true (hopen.symm.trans hfull)
        · exact hnot hrun
      obtain ⟨addr, va'', hfound⟩ := ih hwf
        (fun p hp => hsame ▸ hptrs p (List.mem_cons_of_mem _ hp)) (hkept s hs hne)
        ((List.mem_cons.mp hin).resolve_left hne)
      exact ⟨addr, va'', (hwalk rest _ _).mpr hfound⟩
    · obtain ⟨hfull, hhas⟩ := not_or.mp hnone
      obtain ⟨addr, va', hfound⟩ := (h.allocIn_runs ht hneeded).1 (not_not.mp hhas)
      refine ⟨addr, { va' with latestSegment := t.ptr }, ?_⟩
      rw [allocWalk, runs_bind_iff (h.isFull_runs ht), if_neg hfull, runs_bind_iff hfound]
      exact runs_pure.mpr ⟨rfl, rfl⟩

/-- The attempt in the latest segment. -/
theorem Wf.allocHinted_runs (h : Wf va) (hlisted : Listed va) (hneeded : 0 < needed) :
    (∃ addr va', Runs (allocHinted needed) va (some addr) va') ∨
      ∃ va', Runs (allocHinted needed) va none va' ∧ Quiet va va' ∧
        ∀ s ∈ va.segments, s.ptr = va.latestSegment → ¬ s.HasRun needed := by
  rw [allocHinted]
  simp only [runs_get_bind]
  by_cases hzero : va.latestSegment = 0
  · rw [if_pos hzero]
    refine Or.inr ⟨va, runs_pure.mpr ⟨rfl, rfl⟩, Quiet.refl va, fun s hs hptr => ?_⟩
    exact absurd (hptr.trans hzero) (h.registered.ptr_ne s hs)
  · rw [if_neg hzero]
    obtain ⟨t, ht, hptr⟩ := List.mem_map.mp (hlisted.resolve_left hzero)
    rw [← hptr]
    by_cases hrun : t.HasRun needed
    · exact Or.inl ((h.allocIn_runs ht hneeded).1 hrun)
    · refine Or.inr ⟨_, (h.allocIn_runs ht hneeded).2 hrun, draw_quiet (runs_draw_self va), ?_⟩
      intro s hs heq
      rwa [h.registered.ptr_injective hs ht heq]

theorem ceilBlocks_pos {size : ℕ} (h : 0 < size) : 0 < ceilBlocks size := by
  unfold ceilBlocks blockSize
  omega

theorem blocksOf_lt {size : ℕ} (h : size < 2 ^ 63) : blocksOf size = .ok (ceilBlocks size) := by
  refine blocksOf_eq_ok.mpr ⟨?_, rfl⟩
  unfold blockSize usizeBound
  omega

theorem growFirst_listed (hs : s ∈ va.segments) : Runs growFirst va () va := by
  rw [growFirst, runs_get_bind, if_neg]
  · exact runs_pure.mpr ⟨rfl, rfl⟩
  · rintro ⟨hempty, _⟩
    rw [List.isEmpty_iff.mp hempty] at hs
    exact absurd hs List.not_mem_nil

/-- A run in a segment that is not flagged full, or in the latest one, is found. -/
theorem Wf.alloc_finds {size : ℕ} (h : Wf va) (hlisted : Listed va) (hpos : 0 < size)
    (hsize : size < 2 ^ 63) (hs : s ∈ va.segments)
    (hopen : s.full = false ∨ s.ptr = va.latestSegment) (hrun : s.HasRun (ceilBlocks size)) :
    ∃ addr va', Runs (alloc size) va (some addr) va' := by
  have hneeded := ceilBlocks_pos hpos
  have hblocks : Runs (attempt (blocksOf size) : VaM ℕ) va (ceilBlocks size) va :=
    runs_attempt.mpr ⟨blocksOf_lt hsize, rfl⟩
  rw [alloc, if_neg (Nat.ne_of_gt hpos)]
  simp only [runs_bind_iff hblocks]
  rcases h.allocHinted_runs hlisted hneeded with ⟨addr, va', hhint⟩ | ⟨va', hhint, hquiet, hmiss⟩
  · exact ⟨addr, va', (runs_bind_iff hhint).mpr (runs_pure.mpr ⟨rfl, rfl⟩)⟩
  · have hs' : s ∈ va'.segments := hquiet.segments ▸ hs
    have hopen : s.full = false := hopen.resolve_right fun hptr => hmiss s hs hptr hrun
    obtain ⟨addr, va'', hwalk⟩ := (h.keeps_of_quiet hquiet).wf.allocWalk_finds hneeded
      (fun _ hp => hp) hs' (List.mem_map.mpr ⟨s, hs', rfl⟩) hopen hrun
    refine ⟨addr, va'', ?_⟩
    rw [runs_bind_iff hhint]
    simp only [runs_bind_iff (growFirst_listed hs'), runs_get_bind, runs_bind_iff hwalk]
    exact runs_pure.mpr ⟨rfl, rfl⟩

end Attempts

/-- The list keeps its segments, and the latest segment changes to one of the list only. -/
structure Tracks (va va' : VaBitmap) : Prop where
  ptrs : ∀ p ∈ va.segments.map (·.ptr), p ∈ va'.segments.map (·.ptr)
  latest : va'.latestSegment = va.latestSegment ∨ va'.latestSegment ∈ va'.segments.map (·.ptr)

section Latest

variable {va va₁ va' : VaBitmap} {needed ptr : ℕ} {r : Option ℕ} {u : Unit}

theorem Tracks.listed (h : Tracks va va') (hlisted : Listed va) : Listed va' := by
  rcases h.latest with hsame | hin
  · rcases hlisted with hzero | hin
    · exact Or.inl (hsame.trans hzero)
    · exact Or.inr (hsame ▸ h.ptrs _ hin)
  · exact Or.inr hin

theorem Tracks.trans (h : Tracks va va₁) (h' : Tracks va₁ va') : Tracks va va' := by
  refine ⟨fun p hp => h'.ptrs p (h.ptrs p hp), ?_⟩
  rcases h'.latest with hsame | hin
  · exact h.latest.imp hsame.trans fun hin => hsame ▸ h'.ptrs _ hin
  · exact Or.inr hin

theorem QuietList.tracks (h : QuietList va va') : Tracks va va' :=
  ⟨fun p hp => by rwa [h.segments], Or.inl h.latest⟩

theorem Quiet.tracks (h : Quiet va va') : Tracks va va' := h.quietList.tracks

theorem tracks_refl (va : VaBitmap) : Tracks va va := (Quiet.refl va).tracks

theorem tracks_putSegment (va : VaBitmap) (s : Segment) : Tracks va (va.putSegment s) :=
  ⟨fun p hp => by rwa [putSegment_ptrs], Or.inl rfl⟩

theorem tracks_latest (h : ptr ∈ va.segments.map (·.ptr)) :
    Tracks va { va with latestSegment := ptr } :=
  ⟨fun _ hp => hp, Or.inr h⟩

theorem segmentAt_ptr {s : Segment} (h : va.segmentAt ptr = some s) :
    ptr ∈ va.segments.map (·.ptr) := by
  have hptr := @List.find?_some _ (fun t : Segment => decide (t.ptr = ptr)) s va.segments h
  exact List.mem_map.mpr ⟨s, List.mem_of_find?_eq_some h, of_decide_eq_true hptr⟩

theorem allocIn_tracks (h : Runs (allocIn ptr needed) va r va') :
    Tracks va va' ∧ ptr ∈ va.segments.map (·.ptr) := by
  rw [allocIn, runs_get_bind] at h
  split at h
  · exact absurd h runs_throw
  · rename_i s hfind
    rw [runs_bind] at h
    obtain ⟨random, va₁, hdraw, h⟩ := h
    simp only [runs_modify_bind, runs_pure] at h
    rw [h.2]
    exact ⟨(draw_quiet hdraw).tracks.trans (tracks_putSegment _ _), segmentAt_ptr hfind⟩

theorem Grown.tracks {base size : ℕ} (h : Grown va base size ptr va') :
    Tracks va va' ∧ ptr ∈ va'.segments.map (·.ptr) := by
  obtain ⟨hint, mapLen, _, hsegments⟩ := h.segments
  rw [hsegments, List.map_cons]
  refine ⟨⟨fun p hp => ?_, Or.inl h.latest⟩, List.mem_cons_self⟩
  rw [hsegments, List.map_cons]
  exact List.mem_cons_of_mem _ hp

theorem grow_tracks (h : Runs grow va r va') :
    Tracks va va' ∧ ∀ ptr, r = some ptr → ptr ∈ va'.segments.map (·.ptr) := by
  rw [grow, runs_bind] at h
  obtain ⟨_, va₁, hinit, h⟩ := h
  rw [runs_bind] at h
  obtain ⟨res, va₂, hsearch, h⟩ := h
  obtain ⟨hquiet, hres⟩ := getVaFromKernel_spec hsearch
  have hbefore := (initRadix_spec hinit).1.tracks.trans hquiet.tracks
  rcases hres with rfl | ⟨base, size, rfl, _⟩
  · obtain ⟨rfl, hq⟩ := growWith_null h
    exact ⟨hbefore.trans hq.tracks, fun _ hp => absurd hp.symm (Option.some_ne_none _)⟩
  · rcases growWith_spec h with ⟨rfl, hq⟩ | ⟨ptr, rfl, hgrown⟩
    · exact ⟨hbefore.trans hq.tracks, fun _ hp => absurd hp.symm (Option.some_ne_none _)⟩
    · refine ⟨hbefore.trans hgrown.tracks.1, fun p hp => ?_⟩
      rw [← Option.some.inj hp]
      exact hgrown.tracks.2

theorem growRetry_tracks {n : ℕ} (h : Runs (growRetry n) va r va') :
    Tracks va va' ∧ ∀ ptr, r = some ptr → ptr ∈ va'.segments.map (·.ptr) := by
  induction n generalizing va with
  | zero =>
    obtain ⟨rfl, rfl⟩ := runs_pure.mp h
    exact ⟨tracks_refl _, nofun⟩
  | succ n ih =>
    rw [growRetry, runs_bind] at h
    obtain ⟨found, va₁, hgrow, h⟩ := h
    cases found with
    | some ptr =>
      obtain ⟨rfl, rfl⟩ := runs_pure.mp h
      exact grow_tracks hgrow
    | none =>
      obtain ⟨hrest, hptr⟩ := ih h
      exact ⟨(grow_tracks hgrow).1.trans hrest, hptr⟩

theorem allocHinted_tracks (h : Runs (allocHinted needed) va r va') : Tracks va va' := by
  rw [allocHinted, runs_get_bind] at h
  split at h
  · rw [(runs_pure.mp h).2]
    exact tracks_refl va
  · exact (allocIn_tracks h).1

theorem growFirst_tracks (h : Runs growFirst va u va') : Tracks va va' := by
  rw [growFirst, runs_get_bind] at h
  split at h
  · rw [runs_bind] at h
    obtain ⟨found, va₁, hgrow, h⟩ := h
    cases found with
    | some ptr =>
      rw [runs_modify.mp h]
      exact (grow_tracks hgrow).1.trans ⟨fun _ hp => hp, Or.inl rfl⟩
    | none => exact absurd h runs_throw
  · rw [(runs_pure.mp h).2]
    exact tracks_refl va

theorem noteFailure_tracks (h : Runs (noteFailure ptr) va u va') : Tracks va va' := by
  rw [noteFailure, runs_get_bind] at h
  split at h
  · exact absurd h runs_throw
  · rw [runs_set.mp h]
    exact tracks_putSegment _ _

theorem allocWalk_tracks {ptrs : List ℕ} (h : Runs (allocWalk needed ptrs) va r va') :
    Tracks va va' := by
  induction ptrs generalizing va with
  | nil =>
    rw [(runs_pure.mp h).2]
    exact tracks_refl va
  | cons ptr rest ih =>
    rw [allocWalk, runs_bind] at h
    obtain ⟨full, va₁, hfull, h⟩ := h
    rw [isFull_quiet hfull] at h
    split at h
    · exact ih h
    · rw [runs_bind] at h
      obtain ⟨found, va₂, halloc, h⟩ := h
      obtain ⟨htracks, hptr⟩ := allocIn_tracks halloc
      cases found with
      | some addr =>
        simp only [runs_modify_bind, runs_pure] at h
        rw [h.2]
        exact htracks.trans (tracks_latest (htracks.ptrs ptr hptr))
      | none =>
        rw [runs_bind] at h
        obtain ⟨_, va₃, hnote, h⟩ := h
        exact (htracks.trans (noteFailure_tracks hnote)).trans (ih h)

theorem allocGrown_tracks (h : Runs (allocGrown needed) va r va') : Tracks va va' := by
  rw [allocGrown, runs_bind] at h
  obtain ⟨found, va₁, hgrow, h⟩ := h
  obtain ⟨htracks, hptr⟩ := growRetry_tracks hgrow
  cases found with
  | none => exact (runs_pure.mp h).2 ▸ htracks
  | some ptr =>
    rw [runs_modify_bind] at h
    exact (htracks.trans (tracks_latest (hptr ptr rfl))).trans (allocIn_tracks h).1

theorem alloc_tracks {size : ℕ} (h : Runs (alloc size) va r va') : Tracks va va' := by
  rw [alloc] at h
  split at h
  · exact (runs_pure.mp h).2 ▸ tracks_refl va
  · obtain ⟨n, _, h⟩ := runs_attempt_bind.mp h
    rw [runs_bind] at h
    obtain ⟨hinted, va₁, hhint, h⟩ := h
    have hfirst := allocHinted_tracks hhint
    cases hinted with
    | some addr => exact (runs_pure.mp h).2 ▸ hfirst
    | none =>
      rw [runs_bind] at h
      obtain ⟨_, va₂, hgrow, h⟩ := h
      rw [runs_get_bind, runs_bind] at h
      obtain ⟨walked, va₃, hwalk, h⟩ := h
      have hsecond := (hfirst.trans (growFirst_tracks hgrow)).trans (allocWalk_tracks hwalk)
      cases walked with
      | some addr => exact (runs_pure.mp h).2 ▸ hsecond
      | none => exact hsecond.trans (allocGrown_tracks h)

theorem free_tracks {addr size : ℕ} (h : Runs (free addr size) va u va') : Tracks va va' := by
  rw [free] at h
  split at h
  · exact (runs_pure.mp h).2 ▸ tracks_refl va
  · rw [runs_get_bind] at h
    obtain ⟨found, _, h⟩ := runs_attempt_bind.mp h
    cases found with
    | none => exact (runs_pure.mp h).2 ▸ tracks_refl va
    | some s =>
      obtain ⟨s', _, h⟩ := runs_attempt_bind.mp h
      rw [runs_modify.mp h]
      exact tracks_putSegment va s'

theorem reallocInplace_tracks {addr oldSize newSize : ℕ}
    (h : Runs (reallocInplace addr oldSize newSize) va r va') : Tracks va va' := by
  rw [reallocInplace, runs_get_bind] at h
  obtain ⟨found, _, h⟩ := runs_attempt_bind.mp h
  cases found with
  | none => exact (runs_pure.mp h).2 ▸ tracks_refl va
  | some s =>
    obtain ⟨⟨r', s'⟩, _, h⟩ := runs_attempt_bind.mp h
    simp only [runs_modify_bind, runs_pure] at h
    rw [h.2]
    exact tracks_putSegment va s'

/-- A step of a run is a call of one of the three functions. -/
theorem step_cases {sys sys' : System} {op : Op} (h : step sys op = some sys') :
    (∃ size r, Runs (alloc size) sys.va r sys'.va) ∨
      (∃ addr size u, Runs (free addr size) sys.va u sys'.va) ∨
      ∃ addr oldSize newSize r, Runs (reallocInplace addr oldSize newSize) sys.va r sys'.va := by
  obtain ⟨⟨result, mid⟩, hop, rfl⟩ := Option.map_eq_some_iff.mp h
  cases op with
  | alloc size =>
    refine Or.inl ⟨size, ?_⟩
    simp only [perform] at hop
    split at hop
    · split at hop
      · rename_i addr va hrun
        rw [← (Prod.mk.inj (Option.some.inj hop)).2]
        exact ⟨some addr, hrun⟩
      · rename_i va hrun
        rw [← (Prod.mk.inj (Option.some.inj hop)).2]
        exact ⟨none, hrun⟩
      · contradiction
    · contradiction
  | free r =>
    refine Or.inr (Or.inl ⟨r.addr, r.size, ?_⟩)
    simp only [perform] at hop
    split at hop
    · split at hop
      · rename_i u va hrun
        rw [← (Prod.mk.inj (Option.some.inj hop)).2]
        exact ⟨u, hrun⟩
      · contradiction
    · contradiction
  | reallocInplace r newSize =>
    refine Or.inr (Or.inr ⟨r.addr, r.size, newSize, ?_⟩)
    simp only [perform] at hop
    split at hop
    · split at hop
      · rename_i n va hrun
        rw [← (Prod.mk.inj (Option.some.inj hop)).2]
        exact ⟨some n, hrun⟩
      · rename_i va hrun
        rw [← (Prod.mk.inj (Option.some.inj hop)).2]
        exact ⟨none, hrun⟩
      · contradiction
    · contradiction

theorem step_tracks {sys sys' : System} {op : Op} (h : step sys op = some sys') :
    Tracks sys.va sys'.va := by
  rcases step_cases h with ⟨size, r, hrun⟩ | ⟨addr, size, u, hrun⟩ | ⟨addr, old, new, r, hrun⟩
  · exact alloc_tracks hrun
  · exact free_tracks hrun
  · exact reallocInplace_tracks hrun

section Run

variable {maxReservation : ℕ} {answers : ℕ → ℕ} {ops : List Op} {sys : System}

theorem run_refines (hrun : run step ⟨new maxReservation answers, []⟩ ops = some sys) :
    Refines sys :=
  @run_invariant _ _ step (fun _ _ => True) Refines (fun _ _ _ h _ hstep => step_refines h hstep)
    _ _ _ (refines_new maxReservation answers) (guarded_trivial _) hrun

theorem run_listed (hrun : run step ⟨new maxReservation answers, []⟩ ops = some sys) :
    Listed sys.va :=
  @run_invariant _ _ step (fun _ _ => True) (fun sys => Listed sys.va)
    (fun _ _ _ h _ hstep => (step_tracks hstep).listed h) _ _ _ (Or.inl rfl)
      (guarded_trivial _) hrun

theorem clear_of_live_nil (hrun : run step ⟨new maxReservation answers, []⟩ ops = some sys)
    (hlive : sys.live = []) {s : Segment} (hs : s ∈ sys.va.segments) (start count : ℕ) :
    Segment.Clear s.map start count := by
  intro i _ _
  have hbits := (run_refines hrun).isSetOfRanges.bits s hs i
  rw [hlive] at hbits
  refine Bool.eq_false_of_not_eq_true fun hbit => ?_
  obtain ⟨_, r, hr, _⟩ := hbits.mp hbit
  exact absurd hr List.not_mem_nil

end Run

end Latest

/-- In every state of a run, a clear run of blocks in a segment that is not flagged full, or in
the latest segment, is enough for `alloc`, whatever the kernel answers. -/
theorem free_space_is_usable (maxReservation : ℕ) (answers : ℕ → ℕ) (ops : List Op) (sys : System)
    (hrun : run step ⟨new maxReservation answers, []⟩ ops = some sys) (size : ℕ) (hpos : 0 < size)
    (hsize : size < 2 ^ 63) (s : Segment) (hs : s ∈ sys.va.segments)
    (hopen : s.full = false ∨ s.ptr = sys.va.latestSegment) (start : ℕ)
    (hfits : start + ceilBlocks size ≤ s.maxBits)
    (hclear : Segment.Clear s.map start (ceilBlocks size)) :
    ∃ addr va', Runs (alloc size) sys.va (some addr) va' := by
  exact (run_refines hrun).wf.alloc_finds (run_listed hrun) hpos hsize hs hopen
    ⟨start, hfits, hclear⟩

/-- Answers of a kernel that first gives 16 GiB and from then on 4 GiB only. -/
def smallAnswers : List ℕ := [
  1, 1099511627776, 1, 1, 100, 1, 5, 1, 7, 1, 1, 2199023255552, 1, 1, 101, 5,
  5, 5, 5, 1, 7, 1, 1, 2207613190144, 1, 1, 102, 5,
  5, 5, 5, 5, 1, 7, 1, 1, 2216203124736, 1, 1, 103, 5,
  5, 5, 5, 5, 5, 1, 7, 1, 1, 2224793059328, 1, 1, 104, 5,
  5, 5, 5, 5, 5, 1, 7, 1, 1, 2233382993920, 1, 1, 105, 5]

theorem free_space_is_usable_once :
    ∃ sys addr va', run step ⟨new (2 ^ 34) (smallAnswers.getD · 1), []⟩
      [.alloc (2 ^ 62)] = some sys ∧
      Runs (alloc (2 ^ 33)) sys.va (some addr) va' := by
  have hresult : (run step ⟨new (2 ^ 34) (smallAnswers.getD · 1), []⟩ [.alloc (2 ^ 62)]).map
      (fun sys => (sys.live, sys.va.segments.any fun s =>
        decide (s.full = false ∧ 0 + ceilBlocks (2 ^ 33) ≤ s.maxBits))) = some ([], true) := by
    decide +kernel
  obtain ⟨sys, hrun, heq⟩ := Option.map_eq_some_iff.mp hresult
  simp only [Prod.mk.injEq] at heq
  obtain ⟨hlive, hany⟩ := heq
  obtain ⟨s, hs, hfacts⟩ := List.any_eq_true.mp hany
  obtain ⟨hopen, hfits⟩ := of_decide_eq_true hfacts
  obtain ⟨addr, va', halloc⟩ := free_space_is_usable (2 ^ 34) (smallAnswers.getD · 1)
    [.alloc (2 ^ 62)] sys hrun (2 ^ 33) (by decide) (by decide) s hs (Or.inl hopen) 0 hfits
    (clear_of_live_nil hrun hlive hs _ _)
  exact ⟨sys, addr, va', hrun, halloc⟩

/-- Four requests that no segment can serve set the flag of the first segment, which is empty;
a request for half of it is then refused. -/
theorem full_segment_is_skipped :
    ∃ sys va', run step ⟨new (2 ^ 34) (smallAnswers.getD · 1), []⟩
        [.alloc (2 ^ 62), .alloc (2 ^ 62), .alloc (2 ^ 62), .alloc (2 ^ 62)] = some sys ∧
      (∃ s ∈ sys.va.segments, 0 + ceilBlocks (2 ^ 33) ≤ s.maxBits ∧
        Segment.Clear s.map 0 (ceilBlocks (2 ^ 33))) ∧
      Runs (alloc (2 ^ 33)) sys.va none va' := by
  have hresult : (run step ⟨new (2 ^ 34) (smallAnswers.getD · 1), []⟩
      [.alloc (2 ^ 62), .alloc (2 ^ 62), .alloc (2 ^ 62), .alloc (2 ^ 62)]).bind (fun sys =>
        (outcome (alloc (2 ^ 33)) sys.va).map fun x => (x.1, sys.live,
          sys.va.segments.any fun s => decide (0 + ceilBlocks (2 ^ 33) ≤ s.maxBits))) =
      some (none, [], true) := by
    decide +kernel
  obtain ⟨sys, hrun, hrest⟩ := Option.bind_eq_some_iff.mp hresult
  obtain ⟨⟨r, va'⟩, halloc, heq⟩ := Option.map_eq_some_iff.mp hrest
  simp only [Prod.mk.injEq] at heq
  obtain ⟨rfl, hlive, hany⟩ := heq
  obtain ⟨s, hs, hfits⟩ := List.any_eq_true.mp hany
  exact ⟨sys, va', hrun, ⟨s, hs, of_decide_eq_true hfits, clear_of_live_nil hrun hlive hs _ _⟩,
    outcome_eq_some.mp halloc⟩

end Oxidalloc.VaBitmap
