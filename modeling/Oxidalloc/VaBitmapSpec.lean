import Oxidalloc.VaBitmap
import Oxidalloc.VaSegmentSpec

/-!
What the programs around the segments do: the calls of the kernel leave segments
and radix tree alone, a reservation is page aligned and inside the address space,
`set_range` writes its chunks, and `grow` adds one empty segment to the list or
nothing at all.
-/
namespace Oxidalloc.VaBitmap

open KernelVa Programs

/-- The step touches neither the segments nor the radix tree. -/
structure Quiet (va va' : VaBitmap) : Prop where
  segments : va'.segments = va.segments
  radix : va'.radix = va.radix
  latest : va'.latestSegment = va.latestSegment
  once : va'.once = va.once

theorem Quiet.refl (va : VaBitmap) : Quiet va va := ⟨rfl, rfl, rfl, rfl⟩

theorem Quiet.trans {va va₁ va₂ : VaBitmap} (h : Quiet va va₁) (h' : Quiet va₁ va₂) :
    Quiet va va₂ :=
  ⟨h'.segments.trans h.segments, h'.radix.trans h.radix, h'.latest.trans h.latest,
    h'.once.trans h.once⟩

section Kernel

variable {va va' : VaBitmap}

theorem draw_quiet {answer : ℕ} (h : Runs draw va answer va') : Quiet va va' := by
  simp only [draw, runs_get_bind, runs_set_bind, runs_pure] at h
  rw [h.2]
  exact ⟨rfl, rfl, rfl, rfl⟩

theorem setStatics_quiet {k : Statics} {u : Unit} (h : Runs (setStatics k) va u va') :
    Quiet va va' := by
  simp only [setStatics, runs_modify] at h
  rw [h]
  exact ⟨rfl, rfl, rfl, rfl⟩

theorem mmapMemory_spec {len : ℕ} {r : Option ℕ} (h : Runs (mmapMemory len) va r va') :
    Quiet va va' ∧ ∀ ptr, r = some ptr → len ≠ 0 ∧ ptr ≠ 0 := by
  rw [mmapMemory, runs_bind] at h
  obtain ⟨answer, va₁, hdraw, h⟩ := h
  obtain ⟨hr, hva⟩ := runs_pure.mp h
  refine ⟨hva ▸ draw_quiet hdraw, fun ptr hptr => ?_⟩
  rw [hr] at hptr
  split at hptr
  · contradiction
  · rename_i hok
    have heq := Option.some.inj hptr
    omega

theorem mmapSegment_spec {r : Option ℕ} (h : Runs mmapSegment va r va') :
    Quiet va va' ∧ ∀ ptr, r = some ptr → ptr ≠ 0 ∧ va.segmentAt ptr = none := by
  rw [mmapSegment, runs_bind] at h
  obtain ⟨answer, va₁, hmmap, h⟩ := h
  obtain ⟨hquiet, hanswer⟩ := mmapMemory_spec hmmap
  cases answer with
  | none =>
    obtain ⟨hr, hva⟩ := runs_pure.mp h
    exact ⟨hva ▸ hquiet, fun ptr hptr => by rw [hr] at hptr; contradiction⟩
  | some ptr =>
    simp only [runs_get_bind] at h
    obtain ⟨hr, hva⟩ := runs_pure.mp h
    refine ⟨hva ▸ hquiet, fun p hp => ?_⟩
    rw [hr] at hp
    split at hp
    · contradiction
    · rename_i hfresh
      have heq := Option.some.inj hp
      subst heq
      refine ⟨(hanswer ptr rfl).2, ?_⟩
      rw [segmentAt, ← hquiet.segments]
      exact Option.not_isSome_iff_eq_none.mp hfresh

theorem mmapReserve_spec {size : ℕ} {r : Option ℕ} (h : Runs (mmapReserve size) va r va') :
    Quiet va va' ∧
      ∀ base, r = some base → base ≠ 0 ∧ base % 4096 = 0 ∧ base + size < usizeBound := by
  rw [mmapReserve, runs_bind] at h
  obtain ⟨answer, va₁, hdraw, h⟩ := h
  have hquiet := draw_quiet hdraw
  rw [runs_get_bind] at h
  split at h
  · rename_i hcan
    simp only [runs_set_bind, runs_pure] at h
    refine ⟨h.2 ▸ ⟨hquiet.segments, hquiet.radix, hquiet.latest, hquiet.once⟩, fun base hbase => ?_⟩
    rw [h.1] at hbase
    have heq := Option.some.inj hbase
    exact heq ▸ ⟨hcan.1, hcan.2.1, hcan.2.2.1⟩
  · obtain ⟨hr, hva⟩ := runs_pure.mp h
    exact ⟨hva ▸ hquiet, fun base hbase => by rw [hr] at hbase; contradiction⟩

theorem addToBaseHint_quiet {size : ℕ} {u : Unit} (h : Runs (addToBaseHint size) va u va') :
    Quiet va va' := by
  rw [addToBaseHint, runs_get_bind] at h
  split at h
  · exact absurd h runs_throw
  · exact setStatics_quiet h

theorem getrandom_quiet {rand : ℕ} (h : Runs getrandom va rand va') : Quiet va va' := by
  rw [getrandom, runs_bind] at h
  obtain ⟨answer, va₁, hdraw, h⟩ := h
  split at h
  · exact absurd h runs_throw
  · exact (draw_quiet hdraw).trans (draw_quiet h)

theorem randomizeBaseHint_quiet {u : Unit} (h : Runs randomizeBaseHint va u va') :
    Quiet va va' := by
  rw [randomizeBaseHint, runs_get_bind] at h
  split at h
  · exact (runs_pure.mp h).2 ▸ Quiet.refl va
  · rw [runs_bind] at h
    obtain ⟨rand, va₁, hrand, h⟩ := h
    obtain ⟨offset, _, h⟩ := runs_attempt_bind.mp h
    exact (getrandom_quiet hrand).trans (setStatics_quiet h)

/-- What `get_va_from_kernel` returns: nothing, or a reservation with its end. -/
def IsReservation (r : ℕ × ℕ × ℕ) : Prop :=
  r = (0, 0, 0) ∨ ∃ base size, r = (base, base + size, size) ∧
    base % 4096 = 0 ∧ 0 < size ∧ base + size < usizeBound

theorem probeLoop_spec {fuel size : ℕ} {r : ℕ × ℕ × ℕ} (hsize : 0 < size)
    (h : Runs (probeLoop fuel size) va r va') : Quiet va va' ∧ IsReservation r := by
  induction fuel generalizing size va with
  | zero => exact absurd h runs_throw
  | succ fuel ih =>
    rw [probeLoop, runs_bind] at h
    obtain ⟨answer, va₁, hreserve, h⟩ := h
    obtain ⟨hquiet, hbase⟩ := mmapReserve_spec hreserve
    cases answer with
    | some base =>
      obtain ⟨_, haligned, hfits⟩ := hbase base rfl
      have hres : IsReservation (base, base + size, size) :=
        Or.inr ⟨base, size, rfl, haligned, hsize, hfits⟩
      rw [runs_get_bind, runs_bind] at h
      obtain ⟨_, va₂, hlatest, h⟩ := h
      have hquiet := hquiet.trans (setStatics_quiet hlatest)
      split at h
      · rw [runs_bind] at h
        obtain ⟨_, va₃, hhint, h⟩ := h
        obtain ⟨hr, hva⟩ := runs_pure.mp h
        exact ⟨hva ▸ hquiet.trans (addToBaseHint_quiet hhint), hr ▸ hres⟩
      · simp only [runs_modify_bind, runs_pure] at h
        exact ⟨h.2 ▸ hquiet.trans ⟨rfl, rfl, rfl, rfl⟩, h.1 ▸ hres⟩
    | none =>
      rw [runs_get_bind] at h
      split at h
      · exact absurd h runs_throw
      · split at h
        · rw [runs_bind] at h
          obtain ⟨_, va₂, hinit, h⟩ := h
          obtain ⟨hr, hva⟩ := runs_pure.mp h
          exact ⟨hva ▸ hquiet.trans (setStatics_quiet hinit), Or.inl hr⟩
        · rename_i hmin
          rw [runs_bind] at h
          obtain ⟨_, va₂, hhint, h⟩ := h
          have hhalf : 0 < size / 2 := by
            unfold minReserve chunkSize at hmin
            omega
          obtain ⟨hrest, hres⟩ := ih hhalf h
          exact ⟨(hquiet.trans (addToBaseHint_quiet hhint)).trans hrest, hres⟩

theorem getVaFromKernel_spec {r : ℕ × ℕ × ℕ} (h : Runs getVaFromKernel va r va') :
    Quiet va va' ∧ IsReservation r := by
  have hmin : 0 < minReserve := by
    unfold minReserve chunkSize
    omega
  rw [getVaFromKernel, runs_bind] at h
  obtain ⟨_, va₁, hrandom, h⟩ := h
  have hquiet := randomizeBaseHint_quiet hrandom
  rw [runs_get_bind] at h
  split at h
  · obtain ⟨hprobe, hres⟩ := probeLoop_spec (by omega) h
    exact ⟨hquiet.trans hprobe, hres⟩
  · rw [runs_bind] at h
    obtain ⟨_, va₂, hreserve, h⟩ := h
    obtain ⟨hprobe, hres⟩ := probeLoop_spec (by omega) h
    exact ⟨(hquiet.trans (setStatics_quiet hreserve)).trans hprobe, hres⟩

end Kernel

section Grow

variable {va va' : VaBitmap}

theorem mapRadixTable_quiet {len : ℕ} {u : Unit} (h : Runs (mapRadixTable len) va u va') :
    Quiet va va' := by
  rw [mapRadixTable, runs_bind] at h
  obtain ⟨answer, va₁, hmmap, h⟩ := h
  have hquiet := (mmapMemory_spec hmmap).1
  cases answer with
  | some ptr => exact (runs_pure.mp h).2 ▸ hquiet
  | none => exact absurd h runs_throw

/-- The step leaves everything but the radix tree. -/
structure QuietList (va va' : VaBitmap) : Prop where
  segments : va'.segments = va.segments
  latest : va'.latestSegment = va.latestSegment
  once : va'.once = va.once

theorem Quiet.quietList (h : Quiet va va') : QuietList va va' := ⟨h.segments, h.latest, h.once⟩

theorem QuietList.trans {va₁ va₂ : VaBitmap} (h : QuietList va va₁) (h' : QuietList va₁ va₂) :
    QuietList va va₂ :=
  ⟨h'.segments.trans h.segments, h'.latest.trans h.latest, h'.once.trans h.once⟩

theorem initRadix_spec {u : Unit} (h : Runs initRadix va u va') :
    QuietList va va' ∧ va'.radix = some (va.radix.getD Radix.new) := by
  rw [initRadix, runs_get_bind] at h
  cases hradix : va.radix with
  | some r =>
    rw [hradix] at h
    have hva := (runs_pure.mp h).2
    rw [hva]
    exact ⟨⟨rfl, rfl, rfl⟩, hradix⟩
  | none =>
    simp only [hradix, runs_bind] at h
    obtain ⟨_, va₁, hmap, h⟩ := h
    rw [runs_modify] at h
    rw [h]
    exact ⟨(mapRadixTable_quiet hmap).quietList.trans ⟨rfl, rfl, rfl⟩, rfl⟩

theorem setRadix_spec {chunkIdx seg : ℕ} {u : Unit} {r : Radix} (hr : va.radix = some r)
    (h : Runs (setRadix chunkIdx seg) va u va') :
    QuietList va va' ∧ va'.radix = some (r.set chunkIdx seg) := by
  simp only [setRadix, runs_get_bind, hr] at h
  split at h
  · rw [runs_bind] at h
    obtain ⟨_, va₁, hmap, h⟩ := h
    rw [runs_modify] at h
    rw [h]
    exact ⟨(mapRadixTable_quiet hmap).quietList.trans ⟨rfl, rfl, rfl⟩, rfl⟩
  · rw [runs_modify] at h
    rw [h]
    exact ⟨⟨rfl, rfl, rfl⟩, rfl⟩

theorem setRange_spec {start seg n : ℕ} {u : Unit} {r : Radix} (hr : va.radix = some r)
    (h : Runs (setRange start seg n) va u va') :
    QuietList va va' ∧ va'.radix = some (Radix.setLoop r start seg n) := by
  induction n generalizing va' with
  | zero =>
    have hva := (runs_pure.mp h).2
    rw [hva]
    exact ⟨⟨rfl, rfl, rfl⟩, hr⟩
  | succ n ih =>
    rw [setRange, runs_bind] at h
    obtain ⟨u, va₁, hfirst, h⟩ := h
    obtain ⟨hquiet, hradix⟩ := ih hfirst
    obtain ⟨hquiet', hradix'⟩ := setRadix_spec hradix h
    exact ⟨hquiet.trans hquiet', hradix'⟩

/-- `grow` adds one empty segment for the reservation at the front of the list and
registers its chunks, which were free. -/
structure Grown (va : VaBitmap) (base size : ℕ) (ptr : ℕ) (va' : VaBitmap) : Prop where
  base_ne : base ≠ 0
  ptr_ne : ptr ≠ 0
  fresh : va.segmentAt ptr = none
  latest : va'.latestSegment = va.latestSegment
  once : va'.once = va.once
  segments : ∃ hint mapLen, hint * 64 ≤ size / blockSize ∧ va'.segments =
    ⟨ptr, base, base + size, Segment.zeros, Segment.zeros, hint, mapLen, false, 0⟩ :: va.segments
  radix : ∃ r, va.radix = some r ∧ r.checkCollision base size = false ∧
    va'.radix = some (r.setRange base size ptr)

theorem growWith_spec {base size : ℕ} {r : Option ℕ}
    (h : Runs (growWith base (base + size) size) va r va') :
    (r = none ∧ Quiet va va') ∨ ∃ ptr, r = some ptr ∧ Grown va base size ptr va' := by
  rw [growWith, runs_get_bind] at h
  cases hradix : va.radix with
  | none =>
    rw [hradix] at h
    exact absurd h runs_throw
  | some radix =>
    simp only [hradix] at h
    split at h
    · obtain ⟨hr, hva⟩ := runs_pure.mp h
      exact Or.inl ⟨hr, hva ▸ Quiet.refl va⟩
    · rename_i hfree
      rw [runs_bind] at h
      obtain ⟨mapRaw, va₁, hmap, h⟩ := h
      have hquiet₁ := (mmapMemory_spec hmap).1
      cases mapRaw with
      | none =>
        obtain ⟨hr, hva⟩ := runs_pure.mp h
        exact Or.inl ⟨hr, hva ▸ hquiet₁⟩
      | some mapRaw =>
        simp only [runs_bind] at h
        obtain ⟨claimRaw, va₂, hclaim, h⟩ := h
        have hquiet₂ := hquiet₁.trans (mmapMemory_spec hclaim).1
        cases claimRaw with
        | none =>
          obtain ⟨hr, hva⟩ := runs_pure.mp h
          exact Or.inl ⟨hr, hva ▸ hquiet₂⟩
        | some claimRaw =>
          simp only [runs_bind] at h
          obtain ⟨segRaw, va₃, hseg, h⟩ := h
          obtain ⟨hquiet, hfresh⟩ := mmapSegment_spec hseg
          have hquiet₃ := hquiet₂.trans hquiet
          cases segRaw with
          | none =>
            obtain ⟨hr, hva⟩ := runs_pure.mp h
            exact Or.inl ⟨hr, hva ▸ hquiet₃⟩
          | some ptr =>
            simp only [runs_bind, runs_modify, runs_pure] at h
            obtain ⟨_, va₄, hset, _, va₅, hpush, hr, hva⟩ := h
            obtain ⟨hlist, hradix₄⟩ := setRange_spec (hquiet₃.radix.trans hradix) hset
            obtain ⟨hne, hnew⟩ := hfresh ptr rfl
            refine Or.inr ⟨ptr, hr, fun hz => hfree (Or.inl hz), hne, ?_, ?_, ?_, ?_, ?_⟩
            · rwa [segmentAt, ← hquiet₂.segments]
            · rw [hva, hpush]
              exact hlist.latest.trans hquiet₃.latest
            · rw [hva, hpush]
              exact hlist.once.trans hquiet₃.once
            · rw [hva, hpush]
              refine ⟨seed base % ((size / blockSize + 63) / 64), (size / blockSize + 63) / 64, ?_,
                ?_⟩
              · -- the map is not empty, because it could be mapped
                have hlen := ((mmapMemory_spec hmap).2 mapRaw rfl).1
                have hlt := Nat.mod_lt (seed base)
                  (show 0 < (size / blockSize + 63) / 64 by omega)
                omega
              dsimp only
              rw [hlist.segments, hquiet₃.segments]
              rfl
            · refine ⟨radix, hradix, ?_, ?_⟩
              · exact Bool.eq_false_iff.mpr fun hc => hfree (Or.inr hc)
              · rw [hva, hpush]
                exact hradix₄

end Grow

end Oxidalloc.VaBitmap
