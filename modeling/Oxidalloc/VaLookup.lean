import Mathlib.Data.List.Nodup
import Oxidalloc.Interleaving
import Oxidalloc.VaBitmapSpec

/-!
Which segment an address belongs to. `Registered` ties the radix tree to the list:
a chunk leads to a segment exactly if the segment reaches into the chunk. It holds
after any sequence of `grow` calls, since `check_collision` refuses a reservation
whose chunks are taken or beyond the tree, and makes the three ways of looking an
address up agree.
-/
namespace Oxidalloc.VaBitmap

open Interleaving Programs

/-- The chunks into which the segment reaches. -/
def InChunk (s : Segment) (k : ℕ) : Prop :=
  s.vaStart / chunkSize ≤ k ∧ k ≤ (s.vaEnd - 1) / chunkSize

structure Registered (va : VaBitmap) : Prop where
  ptr_ne : ∀ s ∈ va.segments, s.ptr ≠ 0
  nodup : (va.segments.map (·.ptr)).Nodup
  bounds : ∀ s ∈ va.segments, s.vaStart < s.vaEnd ∧ s.vaEnd < usizeBound
  empty : va.radix = none → va.segments = []
  chunks : ∀ r, va.radix = some r → ∀ k p,
    r.get k = some p ↔ ∃ s ∈ va.segments, s.ptr = p ∧ InChunk s k

theorem find?_eq_some_iff_of_unique {α : Type*} {test : α → Bool} {l : List α}
    (hunique : ∀ a ∈ l, ∀ b ∈ l, test a = true → test b = true → a = b) {a : α} :
    l.find? test = some a ↔ a ∈ l ∧ test a = true := by
  constructor
  · intro h
    exact ⟨List.mem_of_find?_eq_some h, List.find?_some h⟩
  · intro h
    cases hfind : l.find? test with
    | none => exact absurd h.2 (List.find?_eq_none.mp hfind a h.1)
    | some b =>
      have hb := hunique b (List.mem_of_find?_eq_some hfind) a h.1 (List.find?_some hfind) h.2
      rw [hb]

section Lookup

variable {va : VaBitmap} {s t : Segment} {addr : ℕ}

theorem Registered.ptr_injective (h : Registered va) (hs : s ∈ va.segments)
    (ht : t ∈ va.segments) (hptr : s.ptr = t.ptr) : s = t :=
  List.inj_on_of_nodup_map h.nodup hs ht hptr

theorem Registered.segmentAt_iff (h : Registered va) {ptr : ℕ} :
    va.segmentAt ptr = some s ↔ s ∈ va.segments ∧ s.ptr = ptr := by
  rw [segmentAt, find?_eq_some_iff_of_unique, decide_eq_true_iff]
  intro a ha b hb hap hbp
  exact h.ptr_injective ha hb
    ((decide_eq_true_iff.mp hap).trans (decide_eq_true_iff.mp hbp).symm)

theorem inChunk_of_inSegment (h : InSegment s addr) : InChunk s (addr / chunkSize) :=
  ⟨Nat.div_le_div_right h.1, Nat.div_le_div_right (Nat.le_sub_one_of_lt h.2)⟩

/-- An address leads through the radix tree to the segment that holds it. -/
theorem Registered.getSegment_eq (h : Registered va) {r : Radix} (hr : va.radix = some r)
    (hs : s ∈ va.segments) (haddr : InSegment s addr) : r.getSegment addr = s.ptr := by
  have hget := (h.chunks r hr (addr / chunkSize) s.ptr).mpr
    ⟨s, hs, rfl, inChunk_of_inSegment haddr⟩
  rw [Radix.getSegment, hget]
  rfl

theorem Registered.exists_radix (h : Registered va) (hs : s ∈ va.segments) :
    ∃ r, va.radix = some r := by
  cases hr : va.radix with
  | some r => exact ⟨r, rfl⟩
  | none =>
    rw [h.empty hr] at hs
    contradiction

/-- No two segments hold the same address. -/
theorem Registered.inSegment_unique (h : Registered va) (hs : s ∈ va.segments)
    (ht : t ∈ va.segments) (hsa : InSegment s addr) (hta : InSegment t addr) : s = t := by
  obtain ⟨r, hr⟩ := h.exists_radix hs
  apply h.ptr_injective hs ht
  rw [← h.getSegment_eq hr hs hsa, h.getSegment_eq hr ht hta]

theorem Registered.walkLookup_iff (h : Registered va) :
    va.walkLookup addr = some s ↔ s ∈ va.segments ∧ InSegment s addr := by
  rw [walkLookup, find?_eq_some_iff_of_unique, decide_eq_true_iff]
  intro a ha b hb hain hbin
  exact h.inSegment_unique ha hb (decide_eq_true_iff.mp hain) (decide_eq_true_iff.mp hbin)

theorem Registered.isOurs_iff (h : Registered va) :
    va.isOurs addr = true ↔ ∃ s ∈ va.segments, InSegment s addr := by
  unfold isOurs
  constructor
  · intro hours
    split at hours
    · contradiction
    · split at hours
      · contradiction
      · rename_i s hfind
        exact ⟨s, (h.segmentAt_iff.mp hfind).1, decide_eq_true_iff.mp hours⟩
  · intro hin
    obtain ⟨s, hs, haddr⟩ := hin
    obtain ⟨r, hr⟩ := h.exists_radix hs
    have hfind : va.segmentAt (r.getSegment addr) = some s :=
      h.segmentAt_iff.mpr ⟨hs, (h.getSegment_eq hr hs haddr).symm⟩
    simp only [hr, hfind]
    exact decide_eq_true haddr

theorem Registered.radixLookup_iff (h : Registered va) :
    va.radixLookup addr = .ok (some s) ↔ s ∈ va.segments ∧ InSegment s addr := by
  unfold radixLookup
  constructor
  · intro hlook
    split at hlook
    · contradiction
    · split at hlook
      · exact absurd (Except.ok.inj hlook) nofun
      · split at hlook
        · contradiction
        · rename_i t hfind
          have heq := Except.ok.inj hlook
          split at heq
          · rename_i haddr
            have hst := Option.some.inj heq
            subst hst
            exact ⟨(h.segmentAt_iff.mp hfind).1, haddr⟩
          · contradiction
  · intro hin
    obtain ⟨hs, haddr⟩ := hin
    obtain ⟨r, hr⟩ := h.exists_radix hs
    have hptr := h.getSegment_eq hr hs haddr
    have hfind : va.segmentAt (r.getSegment addr) = some s := h.segmentAt_iff.mpr ⟨hs, hptr.symm⟩
    have hne : r.getSegment addr ≠ 0 := hptr ▸ h.ptr_ne s hs
    simp only [hr, if_neg hne, hfind, if_pos haddr]

theorem Registered.radixLookup_eq_walkLookup (h : Registered va) :
    va.radixLookup addr = .ok (some s) ↔ va.walkLookup addr = some s :=
  h.radixLookup_iff.trans h.walkLookup_iff.symm

end Lookup

section Runs

variable {va va' : VaBitmap}

theorem registered_new (maxReservation : ℕ) (sys : ℕ → ℕ) :
    Registered (new maxReservation sys) := by
  refine ⟨?_, List.nodup_nil, ?_, fun _ => rfl, ?_⟩
  · intro s hs
    contradiction
  · intro s hs
    contradiction
  · intro r hr
    contradiction

theorem Registered.quiet (h : Registered va) (hq : Quiet va va') : Registered va' := by
  obtain ⟨hsegments, hradix, _, _⟩ := hq
  refine ⟨?_, ?_, ?_, ?_, ?_⟩
  · rw [hsegments]
    exact h.ptr_ne
  · rw [hsegments]
    exact h.nodup
  · rw [hsegments]
    exact h.bounds
  · rw [hsegments, hradix]
    exact h.empty
  · rw [hsegments, hradix]
    exact h.chunks

theorem Registered.latest (h : Registered va) (ptr : ℕ) :
    Registered { va with latestSegment := ptr } :=
  ⟨h.ptr_ne, h.nodup, h.bounds, h.empty, h.chunks⟩

theorem Registered.once (h : Registered va) : Registered { va with once := true } :=
  ⟨h.ptr_ne, h.nodup, h.bounds, h.empty, h.chunks⟩

theorem initRadix_registered {u : Unit} (h : Registered va) (hrun : Runs initRadix va u va') :
    Registered va' := by
  obtain ⟨hlist, hradix⟩ := initRadix_spec hrun
  refine ⟨?_, ?_, ?_, ?_, ?_⟩
  · rw [hlist.segments]
    exact h.ptr_ne
  · rw [hlist.segments]
    exact h.nodup
  · rw [hlist.segments]
    exact h.bounds
  · intro hnone
    rw [hradix] at hnone
    contradiction
  · intro r hr k p
    rw [hlist.segments]
    rw [hradix] at hr
    have hr := Option.some.inj hr
    cases hold : va.radix with
    | some r₀ =>
      rw [hold, Option.getD_some] at hr
      rw [← hr]
      exact h.chunks r₀ hold k p
    | none =>
      rw [hold, Option.getD_none] at hr
      rw [← hr, Radix.get_new, h.empty hold]
      simp

theorem chunk_of_reservation {base size k : ℕ} (hsize : 0 < size)
    (hfits : base + size < usizeBound) :
    (Radix.startIdx base ≤ k ∧ k ≤ Radix.endIdx base size) ↔
      (base / chunkSize ≤ k ∧ k ≤ (base + size - 1) / chunkSize) := by
  have hend : min (base + (size - 1)) (usizeBound - 1) = base + size - 1 := by omega
  rw [Radix.startIdx, Radix.endIdx, hend]

theorem Grown.registered {base size ptr : ℕ} (h : Registered va) (hsize : 0 < size)
    (hfits : base + size < usizeBound) (hgrown : Grown va base size ptr va') :
    Registered va' := by
  obtain ⟨hint, mapLen, _, hsegments⟩ := hgrown.segments
  obtain ⟨r, hr, hfree, hradix⟩ := hgrown.radix
  obtain ⟨hend, hnone⟩ := (r.checkCollision_eq_false_iff base size).mp hfree
  have hnew : ∀ s ∈ va.segments, s.ptr ≠ ptr := by
    intro s hs heq
    have hfind := h.segmentAt_iff.mpr ⟨hs, heq⟩
    rw [hgrown.fresh] at hfind
    contradiction
  refine ⟨?_, ?_, ?_, ?_, ?_⟩
  · rw [hsegments]
    intro s hs
    rcases List.mem_cons.mp hs with heq | hold
    · rw [heq]
      exact hgrown.ptr_ne
    · exact h.ptr_ne s hold
  · rw [hsegments, List.map_cons, List.nodup_cons]
    refine ⟨fun hmem => ?_, h.nodup⟩
    obtain ⟨s, hs, heq⟩ := List.mem_map.mp hmem
    exact hnew s hs heq
  · rw [hsegments]
    intro s hs
    rcases List.mem_cons.mp hs with heq | hold
    · rw [heq]
      exact ⟨by dsimp only; omega, hfits⟩
    · exact h.bounds s hold
  · intro hcontra
    rw [hradix] at hcontra
    contradiction
  · intro r' hr' k p
    rw [hradix] at hr'
    have heq := Option.some.inj hr'
    rw [← heq, r.get_setRange hgrown.ptr_ne (by omega) hend]
    have hchunk := @chunk_of_reservation base size k hsize hfits
    split
    · -- the chunk is new, so no older segment reaches into it
      rename_i hin
      have hother : ∀ s ∈ va.segments, ¬ InChunk s k := by
        intro s hs hs'
        have hget := (h.chunks r hr k s.ptr).mpr ⟨s, hs, rfl, hs'⟩
        rw [hnone k hin.1 hin.2] at hget
        contradiction
      rw [hsegments, Option.some.injEq]
      constructor
      · intro hp
        exact ⟨_, List.mem_cons_self, hp, hchunk.mp hin⟩
      · intro hex
        obtain ⟨s, hs, hp, hk⟩ := hex
        rcases List.mem_cons.mp hs with heq | hold
        · rw [heq] at hp
          exact hp
        · exact absurd hk (hother s hold)
    · rename_i hout
      rw [h.chunks r hr k p, hsegments]
      constructor
      · intro hex
        obtain ⟨s, hs, hp, hk⟩ := hex
        exact ⟨s, List.mem_cons_of_mem _ hs, hp, hk⟩
      · intro hex
        obtain ⟨s, hs, hp, hk⟩ := hex
        rcases List.mem_cons.mp hs with heq | hold
        · rw [heq] at hk
          exact absurd (hchunk.mpr hk) hout
        · exact ⟨s, hold, hp, hk⟩

/-- The entry of the radix tree for a chunk, none while there is no tree. -/
def radixEntry (va : VaBitmap) (k : ℕ) : Option ℕ := va.radix.bind fun r => r.get k

def EntriesKept (va va' : VaBitmap) : Prop :=
  ∀ k p, va.radixEntry k = some p → va'.radixEntry k = some p

theorem initRadix_entriesKept {u : Unit} (hrun : Runs initRadix va u va') :
    EntriesKept va va' := by
  obtain ⟨_, hradix⟩ := initRadix_spec hrun
  intro k p hentry
  obtain ⟨r, hr, hget⟩ := Option.bind_eq_some_iff.mp hentry
  rw [hr, Option.getD_some] at hradix
  rw [radixEntry, hradix]
  exact hget

theorem Grown.entriesKept {base size ptr : ℕ} (hfits : base + size < usizeBound)
    (hgrown : Grown va base size ptr va') : EntriesKept va va' := by
  obtain ⟨r, hr, hfree, hradix⟩ := hgrown.radix
  obtain ⟨hend, hnone⟩ := (r.checkCollision_eq_false_iff base size).mp hfree
  intro k p hentry
  rw [radixEntry, hr] at hentry
  have hget : r.get k = some p := hentry
  rw [radixEntry, hradix]
  show (r.setRange base size ptr).get k = some p
  rw [r.get_setRange hgrown.ptr_ne (by omega) hend]
  split
  · rename_i hin
    rw [hnone k hin.1 hin.2] at hget
    contradiction
  · exact hget

end Runs

/-- A reservation a kernel may return to `grow`: any page aligned base and any
size that fit into the address space. -/
structure Reservation where
  base : ℕ
  size : ℕ
  aligned : base % 4096 = 0
  pos : 0 < size
  fits : base + size < usizeBound

/-- A call of `grow`, with the search of `get_va_from_kernel` or with a given
outcome of it. -/
inductive GrowCall where
  | searched
  | given (res : Option Reservation)

def growCall : GrowCall → VaM (Option ℕ)
  | .searched => grow
  | .given none => do
    initRadix
    growWith 0 0 0
  | .given (some res) => do
    initRadix
    growWith res.base (res.base + res.size) res.size

/-- One call; the run ends with a call that aborts. -/
def growStep (va : VaBitmap) (call : GrowCall) : Option VaBitmap :=
  match growCall call va with
  | .ok (_, va') => some va'
  | .error _ => none

section Steps

variable {va va' : VaBitmap}

theorem growWith_null {r : Option ℕ} (h : Runs (growWith 0 0 0) va r va') :
    r = none ∧ Quiet va va' := by
  rw [growWith, runs_get_bind] at h
  split at h
  · exact absurd h runs_throw
  · rw [if_pos (Or.inl rfl)] at h
    obtain ⟨hr, hva⟩ := runs_pure.mp h
    exact ⟨hr, hva ▸ Quiet.refl va⟩

/-- The part of `grow` after `get_va_from_kernel`, for whatever that returned. -/
theorem growWith_registered {res : ℕ × ℕ × ℕ} {r : Option ℕ} (h : Registered va)
    (hres : IsReservation res) (hrun : Runs (growWith res.1 res.2.1 res.2.2) va r va') :
    Registered va' ∧ EntriesKept va va' := by
  have hquiet : Quiet va va' → Registered va' ∧ EntriesKept va va' := by
    intro hq
    refine ⟨h.quiet hq, fun k p hentry => ?_⟩
    rwa [radixEntry, hq.radix]
  rcases hres with hnull | ⟨base, size, heq, _, hsize, hfits⟩
  · rw [hnull] at hrun
    exact hquiet (growWith_null hrun).2
  · rw [heq] at hrun
    rcases growWith_spec hrun with ⟨_, hq⟩ | ⟨ptr, _, hgrown⟩
    · exact hquiet hq
    · exact ⟨hgrown.registered h hsize hfits, hgrown.entriesKept hfits⟩

theorem growCall_spec {call : GrowCall} {r : Option ℕ} (h : Registered va)
    (hrun : Runs (growCall call) va r va') : Registered va' ∧ EntriesKept va va' := by
  have hparts : ∃ res mid mid' u, IsReservation res ∧ Runs initRadix va u mid ∧
      Quiet mid mid' ∧ Runs (growWith res.1 res.2.1 res.2.2) mid' r va' := by
    cases call with
    | searched =>
      rw [growCall, grow, runs_bind] at hrun
      obtain ⟨u, mid, hinit, hrun⟩ := hrun
      rw [runs_bind] at hrun
      obtain ⟨res, mid', hsearch, hrun⟩ := hrun
      obtain ⟨hquiet, hres⟩ := getVaFromKernel_spec hsearch
      exact ⟨res, mid, mid', u, hres, hinit, hquiet, hrun⟩
    | given res =>
      cases res with
      | none =>
        rw [growCall, runs_bind] at hrun
        obtain ⟨u, mid, hinit, hrun⟩ := hrun
        exact ⟨(0, 0, 0), mid, mid, u, Or.inl rfl, hinit, Quiet.refl mid, hrun⟩
      | some res =>
        rw [growCall, runs_bind] at hrun
        obtain ⟨u, mid, hinit, hrun⟩ := hrun
        exact ⟨(res.base, res.base + res.size, res.size), mid, mid, u,
          Or.inr ⟨res.base, res.size, rfl, res.aligned, res.pos, res.fits⟩, hinit,
          Quiet.refl mid, hrun⟩
  obtain ⟨res, mid, mid', u, hres, hinit, hquiet, hgrow⟩ := hparts
  have hmid := (initRadix_registered h hinit).quiet hquiet
  obtain ⟨hregistered, hkept⟩ := growWith_registered hmid hres hgrow
  refine ⟨hregistered, fun k p hentry => hkept k p ?_⟩
  rw [radixEntry, hquiet.radix]
  exact initRadix_entriesKept hinit k p hentry

theorem growStep_spec {call : GrowCall} (h : Registered va) (hstep : growStep va call = some va') :
    Registered va' ∧ EntriesKept va va' := by
  unfold growStep at hstep
  split at hstep
  · rename_i r mid hrun
    have heq := Option.some.inj hstep
    subst heq
    exact growCall_spec h hrun
  · contradiction

theorem run_registered {calls : List GrowCall} (h : Registered va)
    (hrun : run growStep va calls = some va') : Registered va' ∧ EntriesKept va va' := by
  induction calls generalizing va with
  | nil =>
    have heq := Option.some.inj hrun
    subst heq
    exact ⟨h, fun _ _ hentry => hentry⟩
  | cons call rest ih =>
    obtain ⟨mid, hmid, hrest⟩ := run_cons hrun
    obtain ⟨hregistered, hkept⟩ := growStep_spec h hmid
    obtain ⟨hregistered', hkept'⟩ := ih hregistered hrest
    exact ⟨hregistered', fun k p hentry => hkept' k p (hkept k p hentry)⟩

end Steps

/-- After any sequence of `grow` calls, `is_ours` holds exactly of the addresses in
the listed segments, the radix entries never change again, and the radix path of
`free` and `realloc_inplace` finds the segment that the walk over the list finds. -/
theorem lookup_exact (maxReservation : ℕ) (sys : ℕ → ℕ) (calls later : List GrowCall)
    (va va' : VaBitmap) (hrun : run growStep (new maxReservation sys) calls = some va)
    (hlater : run growStep va later = some va') :
    (∀ addr, va.isOurs addr = true ↔ ∃ s ∈ va.segments, InSegment s addr) ∧
      (∀ k p, va.radixEntry k = some p → va'.radixEntry k = some p) ∧
      ∀ addr s, va.radixLookup addr = .ok (some s) ↔ va.walkLookup addr = some s := by
  have hregistered := (run_registered (registered_new maxReservation sys) hrun).1
  refine ⟨fun addr => hregistered.isOurs_iff, ?_, fun addr s =>
    hregistered.radixLookup_eq_walkLookup⟩
  exact (run_registered hregistered hlater).2

def lowReservation : Reservation := ⟨2 ^ 32 + 4096, 8192, rfl, by decide, by decide⟩

def highReservation : Reservation := ⟨2 ^ 33 - 4096, 8192, rfl, by decide, by decide⟩

/-- The second reservation reaches into the chunk of the first and is refused. -/
theorem lookup_exact_shared_chunk :
    ∃ va va', run growStep (new 0 (· + 1)) [.given (some lowReservation)] = some va ∧
      run growStep va [.given (some highReservation)] = some va' ∧
      va'.segments.length = 1 ∧ va.isOurs (2 ^ 32 + 4096) = true ∧
      ∀ k p, va.radixEntry k = some p → va'.radixEntry k = some p := by
  refine ⟨_, _, rfl, rfl, rfl, rfl, ?_⟩
  exact (lookup_exact 0 (· + 1) [.given (some lowReservation)] [.given (some highReservation)]
    _ _ rfl rfl).2.1

end Oxidalloc.VaBitmap
