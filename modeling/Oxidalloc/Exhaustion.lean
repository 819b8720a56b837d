import Oxidalloc.Abi
import Oxidalloc.FreshReservation

/-!
What `VaBitmap::alloc` does when the kernel gives no more address space. A search that is
refused at every size clears `BASE_INIT` and returns nothing, which `grow` reports; but `alloc`
calls `grow` again, and a search that is refused while `BASE_INIT` is clear aborts the process,
as if it were the first one.
-/
namespace Oxidalloc.VaBitmap

open Interleaving KernelVa Programs Segment

/-- The tick of the first request of a search, after the random number. -/
def probeTick (va : VaBitmap) : ℕ := if va.statics.latestTried = 0 then va.tick else va.tick + 2

/-- The kernel grants one of the sizes that a search from the state asks for. -/
def Grants (va : VaBitmap) : Prop :=
  ∃ k, minReserve ≤ va.firstSize / 2 ^ k ∧
    CanReserve va.reserved (va.sys (va.probeTick + k)) (va.firstSize / 2 ^ k)

/-- A search from the state does not end the process: it is not refused entirely while
`BASE_INIT` is clear, and `BASE_HINT` is far enough from the end of the address space. -/
def Safe (va : VaBitmap) : Prop :=
  (va.statics.baseInit = true ∨ Grants va) ∧ va.statics.baseHint + 2 ^ 50 ≤ usizeBound

/-- The states in which a call of `alloc` calls `grow`, after the number of calls that failed. -/
inductive GrowsIn (size : ℕ) (va : VaBitmap) : ℕ → VaBitmap → Prop
  | first (va₁ mid : VaBitmap) (hhint : Runs (allocHinted (ceilBlocks size)) va none va₁)
    (hwalk : Runs (allocWalk (ceilBlocks size) (va₁.segments.map (·.ptr))) va₁ none mid) :
    GrowsIn size va 0 mid
  | again (tried : ℕ) (mid mid' : VaBitmap) (h : GrowsIn size va tried mid)
    (hgrow : Runs grow mid none mid') : GrowsIn size va (tried + 1) mid'

/-- Every search of a call of `alloc` is safe. -/
def SafeCall (size : ℕ) (va : VaBitmap) : Prop :=
  ∀ tried mid, tried < 10 → GrowsIn size va tried mid → Safe mid

section Search

variable {va va' : VaBitmap} {size fuel k : ℕ}

theorem mmapReserve_granted (h : CanReserve va.reserved (va.sys va.tick) size) :
    Runs (mmapReserve size) va (some (va.sys va.tick))
      { va with tick := va.tick + 1, reserved := (va.sys va.tick, size) :: va.reserved } := by
  rw [mmapReserve, runs_bind_iff (runs_draw_self va), runs_get_bind, if_pos h]
  exact runs_pure.mpr ⟨rfl, rfl⟩

theorem mmapReserve_refused (h : ¬ CanReserve va.reserved (va.sys va.tick) size) :
    Runs (mmapReserve size) va none { va with tick := va.tick + 1 } := by
  rw [mmapReserve, runs_bind_iff (runs_draw_self va), runs_get_bind, if_neg h]
  exact runs_pure.mpr ⟨rfl, rfl⟩

theorem addToBaseHint_runs (h : va.statics.baseHint + size < usizeBound) :
    Runs (addToBaseHint size) va ()
      { va with statics := { va.statics with baseHint := va.statics.baseHint + size } } := by
  rw [addToBaseHint, runs_get_bind, if_neg (by omega)]
  exact runs_modify.mpr rfl

theorem runs_setStatics (k : Statics) : Runs (setStatics k) va () { va with statics := k } := rfl

theorem probeLoop_granted (h : CanReserve va.reserved (va.sys va.tick) size)
    (hhint : va.statics.baseHint + size < usizeBound) : Ends (probeLoop (fuel + 1) size) va := by
  rw [probeLoop]
  refine ends_after (mmapReserve_granted h) ?_
  refine ends_after (runs_get.mpr ⟨rfl, rfl⟩) (ends_after (runs_setStatics _) (ends_ite ?_ ?_))
  · intro _
    exact ends_after (addToBaseHint_runs hhint) ends_pure
  · intro _
    exact ends_bind ends_modify fun _ _ _ => ends_pure

theorem probeLoop_refused (h : ¬ CanReserve va.reserved (va.sys va.tick) size)
    (hinit : size ≤ minReserve → va.statics.baseInit = true)
    (hhint : va.statics.baseHint + size < usizeBound)
    (hrest : ¬ size ≤ minReserve → Ends (probeLoop fuel (size / 2))
      { va with
        tick := va.tick + 1
        statics := { va.statics with baseHint := va.statics.baseHint + size } }) :
    Ends (probeLoop (fuel + 1) size) va := by
  rw [probeLoop]
  refine ends_after (mmapReserve_refused h) ?_
  refine ends_after (runs_get.mpr ⟨rfl, rfl⟩) (ends_ite ?_ fun _ => ends_ite ?_ ?_)
  · rintro ⟨hmin, hfalse⟩
    exact absurd (hinit hmin) (hfalse ▸ Bool.false_ne_true)
  · intro _
    exact ends_after (runs_setStatics _) ends_pure
  · intro hmin
    exact ends_after (addToBaseHint_runs hhint) (hrest hmin)

/-- The loop ends if `BASE_HINT` has room for the sizes and the kernel grants one of them, or
`BASE_INIT` is set. -/
theorem probeLoop_ends {j : ℕ} (hfuel : j < fuel)
    (hhint : va.statics.baseHint + 2 * 2 ^ (32 + j) ≤ usizeBound)
    (hsafe : va.statics.baseInit = true ∨
      ∃ k ≤ j, CanReserve va.reserved (va.sys (va.tick + k)) (2 ^ (32 + (j - k)))) :
    Ends (probeLoop fuel (2 ^ (32 + j))) va := by
  induction fuel generalizing va j with
  | zero => omega
  | succ fuel ih =>
    have hpos := Nat.two_pow_pos (32 + j)
    by_cases hcan : CanReserve va.reserved (va.sys va.tick) (2 ^ (32 + j))
    · exact probeLoop_granted hcan (by omega)
    refine probeLoop_refused hcan ?_ (by omega) ?_
    · intro hmin
      rw [pow_le_minReserve] at hmin
      refine hsafe.resolve_right ?_
      rintro ⟨k, hk, hgrant⟩
      obtain rfl : k = 0 := by omega
      exact hcan hgrant
    · intro hmin
      rw [pow_le_minReserve] at hmin
      obtain ⟨i, rfl⟩ : ∃ i, j = i + 1 := ⟨j - 1, by omega⟩
      have hhalf : 2 ^ (32 + (i + 1)) / 2 = 2 ^ (32 + i) := by
        rw [← Nat.add_assoc, Nat.pow_succ, Nat.mul_div_cancel _ Nat.two_pos]
      rw [hhalf]
      refine ih (by omega) ?_ (hsafe.imp id ?_)
      · rw [← Nat.add_assoc, Nat.pow_succ] at hhint
        rw [← Nat.add_assoc, Nat.pow_succ]
        dsimp only
        omega
      · rintro ⟨k, hk, hgrant⟩
        obtain ⟨m, rfl⟩ : ∃ m, k = m + 1 := by
          refine ⟨k - 1, ?_⟩
          by_contra hzero
          obtain rfl : k = 0 := by omega
          exact hcan hgrant
        refine ⟨m, by omega, ?_⟩
        rw [Nat.add_sub_add_right] at hgrant
        show CanReserve va.reserved (va.sys (va.tick + 1 + m)) _
        rwa [Nat.add_assoc, Nat.add_comm 1 m]

theorem alignTo_page {x : ℕ} (h : x + 4095 < usizeBound) :
    ∃ offset, alignTo x 4096 = .ok offset ∧ offset ≤ x + 4095 := by
  refine ⟨(x + 4095) / 4096 * 4096, (@alignTo_eq_ok x 12 _ (by decide)).mpr ⟨h, rfl⟩, ?_⟩
  exact Nat.div_mul_le_self _ _

/-- `randomize_base_hint` moves the hint by less than twice the largest size. -/
theorem randomizeBaseHint_runs (h : Sized va) (hsys : ∀ t, va.sys t ≠ 0)
    (hhint : va.statics.baseHint + 2 ^ 50 ≤ usizeBound) :
    ∃ hint, hint ≤ va.statics.baseHint + 2 ^ 49 ∧ Runs randomizeBaseHint va ()
      { va with tick := va.probeTick, statics := { va.statics with baseHint := hint } } := by
  rw [randomizeBaseHint]
  simp only [runs_get_bind]
  unfold probeTick
  by_cases hzero : va.statics.latestTried = 0
  · refine ⟨va.statics.baseHint, by omega, ?_⟩
    rw [if_pos hzero, if_pos hzero]
    exact runs_pure.mpr ⟨rfl, rfl⟩
  · have hrandom : Runs getrandom va (va.sys (va.tick + 1)) { va with tick := va.tick + 2 } := by
      rw [getrandom, runs_bind_iff (runs_draw_self va), if_neg (hsys va.tick)]
      exact runs_draw_self _
    have hlatest := (h.latest.resolve_left hzero).le
    have hmod := Nat.mod_lt (va.sys (va.tick + 1)) (Nat.pos_of_ne_zero hzero)
    unfold usizeBound at hhint
    obtain ⟨offset, halign, hoffset⟩ :=
      @alignTo_page (va.sys (va.tick + 1) % va.statics.latestTried) (by unfold usizeBound; omega)
    refine ⟨va.statics.baseHint + offset, by omega, ?_⟩
    rw [if_neg hzero, if_neg hzero, runs_bind_iff hrandom]
    refine runs_attempt_bind.mpr ⟨offset, halign, ?_⟩
    rw [Nat.mod_eq_of_lt (by unfold usizeBound; omega)]
    exact runs_setStatics _

theorem Grants.exists_power {j : ℕ} (h : Grants va) (hj : va.firstSize = 2 ^ (32 + j)) :
    ∃ k ≤ j, CanReserve va.reserved (va.sys (va.probeTick + k)) (2 ^ (32 + (j - k))) := by
  obtain ⟨k, hmin, hcan⟩ := h
  rw [hj] at hmin hcan
  have hk : k ≤ j := by
    by_contra hlt
    have hle : 2 ^ (32 + j) < 2 ^ 32 * 2 ^ k := by
      rw [← Nat.pow_add]
      exact Nat.pow_lt_pow_right (by decide) (by omega)
    exact absurd hmin (Nat.not_le.mpr (Nat.div_lt_of_lt_mul (by rwa [Nat.mul_comm])))
  refine ⟨k, hk, ?_⟩
  rwa [Nat.pow_div (by omega) Nat.two_pos, Nat.add_sub_assoc hk] at hcan

theorem getVaFromKernel_ends (h : Sized va) (hsys : ∀ t, va.sys t ≠ 0) (hsafe : Safe va) :
    Ends getVaFromKernel va := by
  obtain ⟨hgrants, hhint⟩ := hsafe
  obtain ⟨hint, hle, hrandom⟩ := randomizeBaseHint_runs h hsys hhint
  obtain ⟨k, hlo, hhi, hfirst⟩ := h.firstSize
  obtain ⟨j, rfl⟩ : ∃ j, k = 32 + j := ⟨k - 32, by omega⟩
  have hpow : 2 ^ (32 + j) ≤ 2 ^ 48 := Nat.pow_le_pow_right Nat.two_pos hhi
  have hends : ∀ reserve, Ends (probeLoop 64 (2 ^ (32 + j)))
      { va with
        tick := va.probeTick
        statics := { va.statics with baseHint := hint, reserve := reserve } } := by
    intro reserve
    refine probeLoop_ends (by omega) (by dsimp only; omega) ?_
    exact hgrants.imp id fun hg => hg.exists_power hfirst
  unfold VaBitmap.firstSize at hfirst
  rw [getVaFromKernel]
  refine ends_after hrandom (ends_after (runs_get.mpr ⟨rfl, rfl⟩) (ends_ite ?_ ?_))
  · intro hreserve
    rw [if_pos hreserve] at hfirst
    rw [hfirst]
    exact hends _
  · intro hreserve
    rw [if_neg hreserve] at hfirst
    refine ends_after (runs_setStatics _) ?_
    rw [hfirst]
    exact hends _

end Search

/-- The kernel answers `getrandom` and the requests for memory, and the tree exists. -/
structure Ready (va : VaBitmap) : Prop where
  answers : ∀ t, va.sys t ≠ 0
  radix : ∃ r, va.radix = some r

section Grow

variable {va va' : VaBitmap} {needed ptr len : ℕ} {r : Option ℕ} {u : Unit}

theorem Ready.of_eq (h : Ready va) (hsettings : settings va' = settings va)
    (hradix : ∃ r, va'.radix = some r) : Ready va' := by
  refine ⟨fun t => ?_, hradix⟩
  rw [show va'.sys = va.sys from congrArg (fun p => p.2.2) hsettings]
  exact h.answers t

theorem Ready.quiet (h : Ready va) (hsettings : settings va' = settings va)
    (hquiet : Quiet va va') :
    Ready va' :=
  h.of_eq hsettings (hquiet.radix ▸ h.radix)

theorem mmapMemory_ends : Ends (mmapMemory len) va :=
  ends_after (runs_draw_self va) ends_pure

theorem mmapSegment_ends : Ends mmapSegment va := by
  refine ends_bind mmapMemory_ends fun answer mid _ => ?_
  cases answer with
  | none => exact ends_pure
  | some ptr => exact ends_after (runs_get.mpr ⟨rfl, rfl⟩) ends_pure

theorem Ready.mapRadixTable_ends (h : Ready va) (hlen : len ≠ 0) : Ends (mapRadixTable len) va := by
  have hmap : Runs (mmapMemory len) va (some (va.sys va.tick)) { va with tick := va.tick + 1 } := by
    rw [mmapMemory, runs_bind_iff (runs_draw_self va), if_neg]
    · exact runs_pure.mpr ⟨rfl, rfl⟩
    · exact not_or.mpr ⟨hlen, h.answers va.tick⟩
  exact ends_after hmap ends_pure

theorem Ready.setRadix_ends (h : Ready va) (chunkIdx seg : ℕ) :
    Ends (setRadix chunkIdx seg) va := by
  obtain ⟨r, hr⟩ := h.radix
  refine ends_after (runs_get.mpr ⟨rfl, rfl⟩) ?_
  rw [hr]
  refine ends_ite (fun _ => ends_bind (h.mapRadixTable_ends (by decide)) fun _ _ _ =>
    ends_modify) ?_
  exact fun _ => ends_modify

theorem Ready.after_setRange (h : Ready va) {start seg n : ℕ}
    (hrun : Runs (setRange start seg n) va u va') :
    Ready va' := by
  obtain ⟨r, hr⟩ := h.radix
  exact h.of_eq (setRange_fixes start seg n va u va' hrun) ⟨_, (setRange_spec hr hrun).2⟩

theorem Ready.setRange_ends (h : Ready va) (start seg n : ℕ) : Ends (setRange start seg n) va := by
  induction n with
  | zero => exact ends_pure
  | succ n ih => exact ends_bind ih fun _ _ hrun => (h.after_setRange hrun).setRadix_ends _ _

theorem Ready.after_mmapMemory (h : Ready va) (hrun : Runs (mmapMemory len) va r va') : Ready va' :=
  h.quiet (mmapMemory_fixes len va r va' hrun) (mmapMemory_spec hrun).1

theorem Ready.growWith_ends (h : Ready va) (userVa endVa totalSize : ℕ) :
    Ends (growWith userVa endVa totalSize) va := by
  obtain ⟨radix, hr⟩ := h.radix
  refine ends_after (runs_get.mpr ⟨rfl, rfl⟩) ?_
  rw [hr]
  refine ends_ite (fun _ => ends_pure) fun _ => ends_bind mmapMemory_ends fun mapRaw va₁ hmap => ?_
  have hready₁ := h.after_mmapMemory hmap
  cases mapRaw with
  | none => exact ends_pure
  | some mapRaw =>
    refine ends_bind mmapMemory_ends fun claimRaw va₂ hclaim => ?_
    have hready₂ := hready₁.after_mmapMemory hclaim
    cases claimRaw with
    | none => exact ends_pure
    | some claimRaw =>
      refine ends_bind mmapSegment_ends fun segRaw va₃ hseg => ?_
      have hready₃ := hready₂.quiet (mmapSegment_fixes va₂ _ va₃ hseg) (mmapSegment_spec hseg).1
      cases segRaw with
      | none => exact ends_pure
      | some ptr =>
        refine ends_bind (hready₃.setRange_ends _ _ _) fun _ va₄ _ => ?_
        exact ends_bind ends_modify fun _ _ _ => ends_pure

/-- The search does not change the answers of the kernel. -/
theorem sys_of_settings {α : Type} {x : VaM α} (h : Fixes settings x) : Fixes sys x :=
  fun va a va' hrun => congrArg (fun p => p.2.2) (h va a va' hrun)

theorem randomizeBaseHint_sys : Fixes sys randomizeBaseHint := by
  refine fixes_get_bind fun va => fixes_ite fixes_pure ?_
  refine fixes_bind (sys_of_settings getrandom_fixes) fun rand => ?_
  exact fixes_bind fixes_attempt fun offset => fixes_modify fun _ => rfl

theorem addToBaseHint_sys (size : ℕ) : Fixes sys (addToBaseHint size) :=
  fixes_get_bind fun _ => fixes_ite fixes_throw (fixes_modify fun _ => rfl)

theorem setStatics_sys (k : Statics) : Fixes sys (setStatics k) := fixes_modify fun _ => rfl

theorem probeLoop_sys (fuel size : ℕ) : Fixes sys (probeLoop fuel size) := by
  induction fuel generalizing size with
  | zero => exact fixes_throw
  | succ fuel ih =>
    refine fixes_bind (sys_of_settings (mmapReserve_fixes size)) fun answer => ?_
    cases answer with
    | some output =>
      refine fixes_get_bind fun va => fixes_bind (setStatics_sys _) fun _ => fixes_ite ?_ ?_
      · exact fixes_bind (addToBaseHint_sys size) fun _ => fixes_pure
      · exact fixes_bind (fixes_modify fun _ => rfl) fun _ => fixes_pure
    | none =>
      refine fixes_get_bind fun va => fixes_ite fixes_throw (fixes_ite ?_ ?_)
      · exact fixes_bind (setStatics_sys _) fun _ => fixes_pure
      · exact fixes_bind (addToBaseHint_sys size) fun _ => ih _

theorem getVaFromKernel_sys : Fixes sys getVaFromKernel := by
  refine fixes_bind randomizeBaseHint_sys fun _ => fixes_get_bind fun va => ?_
  refine fixes_ite (probeLoop_sys _ _) ?_
  exact fixes_bind (setStatics_sys _) fun _ => probeLoop_sys _ _

theorem grow_sys : Fixes sys grow := by
  refine fixes_bind (sys_of_settings initRadix_fixes) fun _ => ?_
  exact fixes_bind getVaFromKernel_sys fun _ => sys_of_settings (growWith_fixes _ _ _)

theorem Ready.grow_ends (h : Ready va) (hsized : Sized va) (hsafe : Safe va) : Ends grow va := by
  obtain ⟨radix, hr⟩ := h.radix
  have hinit : Runs initRadix va () va := by
    rw [initRadix, runs_get_bind, hr]
    exact runs_pure.mpr ⟨rfl, rfl⟩
  refine ends_after hinit (ends_bind (getVaFromKernel_ends hsized h.answers hsafe) ?_)
  intro res mid hsearch
  refine Ready.growWith_ends ⟨fun t => ?_, ?_⟩ _ _ _
  · rw [getVaFromKernel_sys va res mid hsearch]
    exact h.answers t
  · rw [(getVaFromKernel_spec hsearch).1.radix]
    exact h.radix

end Grow

/-- What holds whenever `alloc` asks for more address space. -/
structure Standing (answers : ℕ → ℕ) (va : VaBitmap) : Prop where
  wf : Wf va
  sized : Sized va
  sys : va.sys = answers
  listed : va.segments ≠ []

section Alloc

variable {answers : ℕ → ℕ} {va va' : VaBitmap} {needed size tried : ℕ} {r : Option ℕ}

theorem Standing.ready (h : Standing answers va) (hanswers : ∀ t, answers t ≠ 0) : Ready va := by
  obtain ⟨s, hs⟩ := List.exists_mem_of_ne_nil _ h.listed
  exact ⟨fun t => h.sys ▸ hanswers t, h.wf.registered.exists_radix hs⟩

theorem Standing.of_outline (h : Standing answers va) (hwf : Wf va')
    (houtline : outline va' = outline va) : Standing answers va' := by
  have hsettings : settings va' = settings va := congrArg Prod.fst houtline
  have hptrs : va'.segments.map (·.ptr) = va.segments.map (·.ptr) := congrArg Prod.snd houtline
  refine ⟨hwf, h.sized.of_settings hsettings, ?_, fun hnil => h.listed ?_⟩
  · exact (congrArg (fun p => p.2.2) hsettings).trans h.sys
  · rw [hnil] at hptrs
    exact List.map_eq_nil_iff.mp hptrs.symm

theorem Standing.grow (h : Standing answers va) (hrun : Runs grow va none va') :
    Standing answers va' := by
  refine ⟨(grow_keeps h.wf hrun).wf, grow_sized va _ va' h.sized hrun, ?_, ?_⟩
  · exact (grow_sys va _ va' hrun).trans h.sys
  · rw [(grow_fresh h.sized hrun).1 rfl]
    exact h.listed

theorem GrowsIn.standing {mid : VaBitmap} (hgrows : GrowsIn size va tried mid)
    (h : Standing answers va) : Standing answers mid := by
  induction hgrows with
  | first va₁ mid hhint hwalk =>
    have hkeep : Keeps va va₁ := allocHinted_result h.wf hhint
    have h₁ := h.of_outline hkeep.wf (allocHinted_outline _ va _ va₁ hhint)
    have hkeep' : Keeps va₁ mid := allocWalk_result h₁.wf hwalk
    exact h₁.of_outline hkeep'.wf (allocWalk_outline _ _ va₁ _ mid hwalk)
  | again tried mid mid' _ hgrow ih => exact ih.grow hgrow

theorem Wf.allocIn_ends (h : Wf va) (hneeded : 0 < needed) {ptr : ℕ}
    (hptr : ptr ∈ va.segments.map (·.ptr)) : Ends (allocIn ptr needed) va := by
  obtain ⟨s, hs, rfl⟩ := List.mem_map.mp hptr
  obtain ⟨hsome, hnone⟩ := h.allocIn_runs hs hneeded
  by_cases hrun : s.HasRun needed
  · obtain ⟨addr, va', hfound⟩ := hsome hrun
    exact hfound.ends
  · exact (hnone hrun).ends

theorem Wf.allocWalk_ends (h : Wf va) (hneeded : 0 < needed) {ptrs : List ℕ}
    (hptrs : ∀ p ∈ ptrs, p ∈ va.segments.map (·.ptr)) : Ends (allocWalk needed ptrs) va := by
  induction ptrs generalizing va with
  | nil => exact ends_pure
  | cons ptr rest ih =>
    obtain ⟨t, ht, rfl⟩ := List.mem_map.mp (hptrs ptr List.mem_cons_self)
    by_cases hopen : t.full = false ∧ t.HasRun needed
    · obtain ⟨addr, va', hfound⟩ :=
        h.allocWalk_finds hneeded hptrs ht List.mem_cons_self hopen.1 hopen.2
      exact hfound.ends
    · have hnone : t.full = true ∨ ¬ t.HasRun needed := by
        by_cases hfull : t.full = true
        · exact Or.inl hfull
        · exact Or.inr fun hrun => hopen ⟨Bool.eq_false_of_not_eq_true hfull, hrun⟩
      obtain ⟨va', hwf, hsame, _, hwalk⟩ := h.passes ht hneeded hnone
      obtain ⟨r, va'', hrest⟩ := ih hwf fun p hp => hsame ▸ hptrs p (List.mem_cons_of_mem _ hp)
      exact ((hwalk rest _ _).mpr hrest).ends

/-- The retries end if every search of them is safe. -/
theorem GrowsIn.growRetry_ends {mid : VaBitmap} (hanswers : ∀ t, answers t ≠ 0)
    (h : Standing answers va) (hsafe : SafeCall size va) (hgrows : GrowsIn size va tried mid)
    (n : ℕ) (hn : tried + n = 10) : Ends (growRetry n) mid := by
  induction n generalizing tried mid with
  | zero => exact ends_pure
  | succ n ih =>
    have hmid := hgrows.standing h
    refine ends_bind ((hmid.ready hanswers).grow_ends hmid.sized
      (hsafe tried mid (by omega) hgrows)) ?_
    intro found mid' hgrow
    cases found with
    | some ptr => exact ends_pure
    | none => exact ih (.again tried mid mid' hgrows hgrow) (by omega)

theorem GrowsIn.allocGrown_ends {mid : VaBitmap} (hanswers : ∀ t, answers t ≠ 0)
    (h : Standing answers va) (hsafe : SafeCall size va) (hgrows : GrowsIn size va 0 mid)
    (hneeded : 0 < needed) : Ends (allocGrown needed) mid := by
  refine ends_bind (hgrows.growRetry_ends hanswers h hsafe 10 rfl) fun found mid' hretry => ?_
  cases found with
  | none => exact ends_pure
  | some ptr =>
    have hkeeps := growRetry_keeps (hgrows.standing h).wf hretry
    have hwf := (hkeeps.wf.keeps_of_segments (hkeeps.wf.registered.latest ptr) rfl).wf
    refine ends_bind ends_modify fun _ mid'' hlatest => ?_
    rw [runs_modify.mp hlatest]
    exact hwf.allocIn_ends hneeded ((growRetry_tracks hretry).2 ptr rfl)

theorem Standing.alloc_ends (hanswers : ∀ t, answers t ≠ 0) (h : Standing answers va)
    (hlisted : Listed va) (hsize : size < 2 ^ 63) (hsafe : SafeCall size va) :
    Ends (alloc size) va := by
  refine ends_ite (fun _ => ends_pure) fun hzero => ?_
  have hneeded := ceilBlocks_pos (Nat.pos_of_ne_zero hzero)
  refine ends_after (runs_attempt.mpr ⟨blocksOf_lt hsize, rfl⟩) ?_
  rcases h.wf.allocHinted_runs hlisted hneeded with ⟨addr, va₁, hhint⟩ | ⟨va₁, hhint, _, _⟩
  · exact ends_after hhint ends_pure
  · refine ends_after hhint ?_
    have hkeep : Keeps va va₁ := allocHinted_result h.wf hhint
    have h₁ := h.of_outline hkeep.wf (allocHinted_outline _ va _ va₁ hhint)
    obtain ⟨s, hs⟩ := List.exists_mem_of_ne_nil _ h₁.listed
    refine ends_after (growFirst_listed hs) (ends_after (runs_get.mpr ⟨rfl, rfl⟩) ?_)
    refine ends_bind (h₁.wf.allocWalk_ends hneeded fun _ hp => hp) fun walked mid hwalk => ?_
    cases walked with
    | some addr => exact ends_pure
    | none =>
      exact GrowsIn.allocGrown_ends hanswers h hsafe (.first va₁ mid hhint hwalk) hneeded

theorem run_standing {maxReservation : ℕ} {ops : List Op} {sys : System}
    (hmax : Asked maxReservation)
    (hrun : run step ⟨new maxReservation answers, []⟩ ops = some sys)
    (hlist : sys.va.segments ≠ []) : Standing answers sys.va := by
  refine ⟨(run_refines hrun).wf, run_sized hmax hrun, ?_, hlist⟩
  refine run_preserves (P := fun va => va.sys = answers) ?_ ?_ rfl hrun
  · intro va va' h heq
    exact (congrArg (fun p => p.1.2.2) heq).trans h
  · exact fun va r va' h hgrow => (grow_sys va r va' hgrow).trans h

end Alloc

/-- A big allocation for which there is no address space returns the null pointer. -/
theorem bigMalloc_refused {w : World} {payload total : ℕ} {va' : VaBitmap}
    (htotal : alignTo (payload + headerSize)
      (if w.forceThp then 1024 * 1024 * 2 else 4096) = .ok total)
    (hrun : Runs (alloc total) w.va none va') :
    Runs (bigMalloc payload) w 0 { w with va := va' } := by
  have hbig : Runs (bigTotal payload) w total w := by
    rw [bigTotal, CInterface.bigTotal, runs_read_bind]
    exact runs_attempt.mpr ⟨htotal, rfl⟩
  have halloc : Runs (onVa (alloc total)) w none { w with va := va' } :=
    runs_zoom.mpr ⟨va', hrun, rfl⟩
  rw [bigMalloc, CInterface.bigMalloc, runs_bind_iff hbig, runs_bind_iff halloc]
  exact runs_pure.mpr ⟨rfl, rfl⟩

/-- If every search of a call is safe, the call of `alloc` returns, and `big_malloc` returns
null if there is no address space. -/
theorem exhaustion_is_reported (env : Env) (boot : ℕ → ℕ) (w : World)
    (hboot : Runs initReverse (World.new env boot) () w) (answers : ℕ → ℕ)
    (hanswers : ∀ t, answers t ≠ 0) (ops : List Op) (sys : System)
    (hrun : run step ⟨new w.va.maxReservation answers, []⟩ ops = some sys)
    (hlist : sys.va.segments ≠ []) (size : ℕ) (hsize : size < 2 ^ 63)
    (hsafe : SafeCall size sys.va) :
    ∃ r va', Runs (alloc size) sys.va r va' ∧ (r = none → ∀ (w : World) (payload : ℕ),
      w.va = sys.va →
      alignTo (payload + headerSize) (if w.forceThp then 1024 * 1024 * 2 else 4096) = .ok size →
      Runs (bigMalloc payload) w 0 { w with va := va' }) := by
  have hstanding := run_standing (initReverse_asked hboot) hrun hlist
  obtain ⟨r, va', halloc⟩ := hstanding.alloc_ends hanswers (run_listed hrun) hsize hsafe
  refine ⟨r, va', halloc, ?_⟩
  rintro rfl w payload hva htotal
  exact bigMalloc_refused htotal (hva ▸ halloc)

theorem getD_ne_zero {l : List ℕ} (hall : ∀ x ∈ l, x ≠ 0) (t : ℕ) : l.getD t 1 ≠ 0 := by
  rw [List.getD_eq_getElem?_getD]
  cases h : l[t]? with
  | none => exact Nat.one_ne_zero
  | some x => exact hall x (List.mem_of_getElem? h)

/-- A call whose first `grow` succeeds makes one search only. -/
theorem safeCall_of_first {size ptr : ℕ} {va va₁ mid va' : VaBitmap}
    (hhint : Runs (allocHinted (ceilBlocks size)) va none va₁)
    (hwalk : Runs (allocWalk (ceilBlocks size) (va₁.segments.map (·.ptr))) va₁ none mid)
    (hgrow : Runs grow mid (some ptr) va') (hsafe : Safe mid) : SafeCall size va := by
  have hone : ∀ tried mid', GrowsIn size va tried mid' → mid' = mid := by
    intro tried mid' hgrows
    induction hgrows with
    | first va₂ mid₂ hhint' hwalk' =>
      obtain rfl := (hhint'.unique hhint).2
      exact (hwalk'.unique hwalk).2
    | again tried mid₂ mid₃ _ hgrow' ih => exact absurd ((ih ▸ hgrow').unique hgrow).1 nofun
  exact fun tried mid' _ hgrows => hone tried mid' hgrows ▸ hsafe

theorem exhaustion_is_reported_grown :
    ∃ sys r va', run step ⟨new defaultReservation (smallAnswers.getD · 1), []⟩ [.alloc 4096] =
      some sys ∧ Runs (alloc (2 ^ 62)) sys.va r va' := by
  have hresult : (run step ⟨new defaultReservation (smallAnswers.getD · 1), []⟩ [.alloc 4096]).bind
      (fun sys => (outcome (allocHinted (ceilBlocks (2 ^ 62))) sys.va).bind fun x =>
        (outcome (allocWalk (ceilBlocks (2 ^ 62)) (x.2.segments.map (·.ptr))) x.2).bind fun y =>
          (outcome grow y.2).map fun z => (sys.va.segments.isEmpty, x.1, y.1, z.1,
            y.2.statics.baseInit, decide (y.2.statics.baseHint + 2 ^ 50 ≤ usizeBound))) =
      some (false, none, none, some 101, true, true) := by
    decide +kernel
  obtain ⟨sys, hrun, hresult⟩ := Option.bind_eq_some_iff.mp hresult
  obtain ⟨⟨r₁, va₁⟩, hhint, hresult⟩ := Option.bind_eq_some_iff.mp hresult
  obtain ⟨⟨r₂, mid⟩, hwalk, hresult⟩ := Option.bind_eq_some_iff.mp hresult
  obtain ⟨⟨r₃, va₃⟩, hgrow, heq⟩ := Option.map_eq_some_iff.mp hresult
  simp only [Prod.mk.injEq] at heq
  obtain ⟨hlist, rfl, rfl, rfl, hinit, hbound⟩ := heq
  have hsafe : SafeCall (2 ^ 62) sys.va :=
    safeCall_of_first (outcome_eq_some.mp hhint) (outcome_eq_some.mp hwalk)
      (outcome_eq_some.mp hgrow) ⟨Or.inl hinit, of_decide_eq_true hbound⟩
  obtain ⟨r, va', halloc, _⟩ := exhaustion_is_reported ⟨none, none, 1⟩ (smallAnswers.getD · 1) _ rfl
    (smallAnswers.getD · 1) (getD_ne_zero (by decide)) [.alloc 4096] sys hrun
    (fun hnil => by simp [hnil] at hlist) (2 ^ 62) (by decide) hsafe
  exact ⟨sys, r, va', hrun, halloc⟩

/-- Answers of a kernel that gives one reservation and then none. -/
def refusingAnswers : List ℕ := [1, 1099511627776, 1, 1, 100, 1, 5]

/-- The second segment is refused: the first search reports it, the second one aborts. -/
theorem second_refusal_aborts :
    ∃ sys, run step ⟨new defaultReservation (refusingAnswers.getD · 1), []⟩
      [.alloc 4096] = some sys ∧
      sys.va.segments ≠ [] ∧ (∀ t, refusingAnswers.getD t 1 ≠ 0) ∧
      alloc (2 ^ 62) sys.va = .error (.abort .vaIinitFailed
        "Init failed during Segment Allocation: No available VA reserve") := by
  have hresult : (run step ⟨new defaultReservation (refusingAnswers.getD · 1), []⟩
      [.alloc 4096]).map (fun sys => (sys.va.segments.isEmpty, errorOf (alloc (2 ^ 62)) sys.va)) =
      some (false, some (.abort .vaIinitFailed
        "Init failed during Segment Allocation: No available VA reserve")) := by
    decide +kernel
  obtain ⟨sys, hrun, heq⟩ := Option.map_eq_some_iff.mp hresult
  simp only [Prod.mk.injEq] at heq
  obtain ⟨hlist, hfails⟩ := heq
  exact ⟨sys, hrun, fun hnil => by simp [hnil] at hlist, getD_ne_zero (by decide),
    errorOf_eq_some.mp hfails⟩

end Oxidalloc.VaBitmap
