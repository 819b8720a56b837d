import Oxidalloc.RecordCalls

/-!
No call on live pointers misses the entry of a big block, and none reads the tables of the
size classes beyond their end. The virtual address map is any oracle whose ranges cover no
header of a live or cached block.
-/
namespace Oxidalloc.Records

open Hashmap Programs Interleaving ByteMemory

variable {o : Oracle} {s s' : State} {n r header size cls newCls cap ptr addr len : ℕ}

/-- A call ends neither with a missing entry nor with an index out of range. -/
def Stop.Ordinary : Stop → Prop
  | .halt _ => True
  | _ => False

section Kernel

theorem total_draw : Total (draw o) := fun _ _ => nofun

theorem total_vaAlloc {owner : ℕ → Owner} : Total (vaAlloc o size owner) :=
  total_bind total_draw fun _ => total_bind total_get fun _ =>
    total_ite total_pure (total_bind total_set fun _ => total_pure)

theorem total_vaFree : Total (vaFree addr len) := total_ite total_pure total_modify

theorem total_vaResize {old new : ℕ} : Total (vaResize o header old new) :=
  total_ite total_pure (total_ite (total_bind total_modify fun _ => total_pure)
    (total_bind total_draw fun _ => total_bind total_get fun _ =>
      total_ite total_pure (total_bind total_set fun _ => total_pure)))

theorem total_vaReallocInplace {old new : ℕ} : Total (vaReallocInplace o header old new) := by
  refine total_bind total_vaResize fun found => ?_
  cases found with
  | none => exact total_pure
  | some size => exact total_bind total_modify fun _ => total_pure

theorem total_discard : Total (discard o addr len) :=
  total_bind total_modify fun _ => total_bind total_draw fun _ =>
    total_ite (total_bind total_modify fun _ => total_pure) total_pure

theorem total_advise : Total (advise o) := total_bind total_draw fun _ => total_pure

theorem total_permit : Total (permit o addr len) :=
  total_bind total_draw fun _ => total_ite (total_bind total_modify fun _ => total_pure) total_pure

theorem total_forbid : Total (forbid o addr len) := total_bind total_modify fun _ => total_advise

theorem total_mmapFixed : Total (mmapFixed o addr len) :=
  total_bind total_draw fun _ => total_ite (total_bind total_modify fun _ => total_pure) total_pure

theorem total_wipe [Layout] : Total (wipe o addr len) :=
  total_bind total_discard fun _ => total_ite total_pure total_modify

theorem total_commit [Layout] : Total (commit o addr len) :=
  total_bind total_permit fun _ => total_ite total_pure total_mmapFixed

theorem total_adviseIfHuge [Layout] {advice : Advice} : Total (adviseIfHuge o addr len advice) :=
  total_ite total_advise total_pure

theorem total_bigRemove : Total (bigRemove header) :=
  total_bind total_get fun _ => total_bind total_set fun _ => total_pure

theorem total_adopt {raw : ℕ} : Total (adopt ptr raw size) := total_ite total_pure total_modify

theorem total_forget : Total (forget ptr) := total_modify

theorem total_rebind {raw : ℕ} : Total (rebind ptr raw size) :=
  total_ite total_pure (total_bind total_forget fun _ => total_bind total_adopt fun _ => total_pure)

end Kernel

section Ordinary

theorem ordinary_check {α : Type} (x : Except Halt α) : FailsOnly Stop.Ordinary (check x) s := by
  refine failsOnly_attempt fun e he => ?_
  cases x with
  | error h =>
    rw [← Except.error.inj he]
    trivial
  | ok a => exact absurd he nofun

theorem ordinary_lookup {table : List ℕ} (h : cls < table.length) :
    FailsOnly Stop.Ordinary (lookup table cls) s := by
  rw [lookup, List.getElem?_eq_getElem h]
  exact failsOnly_pure

theorem ordinary_validatePtrForAbi : FailsOnly Stop.Ordinary (validatePtrForAbi header) s := by
  refine failsOnly_bind total_get.failsOnly fun w s₁ _ => ?_
  split
  · exact failsOnly_throw trivial
  · exact failsOnly_ite (fun _ => failsOnly_pure) fun _ => failsOnly_throw trivial

theorem ordinary_classOf : FailsOnly Stop.Ordinary (classOf header) s := by
  refine failsOnly_bind total_get.failsOnly fun w s₁ _ => ?_
  split
  · exact failsOnly_throw trivial
  · exact failsOnly_pure

theorem ordinary_resolve : FailsOnly Stop.Ordinary (resolve ptr) s := by
  refine failsOnly_bind total_get.failsOnly fun w s₁ _ => ?_
  split
  · exact failsOnly_pure
  · exact failsOnly_throw trivial

theorem ordinary_bigInsert : FailsOnly Stop.Ordinary (bigInsert o header size) s :=
  failsOnly_bind total_draw.failsOnly fun _ _ _ => failsOnly_bind total_get.failsOnly fun _ _ _ =>
    failsOnly_bind (ordinary_check _) fun _ _ _ => total_set.failsOnly

variable [Layout]

theorem total_link : Total (link o cls) :=
  total_bind total_draw fun _ => total_bind total_get fun _ => total_pure

theorem total_giveOut {next : ℕ} : Total (giveOut o header cls next) :=
  total_bind total_draw fun _ => total_bind total_modify fun _ => total_pure

theorem total_takeBlock : Total (takeBlock o cls) := by
  refine total_bind total_draw fun h => total_bind total_link fun next =>
    total_bind total_get fun s => ?_
  split
  · exact total_ite total_giveOut total_pure
  · exact total_ite total_giveOut total_pure

theorem ordinary_bigTotal : FailsOnly Stop.Ordinary (bigTotal o size) s :=
  failsOnly_bind total_read.failsOnly fun _ _ _ => ordinary_check _

section Malloc

theorem ordinary_bulkFill (hcls : cls < 34) : FailsOnly Stop.Ordinary (bulkFill o cls) s := by
  refine failsOnly_bind (ordinary_lookup hcls) fun _ _ _ =>
    failsOnly_bind (ordinary_check _) fun _ _ _ =>
    failsOnly_bind (ordinary_lookup hcls) fun _ _ _ =>
      failsOnly_bind total_vaAlloc.failsOnly fun found _ _ => ?_
  cases found with
  | none => exact failsOnly_throw trivial
  | some hint =>
    refine failsOnly_bind total_mmapFixed.failsOnly fun _ _ _ =>
      failsOnly_ite (fun _ => ?_) fun _ => ?_
    · exact failsOnly_bind total_modify.failsOnly fun _ _ _ =>
        failsOnly_bind total_link.failsOnly fun _ _ _ => total_giveOut.failsOnly
    · exact failsOnly_bind total_vaFree.failsOnly fun _ _ _ => failsOnly_pure

theorem ordinary_fillAttempts (hcls : cls < 34) (k : ℕ) :
    FailsOnly Stop.Ordinary (fillAttempts o cls k) s := by
  induction k generalizing s with
  | zero => exact failsOnly_pure
  | succ k ih =>
    exact failsOnly_bind (ordinary_bulkFill hcls) fun _ _ _ =>
      failsOnly_ite (fun _ => ih) fun _ => failsOnly_pure

theorem ordinary_allocate (hcls : cls < 34) : FailsOnly Stop.Ordinary (allocate o cls) s :=
  failsOnly_bind total_takeBlock.failsOnly fun _ _ _ =>
    failsOnly_ite (fun _ => ordinary_fillAttempts hcls 3) fun _ => failsOnly_pure

theorem ordinary_bigMalloc : FailsOnly Stop.Ordinary (bigMalloc o size) s := by
  refine failsOnly_bind ordinary_bigTotal fun _ _ _ =>
    failsOnly_bind total_vaAlloc.failsOnly fun found _ _ => ?_
  cases found with
  | none => exact failsOnly_pure
  | some hint =>
    refine failsOnly_bind total_commit.failsOnly fun _ _ _ =>
      failsOnly_ite (fun _ => ?_) fun _ => ?_
    · exact failsOnly_bind total_adviseIfHuge.failsOnly fun _ _ _ =>
        failsOnly_bind total_modify.failsOnly fun _ _ _ =>
          failsOnly_bind ordinary_bigInsert fun _ _ _ => failsOnly_pure
    · exact failsOnly_bind total_vaFree.failsOnly fun _ _ _ => failsOnly_pure

theorem ordinary_malloc : FailsOnly Stop.Ordinary (malloc o size) s := by
  refine failsOnly_ite (fun hsmall => ?_) fun _ =>
    failsOnly_ite (fun _ => failsOnly_bind failsOnly_pure fun _ _ _ => failsOnly_pure) fun _ => ?_
  · have hshift : (size - 1) >>> 4 = (size - 1) / 16 := Nat.shiftRight_eq_div_pow _ 4
    obtain ⟨c, hlut, hc, _⟩ := @sizeLut_spec ((size - 1) >>> 4) (by omega)
    rw [hlut]
    exact ordinary_allocate hc
  · split
    · rename_i c hcls
      exact ordinary_allocate (matchSizeClass_some hcls).1
    · exact failsOnly_bind failsOnly_pure fun _ _ _ => ordinary_bigMalloc

end Malloc

section Blocks

/-- The recorded size of a block is found. -/
theorem Agree.ordinary_recorded (ha : Agree s) (message : String) :
    FailsOnly Stop.Ordinary (recorded o header message) s := by
  refine failsOnly_bind ordinary_classOf fun cls s₁ hclass => ?_
  obtain ⟨live, hget, rfl⟩ := runs_classOf hclass
  rcases ha.classes header _ hget with hlt | hbig
  · refine failsOnly_ite (fun hbig => ?_) fun _ => ordinary_lookup hlt
    exact absurd (hbig ▸ hlt : 100 < 34) (by decide)
  · obtain ⟨rfl, rfl⟩ := Header.mk.inj hbig
    refine failsOnly_ite (fun _ => ?_) fun hslab => absurd rfl hslab
    have hentry := (ha.entry_iff header).mpr hget
    refine failsOnly_bind total_read.failsOnly fun found mid hread => ?_
    obtain ⟨rfl, rfl⟩ := runs_read.mp hread
    cases hinfo : mid.big.get header with
    | none => exact absurd (congrArg (Option.map BigAllocMeta.size) hinfo) hentry
    | some info => exact failsOnly_pure

theorem Agree.freeInternal (ha : Agree s) {raw : ℕ} :
    FailsOnly Stop.Ordinary (freeInternal o raw) s := by
  refine failsOnly_bind ordinary_validatePtrForAbi fun _ s₀ hvalid => ?_
  obtain ⟨cls, hget, rfl⟩ := runs_validatePtrForAbi hvalid
  refine failsOnly_bind ordinary_classOf fun cls' s₁ hclass => ?_
  obtain ⟨live, hget', rfl⟩ := runs_classOf hclass
  obtain ⟨rfl, _⟩ := Header.mk.inj (Option.some.inj (hget.symm.trans hget'))
  refine failsOnly_ite (fun hbig => ?_) fun hslab => ?_
  · rw [hbig] at hget
    refine failsOnly_bind total_bigRemove.failsOnly fun found s₂ hremove => ?_
    obtain ⟨rfl, _⟩ := runs_bigRemove hremove
    rw [(remove_get ha.sound _).2.2]
    cases hinfo : s₁.big.get (raw - headerSize) with
    | none =>
      have hentry := (ha.entry_iff _).mpr hget
      exact absurd (congrArg (Option.map BigAllocMeta.size) hinfo) hentry
    | some info =>
      exact failsOnly_bind ordinary_bigTotal fun _ _ _ =>
        failsOnly_bind total_adviseIfHuge.failsOnly fun _ _ _ =>
          failsOnly_bind total_modify.failsOnly fun _ _ _ =>
            failsOnly_bind total_wipe.failsOnly fun _ _ _ =>
              failsOnly_bind total_forbid.failsOnly fun _ _ _ => total_vaFree.failsOnly
  · rcases ha.classes _ _ hget with hlt | hbig
    · exact failsOnly_bind (ordinary_lookup hlt) fun _ _ _ => total_modify.failsOnly
    · exact absurd (congrArg Header.cls hbig) hslab

theorem Agree.free (ha : Agree s) : FailsOnly Stop.Ordinary (free o ptr) s := by
  refine failsOnly_bind failsOnly_pure fun _ s₀ hcount => ?_
  obtain ⟨_, rfl⟩ := runs_pure.mp hcount
  refine failsOnly_ite (fun _ => failsOnly_pure) fun _ => ?_
  refine failsOnly_after (runs_pure.mpr ⟨rfl, rfl⟩) ?_
  refine failsOnly_ite (fun _ => failsOnly_pure) fun _ =>
    failsOnly_bind ordinary_resolve fun p s₁ h => ?_
  obtain ⟨_, _, _, rfl⟩ := runs_resolve h
  exact ha.freeInternal

theorem Agree.mallocUsableSize (ha : Agree s) :
    FailsOnly Stop.Ordinary (mallocUsableSize ptr) s := by
  refine failsOnly_ite (fun _ => failsOnly_pure) fun _ => ?_
  refine failsOnly_after (runs_pure.mpr ⟨rfl, rfl⟩) ?_
  refine failsOnly_ite (fun _ => failsOnly_pure) fun _ =>
    failsOnly_bind ordinary_resolve fun p s₁ h => ?_
  obtain ⟨_, _, _, rfl⟩ := runs_resolve h
  exact failsOnly_bind (ha.ordinary_recorded _) fun _ _ _ => failsOnly_pure

theorem Agree.calloc (ha : Agree s) (havoids : o.Avoids) {nmemb : ℕ} :
    FailsOnly Stop.Ordinary (calloc o nmemb size) s := by
  refine failsOnly_ite (fun _ => failsOnly_bind failsOnly_pure fun _ _ _ => failsOnly_pure) fun _ =>
    failsOnly_bind ordinary_malloc fun r s₁ hmalloc => ?_
  have ha₁ := (runs_malloc hmalloc).agree (havoids.careful s).here ha
  refine failsOnly_ite (fun _ => failsOnly_pure) fun _ =>
    failsOnly_bind ?_ fun _ _ _ => failsOnly_pure
  exact failsOnly_bind (ha₁.ordinary_recorded _) fun _ _ _ => total_modify.failsOnly

theorem ordinary_posixMemalign {alignment : ℕ} :
    FailsOnly Stop.Ordinary (posixMemalign o alignment size) s := by
  refine failsOnly_ite (fun _ => failsOnly_pure) fun _ =>
    failsOnly_ite (fun _ => failsOnly_pure) fun _ => ?_
  refine failsOnly_bind (failsOnly_bind ordinary_malloc fun _ _ _ => ?_) fun _ _ _ => ?_
  · exact failsOnly_ite (fun _ => ordinary_malloc) fun _ => failsOnly_pure
  · exact failsOnly_ite (fun _ => failsOnly_pure) fun _ =>
      failsOnly_bind (ordinary_check _) fun _ _ _ =>
        failsOnly_bind total_modify.failsOnly fun _ _ _ => failsOnly_pure

end Blocks

section Realloc

theorem ordinary_reclass : FailsOnly Stop.Ordinary (reclass o header cls newCls size) s :=
  failsOnly_bind total_modify.failsOnly fun _ _ _ =>
    failsOnly_ite (fun _ => failsOnly_bind total_bigRemove.failsOnly fun _ _ _ =>
      failsOnly_pure) fun _ =>
      failsOnly_ite (fun _ => ordinary_bigInsert) fun _ => failsOnly_pure

theorem ordinary_shrinkInplace {old new : ℕ} :
    FailsOnly Stop.Ordinary (shrinkInplace o header cls newCls size old new) s := by
  unfold shrinkInplace CInterface.shrinkInplace
  dsimp only
  refine failsOnly_bind (ordinary_check _) fun _ _ _ => failsOnly_ite (fun _ => ?_) fun _ =>
    failsOnly_pure
  refine failsOnly_bind total_discard.failsOnly fun _ _ _ =>
    failsOnly_ite (fun _ => ?_) fun _ => failsOnly_pure
  exact failsOnly_bind total_forbid.failsOnly fun _ _ _ =>
    failsOnly_bind total_vaFree.failsOnly fun _ _ _ => ordinary_reclass

theorem ordinary_growInplace {old : ℕ} :
    FailsOnly Stop.Ordinary (growInplace o header cls newCls cap size old) s := by
  unfold growInplace CInterface.growInplace
  dsimp only
  refine failsOnly_bind (ordinary_check _) fun _ _ _ =>
    failsOnly_bind (ordinary_check _) fun _ _ _ =>
    failsOnly_bind total_vaReallocInplace.failsOnly fun found _ _ => ?_
  cases found with
  | none => exact failsOnly_pure
  | some actual =>
    refine failsOnly_bind (ordinary_check _) fun _ _ _ =>
      failsOnly_ite (fun _ => ordinary_check _) fun _ => ?_
    refine failsOnly_bind total_permit.failsOnly fun _ _ _ =>
      failsOnly_ite (fun _ => ?_) fun _ => ?_
    · exact failsOnly_bind ordinary_reclass fun _ _ _ => failsOnly_pure
    · exact failsOnly_ite (fun _ => failsOnly_bind total_vaFree.failsOnly fun _ _ _ =>
        failsOnly_pure)
        fun _ => failsOnly_pure

theorem ordinary_resizeInplace : FailsOnly Stop.Ordinary (resizeInplace o header cls cap n) s := by
  refine failsOnly_bind (ordinary_check _) fun _ _ _ =>
    failsOnly_bind (ordinary_check _) fun _ _ _ =>
    failsOnly_ite (fun _ => ?_) fun _ => failsOnly_ite (fun _ => ?_) fun _ => ordinary_growInplace
  · exact failsOnly_bind ordinary_reclass fun _ _ _ => failsOnly_pure
  · exact failsOnly_bind ordinary_shrinkInplace fun _ _ _ => failsOnly_pure

theorem Agree.moveBlock (ha : Agree s) (havoids : o.Avoids) {old : ℕ} :
    FailsOnly Stop.Ordinary (moveBlock o ptr n old) s := by
  refine failsOnly_bind ordinary_malloc fun r s₁ hmalloc =>
    failsOnly_ite (fun _ => failsOnly_pure) fun _ => ?_
  have ha₁ := (runs_malloc hmalloc).agree (havoids.careful s).here ha
  refine failsOnly_bind total_modify.failsOnly fun _ s₂ hcopy => ?_
  have ha₂ : Agree s₂ := by
    rw [runs_modify.mp hcopy]
    exact ha₁.of_eq rfl rfl rfl
  exact failsOnly_bind ha₂.free fun _ _ _ => failsOnly_pure

theorem Agree.reallocBlock (ha : Agree s) (havoids : o.Avoids) :
    FailsOnly Stop.Ordinary (reallocBlock o ptr n) s := by
  refine failsOnly_bind ordinary_resolve fun p s₁ h => ?_
  obtain ⟨_, _, _, rfl⟩ := runs_resolve h
  refine failsOnly_bind ordinary_validatePtrForAbi fun _ s₂ hvalid => ?_
  obtain ⟨cls, hget, rfl⟩ := runs_validatePtrForAbi hvalid
  refine failsOnly_bind (ha.ordinary_recorded _) fun cap s₃ hcap => ?_
  obtain ⟨cls', live', hget', hrec, rfl⟩ := runs_recorded (o := o) hcap
  obtain ⟨rfl, _⟩ := Header.mk.inj (Option.some.inj (hget.symm.trans hget'))
  refine failsOnly_bind ordinary_classOf fun cls'' s₄ hclass => ?_
  obtain ⟨live'', hget'', rfl⟩ := runs_classOf hclass
  obtain ⟨rfl, _⟩ := Header.mk.inj (Option.some.inj (hget.symm.trans hget''))
  have hit : FailsOnly Stop.Ordinary (iterationsOf o cls) s₄ := by
    refine failsOnly_ite (fun _ => failsOnly_pure) fun hslab => ?_
    rcases ha.classes _ _ hget with hlt | hbig
    · exact ordinary_lookup hlt
    · exact absurd (congrArg Header.cls hbig) hslab
  refine failsOnly_bind hit fun it s₅ hruns => ?_
  have hs₅ : s₅ = s₄ := by
    unfold CInterface.iterationsOf at hruns
    split at hruns
    · exact (runs_pure.mp hruns).2
    · exact (runs_lookup hruns).2.2
  subst hs₅
  refine failsOnly_ite (fun _ => ha.moveBlock havoids) fun _ =>
    failsOnly_ite (fun _ => failsOnly_pure) fun _ =>
      failsOnly_ite (fun _ => ?_) fun _ => ha.moveBlock havoids
  refine failsOnly_bind ordinary_resizeInplace fun resized s₆ hresize =>
    failsOnly_ite (fun _ => failsOnly_pure) fun hfalse => ?_
  rcases (runs_resizeInplace hrec hresize).records ha hget with
    ⟨htrue, _⟩ | ⟨hheaders, hbig, hslots, _⟩
  · exact absurd htrue hfalse
  · exact (ha.of_eq hheaders hbig hslots).moveBlock havoids

end Realloc

/-- No call misses an entry or leaves the tables. -/
theorem Agree.perform (ha : Agree s) (havoids : o.Avoids) (c : Call) :
    FailsOnly Stop.Ordinary (perform o c) s := by
  cases c with
  | malloc size =>
    exact failsOnly_bind ordinary_malloc fun _ _ _ =>
      failsOnly_bind total_adopt.failsOnly fun _ _ _ => failsOnly_pure
  | calloc nmemb size =>
    exact failsOnly_bind (ha.calloc havoids) fun _ _ _ =>
      failsOnly_bind total_adopt.failsOnly fun _ _ _ => failsOnly_pure
  | posixMemalign alignment size =>
    refine failsOnly_bind ordinary_posixMemalign fun found _ _ => ?_
    cases found with
    | error code => exact failsOnly_pure
    | ok p => exact failsOnly_bind total_adopt.failsOnly fun _ _ _ => failsOnly_pure
  | free ptr =>
    exact failsOnly_bind ha.free fun _ _ _ =>
      failsOnly_bind total_forget.failsOnly fun _ _ _ => failsOnly_pure
  | usableSize ptr => exact ha.mallocUsableSize
  | write ptr i value => exact failsOnly_bind total_modify.failsOnly fun _ _ _ => failsOnly_pure
  | realloc ptr size =>
    refine failsOnly_bind ?_ fun _ _ _ => total_rebind.failsOnly
    refine failsOnly_ite (fun _ => ordinary_malloc) fun _ =>
      failsOnly_ite (fun _ => failsOnly_pure) fun _ =>
      failsOnly_ite (fun _ => ?_) fun _ => ha.reallocBlock havoids
    exact failsOnly_bind ha.free fun _ _ _ => ordinary_malloc

/-- In every run of calls on live pointers the map has an entry for exactly the live big
blocks, every other header has a size class, the live blocks are those of the pointers that
the user has, `free` ends the block of its pointer, and no call aborts over a missing entry or
reads the tables of the classes out of range. -/
theorem big_metadata_agreement (o : Oracle) (havoids : o.Avoids) (thp : Bool) (calls : List Call)
    (s : State) (hrun : run (step o) (initial thp) calls = some s) :
    (∀ h, s.big.get h ≠ none ↔ s.headers.get h = some ⟨100, true⟩) ∧
      (∀ h r, s.headers.get h = some r → r.live = true → r.cls ≠ 100 → r.cls < 34) ∧
      (∀ ptr p, s.live ptr = some p →
        ∃ cls, s.headers.get (p.raw - headerSize) = some ⟨cls, true⟩) ∧
      (Guarded (step o) (Unshared o) (initial thp) calls → ∀ h cls,
        s.headers.get h = some ⟨cls, true⟩ →
          ∃ ptr p, s.live ptr = some p ∧ h = p.raw - headerSize) ∧
      (∀ ptr p s', s.live ptr = some p → Runs (free o ptr) s () s' →
        ∀ cls, s'.headers.get (p.raw - headerSize) ≠ some ⟨cls, true⟩) ∧
      ∀ c, c.Ok s → ∀ e, perform o c s = .error e →
        (∀ message, e ≠ .missing message) ∧ ∀ cls, e ≠ .outOfRange cls := by
  obtain ⟨ha, hp⟩ := @run_pointed o s (fun _ _ _ => True) _ (fun _ _ => True) thp calls havoids
    (fun _ _ _ _ _ _ _ => trivial) (fun _ _ _ _ _ _ _ _ _ _ _ _ _ _ _ _ => trivial)
    (guarded_trivial calls) hrun
  refine ⟨fun h => ?_, fun h r hr _ hcls => ?_, fun ptr p hptr => ?_, fun hunshared h cls hh => ?_,
    fun ptr p s' hptr hfree cls hcls => ?_, fun c _ e he => ?_⟩
  · rw [← ha.entry_iff h, State.entry, Ne, Ne, Option.map_eq_none_iff]
  · rcases ha.classes h r hr with hlt | rfl
    · exact hlt
    · exact absurd rfl hcls
  · obtain ⟨h, hraw, hlive⟩ := hp.past hptr
    rw [hraw, Nat.add_sub_cancel]
    exact hlive
  · obtain ⟨ptr, p, hptr, hraw⟩ := run_reached havoids hunshared hrun h ⟨cls, hh⟩
      (Option.some_ne_none h).symm
    exact ⟨ptr, p, hptr, by omega⟩
  · obtain ⟨hne, hraw⟩ := hp.place ha hptr
    exact ((runs_free hne hptr hraw hfree).ended ha).dead ⟨cls, hcls⟩
  · have hordinary := ha.perform havoids c e he
    constructor
    · rintro message rfl
      exact hordinary
    · rintro cls rfl
      exact hordinary

/-- The oracle that gives the listed answers and refuses the ranges with a header. -/
def avoiding (answers : List ℕ) : Oracle where
  answer n := answers.getD n 1
  admits s addr len := s.headers.addrs.all fun h => decide (h + headerSize ≤ addr ∨ addr + len ≤ h)
  ours _ := true

theorem avoiding_avoids (answers : List ℕ) : (avoiding answers).Avoids := by
  intro s addr len hadmits h hget
  exact of_decide_eq_true (List.all_eq_true.mp hadmits h (s.headers.complete h hget))

end Ordinary

/-- A block of size zero that grows into a slab class in place, beside a big block that an
aligned pointer leads to. -/
theorem big_metadata_agreement_zero :
    ∃ s, run (step (avoiding [4096, 1, 1, 1, 1, 1048576])) (initial false)
        [.malloc 0, .realloc 4112 4096, .posixMemalign 64 3000000] = some s ∧
      s.big.get 4096 = none ∧ s.big.get 1048576 ≠ none ∧
      (∃ ptr p, s.live ptr = some p ∧ 1048576 = p.raw - 16) ∧
      ∀ e, perform (avoiding [4096, 1, 1, 1, 1, 1048576]) (.free 4112) s = .error e →
        ∀ message, e ≠ .missing message := by
  have hresult : (run (step (avoiding [4096, 1, 1, 1, 1, 1048576])) (initial false)
      [.malloc 0, .realloc 4112 4096, .posixMemalign 64 3000000]).map (fun s =>
        (s.headers.get 4096, s.headers.get 1048576, (s.live 4112).isSome)) =
      some (some ⟨22, true⟩, some ⟨100, true⟩, true) := by
    decide +kernel
  obtain ⟨s, hrun, hs⟩ := Option.map_eq_some_iff.mp hresult
  obtain ⟨hslab, hrest⟩ := Prod.mk.inj hs
  obtain ⟨hbig, hlive⟩ := Prod.mk.inj hrest
  obtain ⟨hentry, _, _, hreached, _, hclean⟩ :=
    big_metadata_agreement _ (avoiding_avoids _) false _ s hrun
  refine ⟨s, hrun, ?_, (hentry 1048576).mpr hbig, hreached (by decide +kernel) _ _ hbig,
    fun e he => (hclean (.free 4112) hlive e he).1⟩
  by_contra hne
  exact absurd (hslab.symm.trans ((hentry 4096).mp hne)) (by decide)

end Oxidalloc.Records
