import Oxidalloc.Abi
import Oxidalloc.Effects
import Oxidalloc.GTrim
import Oxidalloc.ThreadExit

/-!
What the functions of the allocator do besides their work. None of them but `trim` writes the
statistics of the trim thread, the clock or the memory pressure; none loses a slot by itself;
the batch hints stay within
their bounds; and a function without a check of a header never reports a double free or a
corruption, whatever state it runs in. The functions with such a check are left to the
states in which the check passes.
-/
namespace Oxidalloc

open ByteMemory Effects Hashmap Programs

/-- The process ends, but not because a block looks as if the user had done wrong. -/
def Blameless : Halt → Prop
  | .abort error _ =>
    error ≠ .doubleFree ∧ error ≠ .memoryCorruption ∧ error ≠ .attackOrCorruption
  | .panic => True
  | .fault => True

/-- The hints are in the range that `clamp` would put them into. -/
def HintsOk (hints : ℕ → ℕ) : Prop := ∀ cls, batchMin ≤ hints cls ∧ hints cls ≤ batchMax

/-- What all functions but `trim` leave alone. -/
structure Stays (w w' : World) : Prop where
  average : w'.averageBlockTimes = w.averageBlockTimes
  decay : w'.globalDecay = w.globalDecay
  pressure : w'.lastPressureCheck = w.lastPressureCheck
  stamp : w'.currentStamp = w.currentStamp
  lost : w'.slabs.lost = w.slabs.lost
  hints : HintsOk w.batchHints → HintsOk w'.batchHints

instance Stays.isPreorder : IsPreorder World Stays where
  refl := fun _ => ⟨rfl, rfl, rfl, rfl, rfl, id⟩
  trans := fun _ _ _ h h' => ⟨h'.average.trans h.average, h'.decay.trans h.decay,
    h'.pressure.trans h.pressure, h'.stamp.trans h.stamp, h'.lost.trans h.lost,
    fun hok => h'.hints (h.hints hok)⟩

/-- A pure part that ends the process without an accusation. -/
def Harmless {α : Type} (x : Except Halt α) : Prop := ∀ e, x = .error e → Blameless e

/-- The effect of a function on the bitmap; nothing is said about the bitmap itself. -/
abbrev Mild {α : Type} (x : VaBitmap.VaM α) : Prop := Within Any Blameless x

abbrev Tame {α : Type} (x : OxM α) : Prop := Within Stays Blameless x

/-- The functions with a check are as tame, but for the check. -/
abbrev Checked {α : Type} (x : OxM α) : Prop := Within Stays (fun _ => True) x

section Pure

variable {α β : Type} {cls : ℕ}

theorem harmless_ok {a : α} : Harmless (.ok a : Except Halt α) := by
  intro e he
  contradiction

theorem harmless_error {e : Halt} (h : Blameless e) : Harmless (.error e : Except Halt α) := by
  intro e' he
  rwa [← Except.error.inj he]

theorem harmless_bind {x : Except Halt α} {f : α → Except Halt β} (hx : Harmless x)
    (hf : ∀ a, Harmless (f a)) : Harmless (x >>= f) := by
  intro e he
  cases x with
  | error e' => exact hx e (congrArg Except.error (Except.error.inj he))
  | ok a => exact hf a e he

theorem harmless_ite {p : Prop} [Decidable p] {x y : Except Halt α} (hx : Harmless x)
    (hy : Harmless y) : Harmless (if p then x else y) := by
  split
  · exact hx
  · exact hy

theorem harmless_alignTo {size align : ℕ} : Harmless (alignTo size align) :=
  harmless_ite (harmless_error trivial) harmless_ok

theorem harmless_alignAfter {start align : ℕ} : Harmless (alignAfter start align) :=
  harmless_ite (harmless_error trivial) harmless_alignTo

theorem harmless_index {table : List ℕ} {i : ℕ} : Harmless (index table i) := by
  unfold index
  split
  · exact harmless_ok
  · exact harmless_error trivial

theorem harmless_tlsMaxBlocks : Harmless (tlsMaxBlocks cls) :=
  harmless_bind harmless_index fun _ => harmless_bind harmless_alignTo fun _ => harmless_ok

theorem harmless_bin {e : ThreadLocalEngine} : Harmless (e.bin cls) :=
  harmless_ite harmless_ok (harmless_error trivial)

theorem harmless_sumUsage {usage : ℕ → ℕ → ℕ} {n : ℕ} : Harmless (sumUsage usage cls n) := by
  induction n with
  | zero => exact harmless_ok
  | succ n ih =>
    exact harmless_bind ih fun _ => harmless_ite (harmless_error trivial) harmless_ok

theorem harmless_exitChain {ours : ℕ → Bool} {n : ℕ} {m : Memory} {tail count : ℕ} :
    Harmless (exitChain ours n m tail count) := by
  induction n generalizing m tail count with
  | zero => exact harmless_error trivial
  | succ n ih =>
    rw [exitChain]
    exact harmless_ite harmless_ok (harmless_ite harmless_ok ih)

theorem harmless_note {q : GTrim.Tally} {lifeTime : ℕ} : Harmless (q.note lifeTime) :=
  harmless_ite harmless_ok (harmless_ite (harmless_error trivial) harmless_ok)

theorem harmless_newExtent {headerSize n : ℕ} : Harmless (CInterface.newExtent headerSize n) := by
  unfold CInterface.newExtent
  split
  · exact harmless_bind harmless_alignTo fun _ => harmless_ok
  · exact harmless_bind harmless_index fun _ => harmless_bind harmless_alignTo fun _ => harmless_ok

end Pure

section Map

theorem harmless_allocRaw {mmapOk : Bool} {cap : ℕ} : Harmless (allocRaw mmapOk cap) :=
  harmless_ite (harmless_error trivial)
    (harmless_ite harmless_ok (harmless_error (by simp [Blameless])))

theorem harmless_reinsert {table : Table} {cap key : ℕ} {info : BigAllocMeta} :
    Harmless (reinsert table cap key info) := by
  unfold reinsert
  split
  · exact harmless_ok
  · exact harmless_error (by simp [Blameless])

theorem harmless_growLoop {old table : Table} {newCap n i : ℕ} :
    Harmless (growLoop old newCap n i table) := by
  induction n generalizing i table with
  | zero => exact harmless_ok
  | succ n ih => exact harmless_ite (harmless_bind harmless_reinsert fun _ => ih) ih

theorem harmless_insert {s : BigAllocMap} {mmapOk : Bool} {key : ℕ} {info : BigAllocMeta} :
    Harmless (s.insert mmapOk key info) := by
  have hgrow : Harmless (s.grow mmapOk) :=
    harmless_bind harmless_allocRaw fun _ => harmless_bind harmless_growLoop fun _ => harmless_ok
  have hensure : Harmless (s.ensureCapacity mmapOk) :=
    harmless_ite (harmless_bind harmless_allocRaw fun _ => harmless_ok)
      (harmless_ite harmless_ok hgrow)
  refine harmless_bind hensure fun s => ?_
  unfold BigAllocMap.place
  split
  · exact harmless_ok
  · exact harmless_ok
  · exact harmless_error (by simp [Blameless])

end Map

namespace VaBitmap

theorem harmless_blocksOf {size : ℕ} : Harmless (blocksOf size) :=
  harmless_ite (harmless_error trivial) harmless_ok

theorem harmless_locate {va : VaBitmap} {addr : ℕ} : Harmless (va.locate addr) := by
  have hradix : Harmless (va.radixLookup addr) := by
    unfold radixLookup
    split
    · exact harmless_error trivial
    · refine harmless_ite harmless_ok ?_
      split
      · exact harmless_error trivial
      · exact harmless_ok
  refine harmless_bind hradix fun found => ?_
  cases found with
  | none => exact harmless_ok
  | some s => exact harmless_ok

theorem harmless_free {s : Segment} {addr size : ℕ} : Harmless (s.free addr size) :=
  harmless_ite harmless_ok
    (harmless_ite harmless_ok (harmless_bind harmless_blocksOf fun _ => harmless_ok))

theorem harmless_reallocInplace {s : Segment} {addr oldSize newSize : ℕ} :
    Harmless (s.reallocInplace addr oldSize newSize) := by
  refine harmless_bind harmless_blocksOf fun _ => harmless_bind harmless_blocksOf fun _ =>
    harmless_ite harmless_ok (harmless_ite harmless_ok (harmless_ite harmless_ok ?_))
  split
  · exact harmless_ok
  · exact harmless_ok

theorem mild_draw : Mild draw :=
  within_get_bind fun _ => withinAt_bind (withinAt_set trivial) fun _ => within_pure

theorem mild_setStatics {k : KernelVa.Statics} : Mild (setStatics k) :=
  within_modify fun _ => trivial

theorem mild_mmapMemory {len : ℕ} : Mild (mmapMemory len) :=
  within_bind mild_draw fun _ => within_pure

theorem mild_mmapSegment : Mild mmapSegment := by
  refine within_bind mild_mmapMemory fun found => ?_
  cases found with
  | none => exact within_pure
  | some ptr => exact within_bind within_get fun _ => within_pure

theorem mild_mmapReserve {size : ℕ} : Mild (mmapReserve size) := by
  refine within_bind mild_draw fun answer => within_get_bind fun va => ?_
  split
  · exact withinAt_bind (withinAt_set trivial) fun _ => within_pure
  · exact within_pure va

theorem mild_getrandom : Mild getrandom :=
  within_bind mild_draw fun _ =>
    within_ite (within_throw (by simp [Blameless])) mild_draw

theorem mild_randomizeBaseHint : Mild randomizeBaseHint :=
  within_bind within_get fun _ => within_ite within_pure
    (within_bind mild_getrandom fun _ => within_bind (within_attempt harmless_alignTo) fun _ =>
      mild_setStatics)

theorem mild_addToBaseHint {size : ℕ} : Mild (addToBaseHint size) :=
  within_bind within_get fun _ => within_ite (within_throw trivial) mild_setStatics

theorem mild_probeLoop {fuel size : ℕ} : Mild (probeLoop fuel size) := by
  induction fuel generalizing size with
  | zero => exact within_throw trivial
  | succ fuel ih =>
    refine within_bind mild_mmapReserve fun found => ?_
    cases found with
    | some output =>
      refine within_bind within_get fun va => within_bind mild_setStatics fun _ => ?_
      dsimp only
      split
      · exact within_bind mild_addToBaseHint fun _ => within_pure
      · exact within_bind (within_modify fun _ => trivial) fun _ => within_pure
    | none =>
      exact within_bind within_get fun va =>
        within_ite (within_throw (by simp [Blameless]))
          (within_ite (within_bind mild_setStatics fun _ => within_pure)
            (within_bind mild_addToBaseHint fun _ => ih))

theorem mild_getVaFromKernel : Mild getVaFromKernel :=
  within_bind mild_randomizeBaseHint fun _ => within_bind within_get fun _ =>
    within_ite mild_probeLoop (within_bind mild_setStatics fun _ => mild_probeLoop)

theorem mild_mapRadixTable {len : ℕ} : Mild (mapRadixTable len) := by
  refine within_bind mild_mmapMemory fun found => ?_
  cases found with
  | none => exact within_throw (by simp [Blameless])
  | some addr => exact within_pure

theorem mild_initRadix : Mild initRadix := by
  refine within_bind within_get fun va => ?_
  split
  · exact within_pure
  · exact within_bind mild_mapRadixTable fun _ => within_modify fun _ => trivial

theorem mild_setRadix {chunkIdx seg : ℕ} : Mild (setRadix chunkIdx seg) := by
  refine within_bind within_get fun va => ?_
  split
  · exact within_throw trivial
  · dsimp only
    split
    · exact within_bind mild_mapRadixTable fun _ => within_modify fun _ => trivial
    · exact within_modify fun _ => trivial

theorem mild_setRange {start seg n : ℕ} : Mild (setRange start seg n) := by
  induction n with
  | zero => exact within_pure
  | succ n ih => exact within_bind ih fun _ => mild_setRadix

theorem mild_growWith {userVa endVa totalSize : ℕ} : Mild (growWith userVa endVa totalSize) := by
  refine within_bind within_get fun va => ?_
  split
  · exact within_throw trivial
  refine within_ite within_pure (within_bind mild_mmapMemory fun map => ?_)
  cases map with
  | none => exact within_pure
  | some _ =>
    refine within_bind mild_mmapMemory fun claim => ?_
    cases claim with
    | none => exact within_pure
    | some _ =>
      refine within_bind mild_mmapSegment fun segment => ?_
      cases segment with
      | none => exact within_pure
      | some ptr =>
        exact within_bind mild_setRange fun _ =>
          within_bind (within_modify fun _ => trivial) fun _ => within_pure

theorem mild_grow : Mild grow :=
  within_bind mild_initRadix fun _ => within_bind mild_getVaFromKernel fun _ => mild_growWith

theorem mild_allocIn {ptr needed : ℕ} : Mild (allocIn ptr needed) := by
  refine within_bind within_get fun va => ?_
  split
  · exact within_throw trivial
  · exact within_bind mild_draw fun _ =>
      within_bind (within_modify fun _ => trivial) fun _ => within_pure

theorem mild_noteFailure {ptr : ℕ} : Mild (noteFailure ptr) := by
  refine within_get_bind fun va => ?_
  split
  · exact within_throw trivial va
  · exact withinAt_set trivial

theorem mild_isFull {ptr : ℕ} : Mild (isFull ptr) := by
  refine within_bind within_get fun va => ?_
  split
  · exact within_throw trivial
  · exact within_pure

theorem mild_allocWalk {needed : ℕ} {ptrs : List ℕ} : Mild (allocWalk needed ptrs) := by
  induction ptrs with
  | nil => exact within_pure
  | cons ptr rest ih =>
    refine within_bind mild_isFull fun full => within_ite ih ?_
    refine within_bind mild_allocIn fun found => ?_
    cases found with
    | some addr => exact within_bind (within_modify fun _ => trivial) fun _ => within_pure
    | none => exact within_bind mild_noteFailure fun _ => ih

theorem mild_growRetry {n : ℕ} : Mild (growRetry n) := by
  induction n with
  | zero => exact within_pure
  | succ n ih =>
    refine within_bind mild_grow fun found => ?_
    cases found with
    | some ptr => exact within_pure
    | none => exact ih

theorem mild_growFirst : Mild growFirst := by
  refine within_bind within_get fun va => within_ite ?_ within_pure
  refine within_bind mild_grow fun found => ?_
  cases found with
  | some ptr => exact within_modify fun _ => trivial
  | none => exact within_throw (by simp [Blameless])

theorem mild_allocGrown {needed : ℕ} : Mild (allocGrown needed) := by
  refine within_bind mild_growRetry fun found => ?_
  cases found with
  | none => exact within_pure
  | some ptr => exact within_bind (within_modify fun _ => trivial) fun _ => mild_allocIn

theorem mild_alloc {size : ℕ} : Mild (alloc size) := by
  refine within_ite within_pure (within_bind (within_attempt harmless_blocksOf) fun needed => ?_)
  have hhinted : Mild (allocHinted needed) :=
    within_bind within_get fun _ => within_ite within_pure mild_allocIn
  refine within_bind hhinted fun found => ?_
  cases found with
  | some addr => exact within_pure
  | none =>
    refine within_bind mild_growFirst fun _ => within_bind within_get fun va =>
      within_bind mild_allocWalk fun found => ?_
    cases found with
    | some addr => exact within_pure
    | none => exact mild_allocGrown

theorem mild_free {addr size : ℕ} : Mild (free addr size) := by
  refine within_ite within_pure (within_bind within_get fun va =>
    within_bind (within_attempt harmless_locate) fun found => ?_)
  cases found with
  | none => exact within_pure
  | some s =>
    exact within_bind (within_attempt harmless_free) fun _ => within_modify fun _ => trivial

theorem mild_reallocInplace {addr oldSize newSize : ℕ} :
    Mild (reallocInplace addr oldSize newSize) := by
  refine within_bind within_get fun va =>
    within_bind (within_attempt harmless_locate) fun found => ?_
  cases found with
  | none => exact within_pure
  | some s =>
    exact within_bind (within_attempt harmless_reallocInplace) fun _ =>
      within_bind (within_modify fun _ => trivial) fun _ => within_pure

end VaBitmap

section Thread

variable {t cls : ℕ}

theorem tame_onVa {α : Type} {x : VaBitmap.VaM α} (h : Mild x) : Tame (onVa x) :=
  within_zoom (fun _ _ => ⟨rfl, rfl, rfl, rfl, rfl, id⟩) h

theorem tame_draw : Tame draw := tame_onVa VaBitmap.mild_draw

theorem tame_write {f : World → Memory} : Tame (modify fun w => { w with mem := f w }) :=
  within_modify fun _ => ⟨rfl, rfl, rfl, rfl, rfl, id⟩

theorem tame_mmapFixed {addr len : ℕ} : Tame (mmapFixed addr len) :=
  within_bind tame_draw fun _ => within_ite within_pure
    (within_bind (within_modify fun _ => ⟨rfl, rfl, rfl, rfl, rfl, id⟩) fun _ => within_pure)

theorem tame_protectMemory {addr len : ℕ} {allowed : Bool} :
    Tame (protectMemory addr len allowed) :=
  within_bind tame_draw fun _ => within_ite within_pure
    (within_bind (within_modify fun _ => ⟨rfl, rfl, rfl, rfl, rfl, id⟩) fun _ => within_pure)

theorem tame_madvise {addr len : ℕ} {advice : Advice} : Tame (madvise addr len advice) := by
  refine within_bind tame_draw fun _ => within_ite within_pure ?_
  cases advice with
  | dontNeed => exact within_bind tame_write fun _ => within_pure
  | hugepage => exact within_pure
  | normal => exact within_pure

theorem tame_getOrInit : Tame (getOrInit t) := by
  refine within_bind within_get fun w => ?_
  split
  · exact within_pure
  · refine within_bind (tame_onVa VaBitmap.mild_mmapMemory) fun found => ?_
    cases found with
    | none => exact within_throw (by simp [Blameless])
    | some addr => exact within_modify fun _ => ⟨rfl, rfl, rfl, rfl, rfl, id⟩

theorem tame_engine : Tame (engine t) := by
  refine within_bind within_get fun w => ?_
  split
  · exact within_pure
  · exact within_throw trivial

theorem tame_setEngine {e : ThreadLocalEngine} : Tame (setEngine t e) :=
  within_modify fun _ => ⟨rfl, rfl, rfl, rfl, rfl, id⟩

theorem tame_popFromThread : Tame (popFromThread t cls) :=
  within_bind tame_engine fun _ => within_bind (within_attempt harmless_bin) fun _ =>
    within_ite within_pure (within_bind within_get fun _ => within_ite (within_throw trivial)
      (within_bind tame_setEngine fun _ => within_pure))

theorem tame_pushToThreadTailed {head tail batchSize : ℕ} :
    Tame (pushToThreadTailed t cls head tail batchSize) :=
  within_bind tame_engine fun _ => within_bind (within_attempt harmless_bin) fun _ =>
    within_bind tame_write fun _ => within_ite (within_throw trivial) tame_setEngine

theorem tame_bootStrap : Tame (bootStrap t) := by
  have hreverse : Tame initReverse := by
    refine within_bind within_get fun w => ?_
    split
    · exact within_pure
    · exact within_modify fun _ => ⟨rfl, rfl, rfl, rfl, rfl, id⟩
  have hthp : Tame initThp := by
    refine within_bind within_get fun w => ?_
    split
    · exact within_pure
    · exact within_ite (within_modify fun _ => ⟨rfl, rfl, rfl, rfl, rfl, id⟩) within_pure
  have hmagic : Tame initMagic :=
    within_bind (tame_onVa VaBitmap.mild_getrandom) fun _ => within_bind within_get fun _ =>
      within_modify fun _ => ⟨rfl, rfl, rfl, rfl, rfl, id⟩
  exact within_bind within_get fun _ => within_ite within_pure
    (within_bind tame_getOrInit fun _ => within_bind hreverse fun _ => within_bind hthp fun _ =>
      within_bind (tame_onVa VaBitmap.mild_getrandom) fun _ => within_bind hmagic fun _ =>
        within_modify fun _ => ⟨rfl, rfl, rfl, rfl, rfl, id⟩)

end Thread

section Shared

variable {cls cpu batchSize : ℕ}

theorem tame_ensureCache : Tame ensureCache := by
  have htable : ∀ len, Tame (mapIccTable len) := by
    intro len
    refine within_bind (tame_onVa VaBitmap.mild_mmapMemory) fun found => ?_
    cases found with
    | none => exact within_throw (by simp [Blameless])
    | some addr => exact within_pure
  exact within_bind within_get fun _ => within_ite within_pure
    (within_bind (htable _) fun _ => within_bind (htable _) fun _ =>
      within_modify fun _ => ⟨rfl, rfl, rfl, rfl, rfl, id⟩)

theorem tame_getCpuId : Tame getCpuId := within_bind tame_draw fun _ => within_pure

theorem tame_checkShard : Tame (checkShard cpu cls) :=
  within_bind within_get fun _ =>
    within_ite (within_throw trivial) (within_ite (within_throw trivial) within_pure)

theorem tame_setShard {word usage : ℕ} : Tame (setShard cpu cls word usage) :=
  within_modify fun _ => ⟨rfl, rfl, rfl, rfl, rfl, id⟩

theorem tame_pushToGlobal {head tail : ℕ} : Tame (pushToGlobal cls head tail batchSize) :=
  within_bind tame_ensureCache fun _ => within_bind tame_getCpuId fun _ =>
    within_bind tame_checkShard fun _ => within_bind within_get fun _ =>
      within_bind tame_write fun _ => tame_setShard

theorem tame_getSize : Tame (getSize cls) :=
  within_bind within_get fun _ => within_attempt harmless_sumUsage

theorem tame_pop : Tame (pop cls batchSize cpu) :=
  within_bind tame_ensureCache fun _ => within_bind tame_checkShard fun _ =>
    within_bind within_get fun _ => within_ite within_pure (within_ite within_pure
      (within_bind tame_setShard fun _ => within_bind tame_write fun _ => within_pure))

theorem tame_popVictims {victims : List ℕ} : Tame (popVictims cls batchSize victims) := by
  induction victims with
  | nil => exact within_pure
  | cons victim rest ih =>
    refine within_bind tame_pop fun found => ?_
    cases found with
    | some block => exact within_pure
    | none => exact ih

theorem tame_popFromGlobal : Tame (popFromGlobal cls batchSize) := by
  refine within_bind tame_getCpuId fun cpu => within_bind within_get fun w =>
    within_bind tame_pop fun found => ?_
  cases found with
  | some block => exact within_pure
  | none => exact tame_popVictims

end Shared

section Fill

variable {t cls metadata blockSize : ℕ}

theorem tame_initBlocks {maxBlocks : ℕ} : Tame (initBlocks cls metadata blockSize maxBlocks) := by
  refine within_get_bind fun w => ?_
  dsimp only
  split
  · exact within_pure w
  · exact withinAt_bind (withinAt_set ⟨rfl, rfl, rfl, rfl, rfl, id⟩) fun _ => within_pure

theorem tame_setPending : Tame (setPending t cls metadata) :=
  within_bind tame_engine fun _ => tame_setEngine

theorem tame_newSlab {payloadSize numBlocks : ℕ} :
    Tame (newSlab t cls payloadSize blockSize numBlocks) := by
  refine within_bind (tame_onVa VaBitmap.mild_alloc) fun found => ?_
  cases found with
  | none => exact within_throw (by simp [Blameless])
  | some hint =>
    have hadvise : Tame (adviseSlab cls hint payloadSize) :=
      within_ite (within_bind tame_madvise fun _ => within_pure) within_pure
    have hhandOut : ∀ head tail count, Tame (handOut t cls head tail count) := fun _ _ _ =>
      within_bind tame_engine fun _ => within_bind (within_attempt harmless_bin) fun _ =>
        within_bind (within_attempt harmless_tlsMaxBlocks) fun _ =>
          within_ite tame_pushToGlobal tame_pushToThreadTailed
    have hkeep : Tame (keepRest t cls hint blockSize) :=
      within_bind within_get fun _ => within_ite tame_setPending within_pure
    have hopen : Tame (openSlab t cls hint blockSize) :=
      within_bind tame_initBlocks fun _ => within_ite within_pure
        (within_bind (hhandOut _ _ _) fun _ => within_bind hkeep fun _ =>
          within_bind (within_modify fun _ => ⟨rfl, rfl, rfl, rfl, rfl, id⟩) fun _ => within_pure)
    exact within_bind tame_mmapFixed fun _ => within_ite
      (within_bind tame_write fun _ => within_bind hadvise fun _ => hopen)
      (within_bind (tame_onVa VaBitmap.mild_free) fun _ => within_pure)

theorem tame_bulkFill : Tame (bulkFill t cls) := by
  have hdrop : ∀ pending size, Tame (dropRest t cls pending size) := fun _ _ =>
    within_bind within_get fun _ => within_ite tame_setPending within_pure
  exact within_bind (within_attempt harmless_index) fun _ =>
    within_bind (within_attempt harmless_alignTo) fun _ =>
    within_bind (within_attempt harmless_index) fun _ => within_bind tame_engine fun _ =>
    within_ite tame_newSlab (within_bind tame_initBlocks fun _ => within_ite
      (within_bind tame_pushToThreadTailed fun _ => within_bind (hdrop _ _) fun _ => within_pure)
      (within_bind tame_setPending fun _ => tame_newSlab))

/-- The hint moves by at most two, and not out of the range. -/
theorem tame_bumpBatchHint {up : Bool} : Tame (bumpBatchHint cls up) := by
  refine within_modify fun w => ⟨rfl, rfl, rfl, rfl, rfl, fun hok c => ?_⟩
  dsimp only
  by_cases hc : c = cls
  · subst hc
    rw [Function.update_self]
    unfold clampBatch batchMin batchMax
    cases up with
    | true => simp only [if_true]; omega
    | false => simp only [Bool.false_eq_true, if_false]; omega
  · rw [Function.update_of_ne hc]
    exact hok c

theorem tame_tryFill : Tame (tryFill t cls) := by
  have hattempts : ∀ n, Tame (fillAttempts t cls n) := by
    intro n
    induction n with
    | zero => exact within_pure
    | succ n ih =>
      exact within_bind tame_bulkFill fun _ => within_ite
        (within_bind tame_popFromThread fun _ => within_bind tame_bumpBatchHint fun _ =>
          within_pure) ih
  exact within_bind within_get fun _ => within_bind tame_popFromGlobal fun _ => within_ite
    (within_bind within_get fun _ => within_bind tame_write fun _ =>
      within_bind tame_pushToThreadTailed fun _ => within_bind tame_bumpBatchHint fun _ =>
        tame_popFromThread)
    (within_bind tame_bumpBatchHint fun _ => hattempts 3)

theorem tame_allocateClass : Tame (allocateClass t cls) := by
  have hpopOrFill : Tame (popOrFill t cls) :=
    within_bind tame_popFromThread fun _ => within_ite tame_tryFill within_pure
  have htake : Tame (takeBlock t cls) :=
    within_bind tame_getOrInit fun _ => within_bind hpopOrFill fun _ =>
      within_ite within_pure (within_bind tame_write fun _ => within_pure)
  have hcount : Tame countBoot := by
    refine within_get_bind fun w => ?_
    split
    · exact withinAt_set ⟨rfl, rfl, rfl, rfl, rfl, id⟩
    · split
      · exact withinAt_set ⟨rfl, rfl, rfl, rfl, rfl, id⟩
      · exact within_pure w
  exact within_bind within_get fun _ => within_ite htake
    (within_bind tame_bootStrap fun _ => within_bind hcount fun _ => htake)

end Fill

section Calls

variable {t cls size header : ℕ}

theorem tame_setErrno {code : ℕ} : Tame (setErrno code) :=
  within_modify fun _ => ⟨rfl, rfl, rfl, rfl, rfl, id⟩

theorem tame_bigInsert : Tame (bigInsert header size) := by
  refine within_bind tame_draw fun _ => within_get_bind fun w => ?_
  refine withinAt_of_attempt harmless_insert fun big => ?_
  exact withinAt_set ⟨rfl, rfl, rfl, rfl, rfl, id⟩

theorem tame_bigRemove : Tame (bigRemove header) :=
  within_get_bind fun _ => withinAt_bind (withinAt_set ⟨rfl, rfl, rfl, rfl, rfl, id⟩) fun _ =>
    within_pure

theorem tame_check {α : Type} {x : Except Halt α} (h : Harmless x) : Tame (machine.check x) :=
  within_attempt h

theorem tame_permit {addr len : ℕ} : Tame (machine.permit addr len) :=
  @tame_protectMemory addr len true

theorem tame_forbid {addr len : ℕ} : Tame (machine.forbid addr len) :=
  within_bind tame_protectMemory fun _ => within_pure

theorem tame_discard {addr len : ℕ} : Tame (machine.discard addr len) :=
  @tame_madvise addr len .dontNeed

theorem tame_bigTotal : Tame (bigTotal size) :=
  within_bind within_read fun _ => tame_check harmless_alignTo

theorem tame_adviseIfHuge {total : ℕ} {advice : Advice} :
    Tame (adviseIfHuge header total advice) :=
  within_ite (within_bind tame_madvise fun _ => within_pure) within_pure

theorem tame_bigMalloc : Tame (bigMalloc size) := by
  refine within_bind tame_bigTotal fun total =>
    within_bind (tame_onVa VaBitmap.mild_alloc) fun found => ?_
  cases found with
  | none => exact within_pure
  | some hint =>
    have hcommit : Tame (commit hint total) :=
      within_bind tame_permit fun _ => within_ite within_pure tame_mmapFixed
    exact within_bind hcommit fun _ => within_ite
      (within_bind tame_adviseIfHuge fun _ => within_bind tame_write fun _ =>
        within_bind tame_bigInsert fun _ => within_pure)
      (within_bind (tame_onVa VaBitmap.mild_free) fun _ => within_pure)

theorem tame_malloc : Tame (malloc t size) := by
  unfold malloc CInterface.malloc
  split
  · split
    · exact tame_allocateClass
    · exact tame_check (harmless_error trivial)
  · refine within_ite (within_bind tame_setErrno fun _ => within_pure) ?_
    split
    · exact tame_allocateClass
    · exact within_bind tame_bootStrap fun _ => tame_bigMalloc

theorem tame_resolve {ptr : ℕ} : Tame (resolve ptr) :=
  within_bind within_get fun _ => within_ite within_pure within_pure

theorem tame_wipe {totalSize : ℕ} : Tame (wipe header totalSize) :=
  within_bind tame_discard fun _ => within_ite within_pure tame_write

theorem tame_slabFree : Tame (slabFree t cls header) :=
  within_bind tame_write fun _ => within_bind tame_getOrInit fun _ =>
    within_bind tame_engine fun _ => within_bind (within_attempt harmless_bin) fun _ =>
      within_bind (within_attempt harmless_tlsMaxBlocks) fun _ =>
        within_ite tame_pushToGlobal tame_pushToThreadTailed

theorem tame_posixMemalign {alignment : ℕ} : Tame (posixMemalign t alignment size) := by
  have htwice : ∀ n, Tame (mallocTwice t n) := fun _ =>
    within_bind tame_malloc fun _ => within_ite tame_malloc within_pure
  have hposix : Tame (CInterface.posixMemalign (backend t) alignment size) :=
    within_ite within_pure (within_ite within_pure (within_bind (htwice _) fun _ =>
      within_ite within_pure (within_bind (tame_check harmless_alignAfter) fun _ =>
        within_bind tame_write fun _ => within_pure)))
  refine within_bind hposix fun r => ?_
  cases r with
  | error code => exact within_pure
  | ok p => exact within_pure

theorem tame_reclass {oldClass newClass : ℕ} : Tame (reclass header oldClass newClass size) :=
  within_bind tame_write fun _ => within_ite (within_bind tame_bigRemove fun _ => within_pure)
    (within_ite tame_bigInsert within_pure)

theorem tame_resizeInplace {oldClass rawCapacity : ℕ} :
    Tame (resizeInplace header oldClass rawCapacity size) := by
  have hshrink : ∀ newClass n oldTotal newTotal,
      Tame (shrinkInplace header oldClass newClass n oldTotal newTotal) := fun _ _ _ _ =>
    within_bind (tame_check harmless_alignTo) fun _ => within_ite
      (within_bind tame_discard fun _ => within_ite
        (within_bind tame_forbid fun _ =>
          within_bind (tame_onVa VaBitmap.mild_free) fun _ => tame_reclass) within_pure)
      within_pure
  have hgrow : ∀ newClass n oldTotal,
      Tame (growInplace header oldClass newClass rawCapacity n oldTotal) := by
    intro newClass n oldTotal
    refine within_bind (tame_check harmless_alignTo) fun _ =>
      within_bind (tame_check harmless_alignTo) fun _ =>
      within_bind (tame_onVa VaBitmap.mild_reallocInplace) fun found => ?_
    cases found with
    | none => exact within_pure
    | some actual =>
      refine within_bind (tame_check harmless_alignTo) fun _ =>
        within_ite (tame_check (harmless_error trivial)) (within_bind tame_permit fun _ =>
          within_ite (within_bind tame_reclass fun _ => within_pure) ?_)
      split
      · exact within_bind (tame_onVa VaBitmap.mild_free) fun _ => within_pure
      · exact within_pure
  refine within_bind (tame_check harmless_alignTo) fun _ =>
    within_bind (tame_check harmless_newExtent) fun _ => within_ite
      (within_bind tame_reclass fun _ => within_pure)
      (within_ite (within_bind (hshrink _ _ _ _) fun _ => within_pure) (hgrow _ _ _))

end Calls

section Trim

variable {cls timing : ℕ}

theorem tame_sortBatch {n block toPush : ℕ} {q : GTrim.Tally} :
    Tame (GTrim.sortBatch timing n block q toPush) := by
  induction n generalizing block q toPush with
  | zero => exact within_pure
  | succ n ih =>
    exact within_bind within_get fun _ => within_bind (within_attempt harmless_note) fun _ =>
      within_ite (within_bind tame_write fun _ => ih) (within_bind tame_write fun _ => ih)

theorem tame_pushBack {toPush : ℕ} : Tame (GTrim.pushBack cls toPush) := by
  rw [GTrim.pushBack]
  refine within_bind within_get fun w => ?_
  generalize recount w.isOurs w.mem 15 toPush 1 = last
  exact within_bind tame_write fun _ => tame_pushToGlobal

theorem tame_releaseLoop {size pad n toTrim totalFreed : ℕ} {forceTrim : Bool} :
    Tame (GTrim.releaseLoop cls size pad forceTrim n toTrim totalFreed) := by
  have hrelease : ∀ header, Tame (GTrim.releaseMemory header size) := by
    intro header
    rw [GTrim.releaseMemory]
    exact within_bind (within_attempt harmless_alignTo) fun _ => within_ite within_pure
      (within_bind tame_madvise fun _ => within_pure)
  induction n generalizing toTrim totalFreed with
  | zero => exact within_pure
  | succ n ih =>
    rw [GTrim.releaseLoop]
    refine within_ite within_pure (within_bind within_get fun w => within_ite ?_ ?_)
    · exact within_bind (hrelease _) fun _ => within_ite (within_throw trivial)
        (within_bind tame_pushToGlobal fun _ => ih)
    · exact within_bind tame_pushToGlobal fun _ => ih

theorem checked_trimRounds {n : ℕ} {q : GTrim.Tally} :
    Checked (GTrim.trimRounds cls timing n q) := by
  have hpop : Checked (GTrim.popFromGlobal cls) := by
    rw [GTrim.popFromGlobal]
    refine within_bind tame_popFromGlobal.anyError fun _ => within_ite within_pure
      (within_bind within_get fun w => ?_)
    generalize GTrim.checkedRecount w.isOurs w.mem w.freedMagic 15 _ 1 = last
    exact within_bind (within_attempt fun _ _ => trivial) fun _ =>
      within_bind tame_write.anyError fun _ => within_pure
  induction n generalizing q with
  | zero => exact within_pure
  | succ n ih =>
    exact within_bind hpop fun _ => within_ite within_pure
      (within_bind tame_sortBatch.anyError fun _ =>
        within_ite ih (within_bind tame_pushBack.anyError fun _ => ih))

theorem checked_trimClasses {pad totalFreed : ℕ} {forceTrim : Bool} {classes : List ℕ}
    {q : GTrim.Tally} :
    Checked (GTrim.trimClasses timing pad forceTrim classes q totalFreed) := by
  have hclass : ∀ cls q freed, Checked (GTrim.trimClass cls timing pad forceTrim q freed) :=
    fun _ _ _ => within_bind (within_attempt fun _ _ => trivial) fun _ =>
      within_bind tame_getSize.anyError fun _ => within_bind checked_trimRounds fun _ =>
      within_bind tame_releaseLoop.anyError fun _ => within_pure
  induction classes generalizing q totalFreed with
  | nil => exact within_pure
  | cons cls rest ih => exact within_ite within_pure (within_bind (hclass _ _ _) fun _ => ih)

end Trim

section Checks

variable {t ptr size : ℕ}

theorem checked_recorded {missing : String} : Checked (recorded ptr missing) := by
  refine within_bind within_read fun cls => within_ite ?_ (within_attempt fun _ _ => trivial)
  refine within_bind within_read fun found => ?_
  cases found with
  | none => exact within_throw trivial
  | some info => exact within_pure

theorem checked_validatePtrForAbi : Checked (validatePtrForAbi ptr) :=
  within_bind within_get fun _ => within_ite within_pure
    (within_ite (within_throw trivial) (within_throw trivial))

theorem checked_bigFree : Checked (bigFree ptr) := by
  refine within_bind tame_bigRemove.anyError fun found => ?_
  cases found with
  | none => exact within_throw trivial
  | some info =>
    exact within_bind tame_bigTotal.anyError fun _ =>
      within_bind tame_adviseIfHuge.anyError fun _ => within_bind tame_write.anyError fun _ =>
      within_bind tame_wipe.anyError fun _ => within_bind tame_forbid.anyError fun _ =>
      (tame_onVa VaBitmap.mild_free).anyError

theorem tame_countFree : Tame countFree := by
  refine within_get_bind fun w => ?_
  split
  · exact within_pure w
  · exact withinAt_set ⟨rfl, rfl, rfl, rfl, rfl, id⟩

theorem checked_free : Checked (free t ptr) := by
  have hinternal : ∀ p, Checked (freeInternal t p) := fun _ =>
    within_bind checked_validatePtrForAbi fun _ => within_bind within_read fun _ =>
      within_ite checked_bigFree tame_slabFree.anyError
  have hmain : Checked (freeMain t ptr) :=
    within_ite within_pure (within_bind within_read fun _ => within_ite within_pure
      (within_bind tame_resolve.anyError fun _ => hinternal _))
  exact within_bind tame_countFree.anyError fun _ => hmain

theorem checked_calloc {nmemb : ℕ} : Checked (calloc t nmemb size) := by
  have hclear : ∀ p n, Checked (clear p n) := fun _ _ =>
    within_bind checked_recorded fun _ => tame_write.anyError
  exact within_ite (within_bind tame_setErrno.anyError fun _ => within_pure)
    (within_bind tame_malloc.anyError fun _ => within_ite within_pure
      (within_bind (hclear _ _) fun _ => within_pure))

theorem checked_realloc : Checked (realloc t ptr size) := by
  have hmove : ∀ cap, Checked (moveBlock t ptr size cap) := fun _ =>
    within_bind tame_malloc.anyError fun _ => within_ite within_pure
      (within_bind tame_write.anyError fun _ => within_bind checked_free fun _ => within_pure)
  have hresize : ∀ header cls cap old, Checked (do
      if ← resizeInplace header cls cap size then pure ptr else moveBlock t ptr size old) :=
    fun _ _ _ _ => within_bind tame_resizeInplace.anyError fun _ => within_ite within_pure (hmove _)
  have hblock : Checked (reallocBlock t ptr size) := by
    refine within_bind tame_resolve.anyError fun _ =>
      within_bind checked_validatePtrForAbi fun _ => within_bind checked_recorded fun cap =>
      within_bind within_read fun cls =>
      within_bind (within_ite within_pure (within_attempt fun _ _ => trivial)) fun _ => ?_
    exact within_ite (hmove _)
      (within_ite within_pure (within_ite (hresize _ _ _ _) (hmove _)))
  exact within_ite tame_malloc.anyError
    (within_ite (within_bind tame_setErrno.anyError fun _ => within_pure)
      (within_bind within_read fun _ => within_ite tame_draw.anyError (within_ite
        (within_bind checked_free fun _ => tame_malloc.anyError) hblock)))

theorem checked_usableSize : Checked (mallocUsableSize ptr) :=
  within_ite within_pure (within_bind within_read fun _ => within_ite tame_draw.anyError
    (within_bind tame_resolve.anyError fun _ => within_bind checked_recorded fun _ =>
      within_pure))

end Checks

section Exit

theorem tame_cleanupThreadCache {t : ℕ} : Tame (cleanupThreadCache t) := by
  have hbin : ∀ cls head, Tame (exitBin cls head) := by
    intro cls head
    refine within_get_bind fun w => withinAt_of_attempt harmless_exitChain fun p => ?_
    exact withinAt_bind (withinAt_set ⟨rfl, rfl, rfl, rfl, rfl, id⟩) fun _ => tame_pushToGlobal
  have hdrain : ∀ e cls, Tame (drainPending e cls) := fun _ _ =>
    within_ite within_pure (within_bind (within_attempt harmless_index) fun _ =>
      within_bind (within_attempt harmless_alignTo) fun _ => within_bind within_get fun _ =>
        within_ite (within_bind tame_initBlocks fun _ => within_ite
          (within_bind tame_pushToGlobal fun _ => within_pure) within_pure) within_pure)
  have hclass : ∀ e cls, Tame (cleanupClass e cls) := fun _ _ =>
    within_bind within_get fun _ => within_ite within_pure (within_ite
      (within_bind (hbin _ _) fun _ => hdrain _ _) (hdrain _ _))
  have hclasses : ∀ classes e, Tame (cleanupClasses classes e) := by
    intro classes
    induction classes with
    | nil => exact fun _ => within_pure
    | cons cls rest ih => exact fun e => within_bind (hclass e cls) fun e => ih e
  refine within_bind within_get fun w => ?_
  split
  · exact within_pure
  · exact within_bind (within_modify fun _ => ⟨rfl, rfl, rfl, rfl, rfl, id⟩) fun _ =>
      within_bind (hclasses _ _) fun _ => within_bind tame_draw fun _ => within_pure

end Exit

end Oxidalloc
