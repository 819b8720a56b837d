import Oxidalloc.AllocateSpec
import Oxidalloc.GTrim

/-!
The caches of the threads as one table with a bin for every thread and class. Most
programs leave the table alone; the two operations of a thread on its own cache replace
one entry.
-/
namespace Oxidalloc.ThreadBins

open Programs Function

section Bins

variable {w w' : World} {t cls : ℕ}

theorem onVa_bins {α : Type} {x : VaBitmap.VaM α} : Fixes World.binOf (onVa x) :=
  fixes_zoom fun _ _ => rfl

theorem getCpuId_bins : Fixes World.binOf getCpuId :=
  fixes_bind onVa_bins fun _ => fixes_pure

theorem mapIccTable_bins (len : ℕ) : Fixes World.binOf (mapIccTable len) := by
  refine fixes_bind onVa_bins fun answer => ?_
  cases answer with
  | some ptr => exact fixes_pure
  | none => exact fixes_throw

theorem ensureCache_bins : Fixes World.binOf ensureCache := by
  refine fixes_get_bind fun w => fixes_ite fixes_pure ?_
  refine fixes_bind (mapIccTable_bins _) fun _ => fixes_bind (mapIccTable_bins _) fun _ => ?_
  exact fixes_modify fun _ => rfl

theorem checkShard_bins (cpu cls : ℕ) : Fixes World.binOf (checkShard cpu cls) :=
  fixes_get_bind fun _ => fixes_ite fixes_throw (fixes_ite fixes_throw fixes_pure)

theorem setShard_bins (cpu cls word usage : ℕ) :
    Fixes World.binOf (setShard cpu cls word usage) :=
  fixes_modify fun _ => rfl

theorem tryPush_bins (cls head tail batchSize : ℕ) :
    Fixes World.binOf (tryPush cls head tail batchSize) := by
  refine fixes_bind ensureCache_bins fun _ => fixes_bind getCpuId_bins fun cpu => ?_
  refine fixes_bind (checkShard_bins cpu cls) fun _ => fixes_get_bind fun w => ?_
  exact fixes_bind (fixes_modify fun _ => rfl) fun _ => setShard_bins _ _ _ _

theorem pop_bins (cls batchSize cpu : ℕ) : Fixes World.binOf (pop cls batchSize cpu) := by
  refine fixes_bind ensureCache_bins fun _ => fixes_bind (checkShard_bins cpu cls) fun _ => ?_
  refine fixes_get_bind fun w => fixes_ite fixes_pure (fixes_ite fixes_pure ?_)
  refine fixes_bind (setShard_bins _ _ _ _) fun _ =>
    fixes_bind (fixes_modify fun _ => rfl) fun _ => ?_
  exact fixes_pure

theorem popVictims_bins (cls batchSize : ℕ) (victims : List ℕ) :
    Fixes World.binOf (popVictims cls batchSize victims) := by
  induction victims with
  | nil => exact fixes_pure
  | cons victim rest ih =>
    refine fixes_bind (pop_bins cls batchSize victim) fun found => ?_
    cases found with
    | some block => exact fixes_pure
    | none => exact ih

theorem tryPop_bins (cls batchSize : ℕ) : Fixes World.binOf (tryPop cls batchSize) := by
  refine fixes_bind getCpuId_bins fun cpu => fixes_get_bind fun w => ?_
  refine fixes_bind (pop_bins cls batchSize cpu) fun found => ?_
  cases found with
  | some block => exact fixes_pure
  | none => exact popVictims_bins _ _ _

theorem setPending_bins (t cls metadata : ℕ) : Fixes World.binOf (setPending t cls metadata) := by
  intro w u w' h
  obtain ⟨e, he, hw'⟩ := runs_setPending h
  rw [hw']
  funext t' cls'
  unfold World.binOf
  by_cases ht : t' = t
  · subst ht
    simp only [update_self, he, ThreadLocalEngine.setPending]
  · simp only [update_of_ne ht]

theorem initBlocks_bins (cls metadata blockSize maxBlocks : ℕ) :
    Fixes World.binOf (initBlocks cls metadata blockSize maxBlocks) := by
  intro w r w' h
  rw [initBlocks, runs_get_bind] at h
  dsimp only at h
  split at h
  · rw [(runs_pure.mp h).2]
  · rw [runs_set_bind] at h
    rw [(runs_pure.mp h).2]
    rfl

theorem keepRest_bins (t cls metadata blockSize : ℕ) :
    Fixes World.binOf (keepRest t cls metadata blockSize) :=
  fixes_get_bind fun _ => fixes_ite (setPending_bins _ _ _) fixes_pure

theorem dropRest_bins (t cls metadata blockSize : ℕ) :
    Fixes World.binOf (dropRest t cls metadata blockSize) :=
  fixes_get_bind fun _ => fixes_ite (setPending_bins _ _ _) fixes_pure

theorem mmapFixed_bins (addr len : ℕ) : Fixes World.binOf (mmapFixed addr len) :=
  fixes_bind onVa_bins fun _ => fixes_ite fixes_pure <|
    fixes_bind (fixes_modify fun _ => rfl) fun _ => fixes_pure

theorem madvise_bins (addr len : ℕ) (advice : Advice) :
    Fixes World.binOf (madvise addr len advice) := by
  refine fixes_bind onVa_bins fun _ => fixes_ite fixes_pure ?_
  cases advice with
  | dontNeed => exact fixes_bind (fixes_modify fun _ => rfl) fun _ => fixes_pure
  | hugepage => exact fixes_pure
  | normal => exact fixes_pure

theorem adviseSlab_bins (cls hint payloadSize : ℕ) :
    Fixes World.binOf (adviseSlab cls hint payloadSize) :=
  fixes_ite (fixes_bind (madvise_bins _ _ _) fun _ => fixes_pure) fixes_pure

theorem bumpBatchHint_bins (cls : ℕ) (up : Bool) : Fixes World.binOf (bumpBatchHint cls up) :=
  fixes_modify fun _ => rfl

/-- A thread that has a block in its cache takes it from there. -/
theorem popFromThread_bins {r : ℕ} (h : Runs (popFromThread t cls) w r w') :
    (r = 0 ∧ w' = w ∧ (w.binOf t cls).head = 0) ∨
      (r ≠ 0 ∧ ∃ head, w'.binOf = put w.binOf t cls ⟨head, (w.binOf t cls).usage - 1⟩) := by
  rw [popFromThread, runs_bind] at h
  obtain ⟨e, w₁, hengine, h⟩ := h
  obtain ⟨he, hw₁⟩ := runs_engine.mp hengine
  subst hw₁
  obtain ⟨bin, hbin, h⟩ := runs_attempt_bind.mp h
  obtain ⟨_, hbin⟩ := bin_eq_ok.mp hbin
  rw [binOf_eq he, ← hbin]
  split at h
  · rename_i hnull
    exact Or.inl ⟨(runs_pure.mp h).1, (runs_pure.mp h).2, hnull⟩
  · rename_i hhead
    rw [runs_get_bind] at h
    split at h
    · exact absurd h runs_throw
    · rw [setEngine, runs_modify_bind] at h
      obtain ⟨hr, hw'⟩ := runs_pure.mp h
      rw [hr, hw']
      exact Or.inr ⟨hhead, _, binOf_setEngine he _ _⟩

theorem pushToThreadTailed_bins {u : Unit} {head tail batchSize : ℕ}
    (h : Runs (pushToThreadTailed t cls head tail batchSize) w u w') :
    w'.binOf = put w.binOf t cls ⟨head, (w.binOf t cls).usage + batchSize⟩ := by
  rw [pushToThreadTailed, runs_bind] at h
  obtain ⟨e, w₁, hengine, h⟩ := h
  obtain ⟨he, hw₁⟩ := runs_engine.mp hengine
  subst hw₁
  obtain ⟨bin, hbin, h⟩ := runs_attempt_bind.mp h
  obtain ⟨_, hbin⟩ := bin_eq_ok.mp hbin
  rw [runs_modify_bind] at h
  split at h
  · exact absurd h runs_throw
  · rw [runs_modify.mp h, binOf_eq he, ← hbin]
    exact @binOf_setEngine { w₁ with mem := OxHeader.setNext w₁.mem tail bin.head } e t cls he _ _

end Bins

section Boot

/-- What a refill depends on: the bins, the counters of the shared cache and the hints. -/
def levels (w : World) : (ℕ → ℕ → TlsBin) × (ℕ → ℕ → ℕ) × (ℕ → ℕ) :=
  (w.binOf, w.icc.usage, w.batchHints)

theorem onVa_levels {α : Type} {x : VaBitmap.VaM α} : Fixes levels (onVa x) :=
  fixes_zoom fun _ _ => rfl

/-- The cache of a new thread is empty. -/
theorem getOrInit_levels (t : ℕ) : Fixes levels (getOrInit t) := by
  intro w u w' h
  rw [getOrInit, runs_get_bind] at h
  cases hengine : w.engines t with
  | some e =>
    simp only [hengine] at h
    rw [(runs_pure.mp h).2]
  | none =>
    simp only [hengine] at h
    obtain ⟨answer, w₁, hmap, h⟩ := runs_bind.mp h
    obtain ⟨va, _, hw₁⟩ := runs_onVa.mp hmap
    cases answer with
    | none => exact absurd h runs_throw
    | some ptr =>
      have hbins : w'.binOf = w.binOf := by
        funext t' cls'
        rw [runs_modify.mp h, hw₁]
        unfold World.binOf
        by_cases ht : t' = t
        · subst ht
          simp only [update_self, hengine]
          rfl
        · simp only [update_of_ne ht]
      rw [levels, hbins, runs_modify.mp h, hw₁]
      rfl

theorem initReverse_levels : Fixes levels initReverse := by
  refine fixes_get_bind fun w => ?_
  cases w.env.maxReservation with
  | none => exact fixes_pure
  | some val => exact fixes_modify fun _ => rfl

theorem initThp_levels : Fixes levels initThp := by
  refine fixes_get_bind fun w => ?_
  cases w.env.forceThp with
  | none => exact fixes_pure
  | some val => exact fixes_ite (fixes_modify fun _ => rfl) fixes_pure

theorem initMagic_levels : Fixes levels initMagic :=
  fixes_bind onVa_levels fun _ => fixes_get_bind fun _ => fixes_modify fun _ => rfl

theorem bootStrap_levels (t : ℕ) : Fixes levels (bootStrap t) := by
  refine fixes_get_bind fun w => fixes_ite fixes_pure ?_
  refine fixes_bind (getOrInit_levels t) fun _ => fixes_bind initReverse_levels fun _ => ?_
  refine fixes_bind initThp_levels fun _ => fixes_bind onVa_levels fun _ => ?_
  exact fixes_bind initMagic_levels fun _ => fixes_modify fun _ => rfl

theorem countBoot_levels : Fixes levels countBoot := by
  intro w u w' h
  rw [countBoot, runs_get_bind] at h
  split at h
  · rw [runs_set.mp h]
    rfl
  · split at h
    · rw [runs_set.mp h]
      rfl
    · rw [(runs_pure.mp h).2]

end Boot

section Trim

theorem popFromGlobal_bins (cls : ℕ) : Fixes World.binOf (GTrim.popFromGlobal cls) := by
  refine fixes_bind (tryPop_bins cls 16) fun head => fixes_ite fixes_pure ?_
  refine fixes_get_bind fun w => fixes_bind fixes_attempt fun counted => ?_
  exact fixes_bind (fixes_modify fun _ => rfl) fun _ => fixes_pure

theorem sortBatch_bins (timing n block : ℕ) (q : GTrim.Tally) (toPush : ℕ) :
    Fixes World.binOf (GTrim.sortBatch timing n block q toPush) := by
  induction n generalizing block q toPush with
  | zero => exact fixes_pure
  | succ n ih =>
    refine fixes_get_bind fun w => fixes_bind fixes_attempt fun q => fixes_ite ?_ ?_
    · exact fixes_bind (fixes_modify fun _ => rfl) fun _ => ih _ _ _
    · exact fixes_bind (fixes_modify fun _ => rfl) fun _ => ih _ _ _

theorem pushBack_bins (cls toPush : ℕ) : Fixes World.binOf (GTrim.pushBack cls toPush) := by
  unfold GTrim.pushBack
  refine fixes_get_bind fun w => ?_
  generalize recount w.isOurs w.mem 15 toPush 1 = counted
  exact fixes_bind (fixes_modify fun _ => rfl) fun _ => tryPush_bins _ _ _ _

theorem trimRounds_bins (cls timing n : ℕ) (q : GTrim.Tally) :
    Fixes World.binOf (GTrim.trimRounds cls timing n q) := by
  induction n generalizing q with
  | zero => exact fixes_pure
  | succ n ih =>
    refine fixes_bind (popFromGlobal_bins cls) fun popped => fixes_ite fixes_pure ?_
    refine fixes_bind (sortBatch_bins _ _ _ _ _) fun sorted => fixes_ite (ih _) ?_
    exact fixes_bind (pushBack_bins _ _) fun _ => ih _

theorem releaseMemory_bins (header size : ℕ) :
    Fixes World.binOf (GTrim.releaseMemory header size) :=
  fixes_bind fixes_attempt fun _ => fixes_ite fixes_pure <|
    fixes_bind (madvise_bins _ _ _) fun _ => fixes_pure

theorem releaseLoop_bins (cls size pad : ℕ) (forceTrim : Bool) (n toTrim totalFreed : ℕ) :
    Fixes World.binOf (GTrim.releaseLoop cls size pad forceTrim n toTrim totalFreed) := by
  induction n generalizing toTrim totalFreed with
  | zero => exact fixes_pure
  | succ n ih =>
    refine fixes_ite fixes_pure (fixes_get_bind fun w => fixes_ite ?_ ?_)
    · refine fixes_bind (releaseMemory_bins _ _) fun _ => fixes_ite fixes_throw ?_
      exact fixes_bind (tryPush_bins _ _ _ _) fun _ => ih _ _
    · exact fixes_bind (tryPush_bins _ _ _ _) fun _ => ih _ _

theorem trimClasses_bins (timing pad : ℕ) (forceTrim : Bool) (classes : List ℕ) (q : GTrim.Tally)
    (totalFreed : ℕ) :
    Fixes World.binOf (GTrim.trimClasses timing pad forceTrim classes q totalFreed) := by
  induction classes generalizing q totalFreed with
  | nil => exact fixes_pure
  | cons cls rest ih =>
    refine fixes_ite fixes_pure (fixes_bind ?_ fun _ => ih _ _)
    refine fixes_bind fixes_attempt fun size => fixes_bind ?_ fun classUsage => ?_
    · exact fixes_get_bind fun _ => fixes_attempt
    · refine fixes_bind (trimRounds_bins _ _ _ _) fun q => ?_
      exact fixes_bind (releaseLoop_bins _ _ _ _ _ _ _) fun _ => fixes_pure

theorem trim_bins (pad : ℕ) : Fixes World.binOf (GTrim.trim pad) := by
  refine fixes_get_bind fun w => fixes_bind (trimClasses_bins _ _ _ _ _ _) fun result => ?_
  refine fixes_ite fixes_pure (fixes_bind ?_ fun _ => fixes_pure)
  exact fixes_ite (fixes_modify fun _ => rfl) fixes_pure

end Trim

end Oxidalloc.ThreadBins
