import Oxidalloc.GTrim
import Oxidalloc.GhostState

/-!
`GTrim::trim` with a record of the blocks whose age it compares and of the blocks that it
passes to `release_memory`, in their order. Without the record it is `trim`.
-/
namespace Oxidalloc.GTrim

open GhostState Programs

structure TrimLog where
  examined : List ℕ
  released : List ℕ

abbrev TracedM := Program Halt (World × TrimLog)

def examine (block : ℕ) : TracedM Unit :=
  GhostState.record fun log => { log with examined := log.examined ++ [block] }

def release (block : ℕ) : TracedM Unit :=
  GhostState.record fun log => { log with released := log.released ++ [block] }

def tracedSortBatch (timing : ℕ) : ℕ → ℕ → Tally → ℕ → TracedM (Tally × ℕ)
  | 0, _, q, toPush => pure (q, toPush)
  | n + 1, block, q, toPush => do
    let w ← quietly get
    let next := OxHeader.next w.mem block
    let lifeTime := w.currentStamp - OxHeader.lifeTime w.mem block
    let q ← attempt (q.note lifeTime)
    examine block
    if timing < lifeTime then do
      quietly (modify fun w => { w with mem := OxHeader.setNext w.mem block q.toTrim })
      tracedSortBatch timing n next { q with toTrim := block } toPush
    else do
      quietly (modify fun w => { w with mem := OxHeader.setNext w.mem block toPush })
      tracedSortBatch timing n next q block

def tracedRounds (cls timing : ℕ) : ℕ → Tally → TracedM Tally
  | 0, q => pure q
  | n + 1, q => do
    let (cache, size) ← quietly (popFromGlobal cls)
    if cache = 0 then pure q
    else do
      let (q, toPush) ← tracedSortBatch timing size cache q 0
      if toPush = 0 then tracedRounds cls timing n q
      else do
        quietly (pushBack cls toPush)
        tracedRounds cls timing n q

def tracedReleaseLoop (cls size pad : ℕ) (forceTrim : Bool) : ℕ → ℕ → ℕ → TracedM ℕ
  | 0, _, totalFreed => pure totalFreed
  | n + 1, toTrim, totalFreed =>
    if toTrim = 0 then pure totalFreed
    else do
      let w ← quietly get
      let next := OxHeader.next w.mem toTrim
      if (totalFreed ≤ pad ∨ pad = 0) ∨ forceTrim = true then do
        release toTrim
        quietly (releaseMemory toTrim size)
        if usizeBound ≤ totalFreed + size then throw .panic
        else do
          quietly (pushToGlobal cls toTrim toTrim 1)
          tracedReleaseLoop cls size pad forceTrim n next (totalFreed + size)
      else do
        quietly (pushToGlobal cls toTrim toTrim 1)
        tracedReleaseLoop cls size pad forceTrim n next totalFreed

def tracedTrimClass (cls timing pad : ℕ) (forceTrim : Bool) (q : Tally) (totalFreed : ℕ) :
    TracedM (Tally × ℕ) := do
  let size ← attempt (index sizeClasses cls)
  let classUsage ← quietly (getSize cls)
  let q ← tracedRounds cls timing (classUsage / 16) { q with toTrim := 0 }
  let totalFreed ← tracedReleaseLoop cls size pad forceTrim
    (classUsage / 16 * 16) q.toTrim totalFreed
  pure (q, totalFreed)

def tracedTrimClasses (timing pad : ℕ) (forceTrim : Bool) :
    List ℕ → Tally → ℕ → TracedM (Tally × ℕ × Bool)
  | [], q, totalFreed => pure (q, totalFreed, false)
  | cls :: rest, q, totalFreed =>
    if pad ≤ totalFreed ∧ pad ≠ 0 then pure (q, totalFreed, true)
    else do
      let (q, totalFreed) ← tracedTrimClass cls timing pad forceTrim q totalFreed
      tracedTrimClasses timing pad forceTrim rest q totalFreed

def tracedTrim (pad : ℕ) : TracedM (ℕ × ℕ) := do
  let w ← quietly get
  let forceTrim := decide (90 < w.lastPressureCheck)
  let timing := w.averageBlockTimes % 2 ^ 32
  let (q, totalFreed, early) ← tracedTrimClasses timing pad forceTrim
    (List.range' getSize4096Class (numSizeClasses - getSize4096Class)) ⟨0, 0, 0⟩ 0
  if early then pure (1, totalFreed)
  else do
    quietly (storeAverage q)
    pure (if pad ≤ totalFreed then 1 else 0, totalFreed)

section Erasure

theorem sortBatch_erases (timing n block : ℕ) (q : Tally) (toPush : ℕ) :
    Erases (tracedSortBatch timing n block q toPush) (sortBatch timing n block q toPush) := by
  induction n generalizing block q toPush with
  | zero => exact erases_pure
  | succ n ih =>
    refine erases_bind erases_quietly fun w => erases_bind erases_attempt fun q => ?_
    refine erases_record_bind (erases_ite ?_ ?_)
    · exact erases_bind erases_quietly fun _ => ih _ _ _
    · exact erases_bind erases_quietly fun _ => ih _ _ _

theorem trimRounds_erases (cls timing n : ℕ) (q : Tally) :
    Erases (tracedRounds cls timing n q) (trimRounds cls timing n q) := by
  induction n generalizing q with
  | zero => exact erases_pure
  | succ n ih =>
    refine erases_bind erases_quietly fun r => erases_ite erases_pure ?_
    refine erases_bind (sortBatch_erases _ _ _ _ _) fun r => erases_ite (ih _) ?_
    exact erases_bind erases_quietly fun _ => ih _

theorem releaseLoop_erases (cls size pad : ℕ) (forceTrim : Bool) (n toTrim totalFreed : ℕ) :
    Erases (tracedReleaseLoop cls size pad forceTrim n toTrim totalFreed)
      (releaseLoop cls size pad forceTrim n toTrim totalFreed) := by
  induction n generalizing toTrim totalFreed with
  | zero => exact erases_pure
  | succ n ih =>
    refine erases_ite erases_pure (erases_bind erases_quietly fun w => erases_ite ?_ ?_)
    · refine erases_record_bind (erases_bind erases_quietly fun _ => erases_ite erases_throw ?_)
      exact erases_bind erases_quietly fun _ => ih _ _
    · exact erases_bind erases_quietly fun _ => ih _ _

theorem trimClass_erases (cls timing pad : ℕ) (forceTrim : Bool) (q : Tally) (totalFreed : ℕ) :
    Erases (tracedTrimClass cls timing pad forceTrim q totalFreed)
      (trimClass cls timing pad forceTrim q totalFreed) := by
  refine erases_bind erases_attempt fun size => erases_bind erases_quietly fun classUsage => ?_
  refine erases_bind (trimRounds_erases _ _ _ _) fun q => ?_
  exact erases_bind (releaseLoop_erases _ _ _ _ _ _ _) fun _ => erases_pure

theorem trimClasses_erases (timing pad : ℕ) (forceTrim : Bool) (classes : List ℕ) (q : Tally)
    (totalFreed : ℕ) :
    Erases (tracedTrimClasses timing pad forceTrim classes q totalFreed)
      (trimClasses timing pad forceTrim classes q totalFreed) := by
  induction classes generalizing q totalFreed with
  | nil => exact erases_pure
  | cons cls rest ih =>
    exact erases_ite erases_pure (erases_bind (trimClass_erases _ _ _ _ _ _) fun _ => ih _ _)

/-- The trim with the record is the trim. -/
theorem trim_erases (pad : ℕ) : Erases (tracedTrim pad) (trim pad) := by
  refine erases_bind erases_quietly fun w => ?_
  refine erases_bind (trimClasses_erases _ _ _ _ _ _) fun r => erases_ite erases_pure ?_
  exact erases_bind erases_quietly fun _ => erases_pure

end Erasure

end Oxidalloc.GTrim
