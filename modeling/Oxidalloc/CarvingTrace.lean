import Oxidalloc.BulkFillSpec
import Oxidalloc.GhostState
import Oxidalloc.ThreadExit

/-!
`bulk_fill` and `drain_pending` with a record of the slabs that they open and of what each
call of `init_blocks` returns for them. Without the record they are the programs of the
model.
-/
namespace Oxidalloc.SlabPartition

open ByteMemory GhostState Programs

/-- What `init_blocks` has returned, with the memory at that time. -/
structure Chunk where
  head : ℕ
  tail : ℕ
  count : ℕ
  mem : Memory

/-- A slab, by the address of its metadata, with its chunks from the first to the last. -/
structure Region where
  base : ℕ
  chunks : List Chunk

def Region.add (r : Region) (c : Chunk) : Region := { r with chunks := r.chunks ++ [c] }

/-- The slabs of one thread and class, the newest first. -/
abbrev TracedM := Program Halt (World × List Region)

/-- A chunk belongs to the newest slab. -/
def addChunk (c : Chunk) : List Region → List Region
  | [] => []
  | r :: older => r.add c :: older

def tracedInitBlocks (cls metadata blockSize maxBlocks : ℕ) : TracedM (ℕ × ℕ × ℕ) := do
  let (head, tail, count) ← quietly (initBlocks cls metadata blockSize maxBlocks)
  let w ← quietly get
  GhostState.record (addChunk ⟨head, tail, count, w.mem⟩)
  pure (head, tail, count)

def tracedOpenSlab (t cls hint blockSize : ℕ) : TracedM Bool := do
  GhostState.record fun regions => ⟨hint, []⟩ :: regions
  let (head, tail, count) ← tracedInitBlocks cls hint blockSize (maxInit blockSize)
  if count = 0 then pure false
  else do
    quietly (handOut t cls head tail count)
    quietly (keepRest t cls hint blockSize)
    quietly (modify fun w => { w with slabs := w.slabs.add hint cls })
    pure true

def tracedNewSlab (t cls payloadSize blockSize numBlocks : ℕ) : TracedM Bool := do
  let found ← quietly (mapSlab cls payloadSize blockSize numBlocks)
  found.elim (pure false) fun hint => tracedOpenSlab t cls hint blockSize

def tracedBulkFill (t cls : ℕ) : TracedM Bool := do
  let payloadSize ← attempt (index sizeClasses cls)
  let blockSize ← attempt (alignTo (payloadSize + headerSize) 16)
  let numBlocks ← attempt (index iterations cls)
  let e ← quietly (engine t)
  let pending := e.pending cls
  if pending = 0 then tracedNewSlab t cls payloadSize blockSize numBlocks
  else do
    let (head, tail, count) ← tracedInitBlocks cls pending blockSize (maxInit blockSize)
    if 0 < count then do
      quietly (pushToThreadTailed t cls head tail count)
      quietly (dropRest t cls pending blockSize)
      pure true
    else do
      quietly (setPending t cls 0)
      tracedNewSlab t cls payloadSize blockSize numBlocks

def tracedDrainPending (e : ThreadLocalEngine) (cls : ℕ) : TracedM ThreadLocalEngine :=
  let pending := e.pending cls
  if pending = 0 then pure e
  else do
    let payloadSize ← attempt (index sizeClasses cls)
    let blockSize ← attempt (alignTo (payloadSize + headerSize) 16)
    let w ← quietly get
    let remaining := remainingBlocks w.mem pending blockSize
    if 0 < remaining then do
      let (head, tail, count) ← tracedInitBlocks cls pending blockSize remaining
      if 0 < count then do
        quietly (pushToGlobal cls head tail count)
        pure (e.setPending cls 0)
      else pure (e.setPending cls 0)
    else pure (e.setPending cls 0)

/-- `drain_pending` on the engine of a thread. -/
def tracedDrain (t cls : ℕ) : TracedM Unit := do
  let e ← quietly (engine t)
  let e ← tracedDrainPending e cls
  quietly (setEngine t e)

section Erasure

theorem initBlocks_erases (cls metadata blockSize maxBlocks : ℕ) :
    Erases (tracedInitBlocks cls metadata blockSize maxBlocks)
      (initBlocks cls metadata blockSize maxBlocks) := by
  rw [← bind_pure (initBlocks cls metadata blockSize maxBlocks)]
  exact erases_bind erases_quietly fun r _ => rfl

theorem openSlab_erases (t cls hint blockSize : ℕ) :
    Erases (tracedOpenSlab t cls hint blockSize) (openSlab t cls hint blockSize) := by
  refine erases_record_bind (erases_bind (initBlocks_erases _ _ _ _) fun r => ?_)
  refine erases_ite erases_pure (erases_bind erases_quietly fun _ => ?_)
  exact erases_bind erases_quietly fun _ => erases_bind erases_quietly fun _ => erases_pure

theorem newSlab_erases (t cls payloadSize blockSize numBlocks : ℕ) :
    Erases (tracedNewSlab t cls payloadSize blockSize numBlocks)
      (newSlab t cls payloadSize blockSize numBlocks) := by
  rw [newSlab_eq]
  refine erases_bind erases_quietly fun found => ?_
  cases found with
  | none => exact erases_pure
  | some hint => exact openSlab_erases _ _ _ _

theorem bulkFill_erases (t cls : ℕ) : Erases (tracedBulkFill t cls) (bulkFill t cls) := by
  refine erases_bind erases_attempt fun payloadSize =>
    erases_bind erases_attempt fun blockSize => ?_
  refine erases_bind erases_attempt fun numBlocks => erases_bind erases_quietly fun e => ?_
  refine erases_ite (newSlab_erases _ _ _ _ _) ?_
  refine erases_bind (initBlocks_erases _ _ _ _) fun r => erases_ite ?_ ?_
  · exact erases_bind erases_quietly fun _ => erases_bind erases_quietly fun _ => erases_pure
  · exact erases_bind erases_quietly fun _ => newSlab_erases _ _ _ _ _

end Erasure

end Oxidalloc.SlabPartition
