import Oxidalloc.HeadPacking
import Oxidalloc.World

/-!
The slab layer: the shared cache `ICC` with one list for every CPU and class, the slabs
that `bulk_fill` carves into blocks, and the allocation of a block through the cache of
the thread. Each operation is one step here, so every `compare_exchange` succeeds.
-/
namespace Oxidalloc

open ByteMemory HeadPacking Programs Function

section Interconnect

def mapIccTable (len : ℕ) : OxM Unit := do
  match ← onVa (VaBitmap.mmapMemory len) with
  | some _ => pure ()
  | none => throw (.abort .iccFailedToInitialize "MMAP call failed")

/-- The tables are zeroed by the mapping, as they are from the start. -/
def ensureCache : OxM Unit := do
  let w ← get
  if w.icc.once then pure ()
  else do
    mapIccTable (numSizeClasses * 8 * w.env.cpuCount)
    mapIccTable (numSizeClasses * 8 * w.env.cpuCount)
    modify fun w => { w with icc := { w.icc with ncpu := w.env.cpuCount, once := true } }

/-- `get_cpu_id().unwrap_or(0)`; the answer 0 stands for an error. -/
def getCpuId : OxM ℕ := do
  let answer ← draw
  pure (answer - 1)

def put {α : Type} (table : ℕ → ℕ → α) (cpu cls : ℕ) (v : α) : ℕ → ℕ → α :=
  update table cpu (update (table cpu) cls v)

theorem put_apply {α : Type} (table : ℕ → ℕ → α) (cpu cls : ℕ) (v : α) (cpu' cls' : ℕ) :
    put table cpu cls v cpu' cls' = if cpu' = cpu ∧ cls' = cls then v else table cpu' cls' := by
  unfold put
  by_cases hcpu : cpu' = cpu
  · subst hcpu
    simp only [update_self, update_apply, true_and]
  · simp only [update_of_ne hcpu, hcpu, false_and, if_false]

/-- The tables have no entry beyond the last CPU and class. -/
def checkShard (cpu cls : ℕ) : OxM Unit := do
  let w ← get
  if w.icc.ncpu ≤ cpu then throw .fault
  else if numSizeClasses ≤ cls then throw .panic
  else pure ()

def setShard (cpu cls word usage : ℕ) : OxM Unit :=
  modify fun w =>
    { w with
      icc := { w.icc with
        list := put w.icc.list cpu cls word
        usage := put w.icc.usage cpu cls usage } }

def tryPush (cls head tail batchSize : ℕ) : OxM Unit := do
  ensureCache
  let cpu ← getCpuId
  checkShard cpu cls
  let w ← get
  let current := w.icc.list cpu cls
  modify fun w => { w with mem := OxHeader.setNext w.mem tail (headPtr current) }
  setShard cpu cls (headPack head ((headTag current + 1) % usizeBound))
    ((w.icc.usage cpu cls + batchSize) % usizeBound)

/-- The first n shards of `get_size`; the sum is checked. -/
def sumUsage (usage : ℕ → ℕ → ℕ) (cls : ℕ) : ℕ → Except Halt ℕ
  | 0 => .ok 0
  | n + 1 => do
    let total ← sumUsage usage cls n
    if usizeBound ≤ total + usage n cls then .error .panic else .ok (total + usage n cls)

def getSize (cls : ℕ) : OxM ℕ := do
  let w ← get
  attempt (sumUsage w.icc.usage cls w.icc.ncpu)

/-- The `for _ in 1..batch_size` loop of `pop`: the last block of the batch and the
number of blocks up to it. -/
def batchTail (m : Memory) : ℕ → ℕ → ℕ → ℕ × ℕ
  | 0, tail, count => (tail, count)
  | n + 1, tail, count =>
    if OxHeader.next m tail = 0 then (tail, count)
    else batchTail m n (OxHeader.next m tail) (count + 1)

def pop (cls batchSize cpu : ℕ) : OxM (Option ℕ) := do
  ensureCache
  checkShard cpu cls
  let w ← get
  if w.icc.usage cpu cls = 0 then pure none
  else
    let cur := w.icc.list cpu cls
    let head := headPtr cur
    if head = 0 then pure none
    else do
      let (tail, count) := batchTail w.mem (batchSize - 1) head 1
      setShard cpu cls (headPack (OxHeader.next w.mem tail) ((headTag cur + 1) % usizeBound))
        ((w.icc.usage cpu cls + (usizeBound - count)) % usizeBound)
      modify fun w => { w with mem := OxHeader.setNext w.mem tail 0 }
      pure (some head)

/-- The loop of `try_pop` over the other CPUs. -/
def popVictims (cls batchSize : ℕ) : List ℕ → OxM ℕ
  | [] => pure 0
  | victim :: rest => do
    match ← pop cls batchSize victim with
    | some block => pure block
    | none => popVictims cls batchSize rest

def tryPop (cls batchSize : ℕ) : OxM ℕ := do
  let cpu ← getCpuId
  let w ← get
  match ← pop cls batchSize cpu with
  | some popped => pure popped
  | none =>
    popVictims cls batchSize
      ((List.range' 1 (w.icc.ncpu - 1)).map fun i => (cpu + i) % w.icc.ncpu)

def pushToGlobal (cls head tail batchSize : ℕ) : OxM Unit := tryPush cls head tail batchSize

def popFromGlobal (cls batchSize : ℕ) : OxM ℕ := tryPop cls batchSize

end Interconnect

section BulkAllocation

def remainingBlocks (m : Memory) (metadata blockSize : ℕ) : ℕ :=
  (MetaData.stop m metadata - MetaData.next m metadata) / blockSize

/-- The `for i in (0..count).rev()` loop of `init_blocks`, with the head and the tail of
the chain so far. -/
def carve (cls base blockSize : ℕ) (magic : UInt8) (stamp : ℕ) :
    ℕ → Memory → ℕ → ℕ → Memory × ℕ × ℕ
  | 0, m, head, tail => (m, head, tail)
  | i + 1, m, head, tail =>
    let current := base + i * blockSize
    carve cls base blockSize magic stamp i (OxHeader.write m current head cls magic stamp)
      current (if head = 0 then current else tail)

def initBlocks (cls metadata blockSize maxBlocks : ℕ) : OxM (ℕ × ℕ × ℕ) := do
  let w ← get
  let remaining := remainingBlocks w.mem metadata blockSize
  if remaining = 0 then pure (0, 0, 0)
  else do
    let count := min remaining maxBlocks
    let base := MetaData.next w.mem metadata
    let (m, head, tail) := carve cls base blockSize w.freedMagic w.currentStamp count w.mem 0 0
    set { w with mem := MetaData.setNext m metadata (base + count * blockSize) }
    pure (head, tail, count)

def setPending (t cls metadata : ℕ) : OxM Unit := do
  let e ← engine t
  setEngine t (e.setPending cls metadata)

/-- How many blocks one call of `bulk_fill` initialises. -/
def maxInit (blockSize : ℕ) : ℕ :=
  if 48 ≤ 4096 / blockSize then 48 else max (4096 / blockSize) 1

/-- The new blocks go to the thread, or to the shared cache if the thread has enough. -/
def handOut (t cls head tail count : ℕ) : OxM Unit := do
  let e ← engine t
  let bin ← attempt (e.bin cls)
  let limit ← attempt (tlsMaxBlocks cls)
  if limit ≤ bin.usage then pushToGlobal cls head tail count
  else pushToThreadTailed t cls head tail count

/-- The largest class is advised to use huge pages; the answer is ignored. -/
def adviseSlab (cls hint payloadSize : ℕ) : OxM Unit :=
  if cls = numSizeClasses - 1 then do
    let _ ← madvise (hint + headerSize) payloadSize .hugepage
    pure ()
  else pure ()

def keepRest (t cls metadata blockSize : ℕ) : OxM Unit := do
  let w ← get
  if 0 < remainingBlocks w.mem metadata blockSize then setPending t cls metadata else pure ()

/-- The first blocks of a new slab are carved and handed out. -/
def openSlab (t cls hint blockSize : ℕ) : OxM Bool := do
  let (head, tail, count) ← initBlocks cls hint blockSize (maxInit blockSize)
  if count = 0 then pure false
  else do
    handOut t cls head tail count
    keepRest t cls hint blockSize
    modify fun w => { w with slabs := w.slabs.add hint cls }
    pure true

/-- The second part of `bulk_fill`: a new slab. -/
def newSlab (t cls payloadSize blockSize numBlocks : ℕ) : OxM Bool := do
  let total := metaDataSize + blockSize * numBlocks
  match ← onVa (VaBitmap.alloc total) with
  | none => throw (.abort .vaBitmapExhausted "VA bitmap exhausted | This is expected")
  | some hint => do
    if ← mmapFixed hint total then do
      modify fun w =>
        { w with mem := MetaData.write w.mem hint hint (hint + total) (hint + metaDataSize) }
      adviseSlab cls hint payloadSize
      openSlab t cls hint blockSize
    else do
      onVa (VaBitmap.free hint total)
      pure false

/-- A pending slab that is used up is forgotten. -/
def dropRest (t cls metadata blockSize : ℕ) : OxM Unit := do
  let w ← get
  if remainingBlocks w.mem metadata blockSize = 0 then setPending t cls 0 else pure ()

/-- The result is false for `Err(OutOfMemory)`. -/
def bulkFill (t cls : ℕ) : OxM Bool := do
  let payloadSize ← attempt (index sizeClasses cls)
  let blockSize ← attempt (alignTo (payloadSize + headerSize) 16)
  let numBlocks ← attempt (index iterations cls)
  let e ← engine t
  let pending := e.pending cls
  if pending = 0 then newSlab t cls payloadSize blockSize numBlocks
  else do
    let (head, tail, count) ← initBlocks cls pending blockSize (maxInit blockSize)
    if 0 < count then do
      pushToThreadTailed t cls head tail count
      dropRest t cls pending blockSize
      pure true
    else do
      setPending t cls 0
      newSlab t cls payloadSize blockSize numBlocks

end BulkAllocation

section Allocate

def batchMin : ℕ := 8
def batchMax : ℕ := 32

def clampBatch (val : ℕ) : ℕ := min (max val batchMin) batchMax

def bumpBatchHint (cls : ℕ) (up : Bool) : OxM Unit :=
  modify fun w =>
    let cur := clampBatch (w.batchHints cls)
    let next := if up then min (cur + 1) batchMax else max (cur - 2) batchMin
    { w with batchHints := update w.batchHints cls next }

/-- The loop that counts a popped batch again: it follows the next pointers as long as
they are not null and lead to addresses of ours. -/
def recount (ours : ℕ → Bool) (m : Memory) : ℕ → ℕ → ℕ → ℕ × ℕ
  | 0, tail, real => (tail, real)
  | n + 1, tail, real =>
    if OxHeader.next m tail ≠ 0 ∧ ours (OxHeader.next m tail) = true then
      recount ours m n (OxHeader.next m tail) (real + 1)
    else (tail, real)

/-- The `for i in 0..3` loop of `try_fill`. -/
def fillAttempts (t cls : ℕ) : ℕ → OxM ℕ
  | 0 => pure 0
  | n + 1 => do
    if ← bulkFill t cls then do
      let output ← popFromThread t cls
      bumpBatchHint cls true
      pure output
    else fillAttempts t cls n

def tryFill (t cls : ℕ) : OxM ℕ := do
  let w ← get
  let batch := clampBatch (w.batchHints cls)
  let globalCache ← popFromGlobal cls batch
  if globalCache ≠ 0 then do
    let w ← get
    let (tail, real) := recount w.isOurs w.mem (batch - 1) globalCache 1
    modify fun w => { w with mem := OxHeader.setNext w.mem tail 0 }
    pushToThreadTailed t cls globalCache tail real
    bumpBatchHint cls (decide (real = batch))
    popFromThread t cls
  else do
    bumpBatchHint cls false
    fillAttempts t cls 3

def popOrFill (t cls : ℕ) : OxM ℕ := do
  let cache ← popFromThread t cls
  if cache = 0 then tryFill t cls else pure cache

/-- The part that `allocate_hot` and `allocate_boot_segment` share. -/
def takeBlock (t cls : ℕ) : OxM ℕ := do
  getOrInit t
  let cache ← popOrFill t cls
  if cache = 0 then pure 0
  else do
    modify fun w => { w with mem := OxHeader.setMagic w.mem cache w.magic }
    pure (cache + headerSize)

def allocateHot (t cls : ℕ) : OxM ℕ := takeBlock t cls

/-- The trim thread that is spawned here takes no part in a sequential run. -/
def countBoot : OxM Unit := do
  let w ← get
  if w.totalMallocFree < 1024 then set { w with totalMallocFree := w.totalMallocFree + 1 }
  else if w.threadSpawned = false then set { w with threadSpawned := true, hotReady := true }
  else pure ()

def allocateBootSegment (t cls : ℕ) : OxM ℕ := do
  bootStrap t
  countBoot
  takeBlock t cls

def allocateClass (t cls : ℕ) : OxM ℕ := do
  let w ← get
  if w.hotReady then allocateHot t cls else allocateBootSegment t cls

end Allocate

end Oxidalloc
