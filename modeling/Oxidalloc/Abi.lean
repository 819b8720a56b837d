import Oxidalloc.CInterface
import Oxidalloc.Slab

/-!
The C interface of the modelled allocator: the backend of thread t reads and writes the bytes
of the headers, and stands on the bitmap, the map of the big blocks, the caches and the
statics of the process. The next library does not touch the state that is modelled here.
-/
namespace Oxidalloc

open ByteMemory Hashmap Programs

def setErrno (code : ℕ) : OxM Unit := modify fun w => { w with errno := code }

section Machine

def bigInsert (header size : ℕ) : OxM Unit := do
  let answer ← draw
  let w ← get
  let big ← attempt (w.big.insert (decide (answer ≠ 0)) header ⟨size, 100, 0, 0⟩)
  set { w with big := big }

def bigRemove (header : ℕ) : OxM (Option BigAllocMeta) := do
  let w ← get
  set { w with big := (w.big.remove header).1 }
  pure (w.big.remove header).2

/-- The answers to a part of the calls are ignored. -/
abbrev machine : CInterface.Machine OxM where
  headerSize := headerSize
  check := attempt
  lookup := fun table i => attempt (index table i)
  missing := fun message => throw (.abort .attackOrCorruption message)
  forceThp := read fun w => w.forceThp
  vaAlloc := fun size => onVa (VaBitmap.alloc size)
  vaFree := fun addr size => onVa (VaBitmap.free addr size)
  vaReallocInplace := fun header oldSize newSize =>
    onVa (VaBitmap.reallocInplace header oldSize newSize)
  permit := fun addr len => protectMemory addr len true
  forbid := fun addr len => do
    let _ ← protectMemory addr len false
    pure ()
  mmapFixed := mmapFixed
  discard := fun addr len => madvise addr len .dontNeed
  advise := fun addr len advice => do
    let _ ← madvise addr len advice
    pure ()
  write := fun f => modify fun w => { w with mem := f w.mem }
  classOf := fun header => read fun w => OxHeader.cls w.mem header
  setClass := fun header cls => modify fun w => { w with mem := OxHeader.setClass w.mem header cls }
  writeBig := fun header =>
    modify fun w => { w with mem := OxHeader.write w.mem header 0 100 w.magic 0 }
  markFreed := fun header =>
    modify fun w => { w with mem := OxHeader.setMagic w.mem header w.freedMagic }
  bigGet := fun header => read fun w => w.big.get header
  bigInsert := bigInsert
  bigRemove := bigRemove

end Machine

section Backend

/-- The test for the tag of `posix_memalign`: the pointer that `malloc` returned, and
the distance to it. -/
def resolve (ptr : ℕ) : OxM (ℕ × ℕ) := do
  let w ← get
  let presumed := load w.mem (ptr - offsetSize) 8
  if load w.mem (ptr - tagSize) 8 = oxAlignTag ∧ w.isOurs presumed = true then
    pure (presumed, (ptr + (usizeBound - presumed)) % usizeBound)
  else pure (ptr, 0)

def validatePtrForAbi (header : ℕ) : OxM Unit := do
  let w ← get
  if OxHeader.magic w.mem header = w.magic then pure ()
  else if OxHeader.magic w.mem header = w.freedMagic then
    throw (.abort .doubleFree "Pointer is tagged as in_use")
  else
    throw (.abort .attackOrCorruption
      "Attack or corruption detected; aborting process. External system access and RAM module checks recommended.")

/-- The part of `free_internal` for a block of a slab class. -/
def slabFree (t cls header : ℕ) : OxM Unit := do
  modify fun w =>
    { w with
      mem := OxHeader.setLifeTime (OxHeader.setMagic w.mem header w.freedMagic) header
        w.currentStamp }
  getOrInit t
  let e ← engine t
  let bin ← attempt (e.bin cls)
  let limit ← attempt (tlsMaxBlocks cls)
  if limit ≤ bin.usage then pushToGlobal cls header header 1 else pushToThread t cls header

/-- `free_boot_segment` counts the calls. -/
def countFree : OxM Unit := do
  let w ← get
  if w.hotReady then pure ()
  else set { w with totalMallocFree := (w.totalMallocFree + 1) % usizeBound }

abbrev backend (t : ℕ) : CInterface.Backend OxM where
  toMachine := machine
  setErrno := setErrno
  bootStrap := bootStrap t
  allocate := allocateClass t
  isOurs := fun ptr => read fun w => w.isOurs ptr
  fallback := draw
  resolve := resolve
  validatePtrForAbi := validatePtrForAbi
  slabFree := slabFree t
  countFree := countFree

end Backend

section Blocks

abbrev bigTotal (size : ℕ) : OxM ℕ := CInterface.bigTotal machine size

abbrev commit (hint alignedTotal : ℕ) : OxM Bool := CInterface.commit machine hint alignedTotal

abbrev adviseIfHuge (addr total : ℕ) (advice : Advice) : OxM Unit :=
  CInterface.adviseIfHuge machine addr total advice

abbrev bigMalloc (size : ℕ) : OxM ℕ := CInterface.bigMalloc machine size

abbrev wipe (header totalSize : ℕ) : OxM Unit := CInterface.wipe machine header totalSize

abbrev bigFree (header : ℕ) : OxM Unit := CInterface.bigFree machine header

abbrev recorded (header : ℕ) (missing : String) : OxM ℕ :=
  CInterface.recorded machine header missing

abbrev reclass (header oldClass newClass size : ℕ) : OxM Unit :=
  CInterface.reclass machine header oldClass newClass size

abbrev shrinkInplace (header oldClass newClass size oldTotal newTotal : ℕ) : OxM Unit :=
  CInterface.shrinkInplace machine header oldClass newClass size oldTotal newTotal

abbrev growInplace (header oldClass newClass rawCapacity size oldTotal : ℕ) : OxM Bool :=
  CInterface.growInplace machine header oldClass newClass rawCapacity size oldTotal

abbrev resizeInplace (header oldClass rawCapacity newSize : ℕ) : OxM Bool :=
  CInterface.resizeInplace machine header oldClass rawCapacity newSize

abbrev clear (ptr effectiveSize : ℕ) : OxM Unit := CInterface.clear machine ptr effectiveSize

end Blocks

section Calls

abbrev malloc (t size : ℕ) : OxM ℕ := CInterface.malloc (backend t) size

/-- The thread plays no part. -/
abbrev mallocUsableSize (ptr : ℕ) : OxM ℕ := CInterface.mallocUsableSize (backend 0) ptr

abbrev freeInternal (t ptr : ℕ) : OxM Unit := CInterface.freeInternal (backend t) ptr

abbrev freeMain (t ptr : ℕ) : OxM Unit := CInterface.freeMain (backend t) ptr

abbrev free (t ptr : ℕ) : OxM Unit := CInterface.free (backend t) ptr

abbrev calloc (t nmemb size : ℕ) : OxM ℕ := CInterface.calloc (backend t) nmemb size

abbrev mallocTwice (t size : ℕ) : OxM ℕ := CInterface.mallocTwice (backend t) size

/-- The code that is returned, and the pointer that is stored if the code is 0. -/
def posixMemalign (t alignment size : ℕ) : OxM (ℕ × ℕ) := do
  match ← CInterface.posixMemalign (backend t) alignment size with
  | .error code => pure (code, 0)
  | .ok (_, aligned) => pure (0, aligned)

abbrev moveBlock (t ptr newSize oldCapacity : ℕ) : OxM ℕ :=
  CInterface.moveBlock (backend t) ptr newSize oldCapacity

abbrev reallocBlock (t ptr newSize : ℕ) : OxM ℕ := CInterface.reallocBlock (backend t) ptr newSize

abbrev realloc (t ptr newSize : ℕ) : OxM ℕ := CInterface.realloc (backend t) ptr newSize

end Calls

end Oxidalloc
