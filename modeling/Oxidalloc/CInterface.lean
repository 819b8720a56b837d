import Oxidalloc.AlignTo
import Oxidalloc.World

/-!
The functions of the C interface: `malloc`, `calloc`, `realloc`, `posix_memalign`, `free` and
`malloc_usable_size`, with the big allocations behind them. They are written once, over
whatever is below them: a `Machine` has the kernel, the virtual address map, the headers and
the map of the big blocks, and a `Backend` has the caches, the statics and the lookup of
pointers too. Each model of the allocator is an instance. A pointer that does not belong to
the allocator goes to the next library.
-/
namespace Oxidalloc

open ByteMemory Hashmap

def maxRequest : ℕ := 1024 * 1024 * 1024 * 3

def enomem : ℕ := 12
def einval : ℕ := 22

/-- The bytes of "OXIDALGN" as a little-endian word. -/
def oxAlignTag : ℕ := 0x4E474C414449584F

def offsetSize : ℕ := 8
def tagSize : ℕ := 16

def IsPowerOfTwo (n : ℕ) : Prop := 2 ^ Nat.log2 n = n

instance IsPowerOfTwo.decidable (n : ℕ) : Decidable (IsPowerOfTwo n) :=
  inferInstanceAs (Decidable (_ = _))

namespace CInterface

/-- What the functions for one block need. `check` runs arithmetic that may panic, `lookup`
reads one of the tables of the size classes, and `missing` is the abort over a big block
without an entry in the map. -/
structure Machine (m : Type → Type) where
  headerSize : ℕ
  check {α : Type} (x : Except Halt α) : m α
  lookup (table : List ℕ) (i : ℕ) : m ℕ
  missing {α : Type} (message : String) : m α
  forceThp : m Bool
  vaAlloc (size : ℕ) : m (Option ℕ)
  vaFree (addr size : ℕ) : m Unit
  vaReallocInplace (header oldSize newSize : ℕ) : m (Option ℕ)
  permit (addr len : ℕ) : m Bool
  forbid (addr len : ℕ) : m Unit
  mmapFixed (addr len : ℕ) : m Bool
  discard (addr len : ℕ) : m Bool
  advise (addr len : ℕ) (advice : Advice) : m Unit
  write (f : Memory → Memory) : m Unit
  classOf (header : ℕ) : m ℕ
  setClass (header cls : ℕ) : m Unit
  writeBig (header : ℕ) : m Unit
  markFreed (header : ℕ) : m Unit
  bigGet (header : ℕ) : m (Option BigAllocMeta)
  bigInsert (header size : ℕ) : m Unit
  bigRemove (header : ℕ) : m (Option BigAllocMeta)

/-- What the functions of the interface need beside. `resolve` is the test for the tag of
`posix_memalign`, and `countFree` the count of `free` before the hot path is ready. -/
structure Backend (m : Type → Type) extends Machine m where
  setErrno (code : ℕ) : m Unit
  bootStrap : m Unit
  allocate (cls : ℕ) : m ℕ
  isOurs (ptr : ℕ) : m Bool
  fallback : m ℕ
  resolve (ptr : ℕ) : m (ℕ × ℕ)
  validatePtrForAbi (header : ℕ) : m Unit
  slabFree (cls header : ℕ) : m Unit
  countFree : m Unit

/-- The payload that a request is rounded to, and the bytes it needs with a header. -/
def newExtent (headerSize newSize : ℕ) : Except Halt (ℕ × ℕ) :=
  match matchSizeClass newSize with
  | none => do
    let newTotal ← alignTo (newSize + headerSize) 4096
    .ok (newSize, newTotal)
  | some cls => do
    let size ← index sizeClasses cls
    let newTotal ← alignTo (size + headerSize) 16
    .ok (size, newTotal)

section Blocks

variable {m : Type → Type} [Monad m] (k : Machine m)

def bigTotal (size : ℕ) : m ℕ := do
  let thp ← k.forceThp
  k.check (alignTo (size + k.headerSize) (if thp then 1024 * 1024 * 2 else 4096))

/-- `mprotect` of the reserved pages, or a fresh mapping over them if it fails. -/
def commit (hint alignedTotal : ℕ) : m Bool := do
  if ← k.permit hint alignedTotal then pure true else k.mmapFixed hint alignedTotal

def adviseIfHuge (addr total : ℕ) (advice : Advice) : m Unit :=
  if total % (1024 * 1024 * 2) = 0 then k.advise addr total advice else pure ()

def bigMalloc (size : ℕ) : m ℕ := do
  let alignedTotal ← bigTotal k size
  match ← k.vaAlloc alignedTotal with
  | none => pure 0
  | some hint => do
    if ← commit k hint alignedTotal then do
      adviseIfHuge k hint alignedTotal .hugepage
      k.writeBig hint
      k.bigInsert hint size
      pure (hint + k.headerSize)
    else do
      k.vaFree hint alignedTotal
      pure 0

/-- The pages are given up, or zeroed if the kernel does not take them. -/
def wipe (header totalSize : ℕ) : m Unit := do
  if ← k.discard header totalSize then pure ()
  else k.write fun mem => fill mem header totalSize 0

def bigFree (header : ℕ) : m Unit := do
  match ← k.bigRemove header with
  | none => k.missing "Missing big allocation metadata during free"
  | some info => do
    let totalSize ← bigTotal k info.size
    adviseIfHuge k header totalSize .normal
    k.markFreed header
    wipe k header totalSize
    k.forbid header totalSize
    k.vaFree header totalSize

/-- The payload size that is recorded for a block, by its class or in the map. -/
def recorded (header : ℕ) (missing : String) : m ℕ := do
  let cls ← k.classOf header
  if cls = 100 then do
    match ← k.bigGet header with
    | some info => pure info.size
    | none => k.missing missing
  else k.lookup sizeClasses cls

/-- The record of a block that stays in place. -/
def reclass (header oldClass newClass size : ℕ) : m Unit := do
  k.setClass header newClass
  if oldClass = 100 ∧ newClass ≠ 100 then do
    let _ ← k.bigRemove header
    pure ()
  else if newClass = 100 then k.bigInsert header size
  else pure ()

/-- The branch `new_total < old_total`. -/
def shrinkInplace (header oldClass newClass size oldTotal newTotal : ℕ) : m Unit := do
  let freedStart ← k.check (alignTo (header + newTotal) 4096)
  let freedLen := oldTotal - newTotal
  if freedStart % 4096 = 0 ∧ freedLen % 4096 = 0 then do
    if ← k.discard freedStart freedLen then do
      k.forbid freedStart freedLen
      k.vaFree freedStart freedLen
      reclass k header oldClass newClass size
    else pure ()
  else pure ()

/-- The last branch of the in-place resize. The result is false if the block has to
move. -/
def growInplace (header oldClass newClass rawCapacity size oldTotal : ℕ) : m Bool := do
  let oldVa ← k.check (alignTo (rawCapacity + k.headerSize) 4096)
  let newVa ← k.check (alignTo (size + k.headerSize) 4096)
  match ← k.vaReallocInplace header oldVa newVa with
  | none => pure false
  | some actualNewVaSize => do
    let growStart ← k.check (alignTo (header + oldTotal) 4096)
    if actualNewVaSize < oldTotal then k.check (.error .panic)
    else do
      let growLen := actualNewVaSize - oldTotal
      if ← k.permit growStart growLen then do
        reclass k header oldClass newClass size
        pure true
      else do
        if (header + oldTotal) % 4096 = 0 ∧ growLen % 4096 = 0 then
          k.vaFree (header + oldTotal) growLen
        else pure ()
        pure false

/-- The in-place resize of a big block or of the only block of a slab. -/
def resizeInplace (header oldClass rawCapacity newSize : ℕ) : m Bool := do
  let oldTotal ← k.check
    (alignTo (rawCapacity + k.headerSize) (if oldClass = 100 then 4096 else 16))
  let (size, newTotal) ← k.check (newExtent k.headerSize newSize)
  let newClass := (matchSizeClass size).getD 100
  if newTotal = oldTotal then do
    reclass k header oldClass newClass size
    pure true
  else if newTotal < oldTotal then do
    shrinkInplace k header oldClass newClass size oldTotal newTotal
    pure true
  else growInplace k header oldClass newClass rawCapacity size oldTotal

/-- `it`: the blocks of a slab, where a big block counts as one of many. -/
def iterationsOf (cls : ℕ) : m ℕ :=
  if cls = 100 then pure 1000 else k.lookup iterations cls

def clear (ptr effectiveSize : ℕ) : m Unit := do
  let actualSize ← recorded k (ptr - k.headerSize) "Missing big allocation metadata during calloc"
  k.write fun mem => fill mem ptr (min actualSize effectiveSize) 0

end Blocks

section Calls

variable {m : Type → Type} [Monad m] (b : Backend m)

def allocateCold (size : ℕ) : m ℕ := do
  b.bootStrap
  bigMalloc b.toMachine size

def malloc (size : ℕ) : m ℕ :=
  if size ≤ 4096 ∧ 0 < size then
    match sizeLut[(size - 1) >>> 4]? with
    | some cls => b.allocate cls
    | none => b.check (.error .fault)
  else if maxRequest < size then do
    b.setErrno enomem
    pure 0
  else
    match matchSizeClass size with
    | some cls => b.allocate cls
    | none => allocateCold b size

def mallocUsableSize (ptr : ℕ) : m ℕ :=
  if ptr = 0 then pure 0
  else do
    let ours ← b.isOurs ptr
    if ours = false then b.fallback
    else do
      let (rawPtr, offset) ← b.resolve ptr
      let rawUsable ← recorded b.toMachine (rawPtr - b.headerSize)
        "Missing big allocation metadata during malloc_usable_size"
      pure (rawUsable - offset)

def freeInternal (ptr : ℕ) : m Unit := do
  let header := ptr - b.headerSize
  b.validatePtrForAbi header
  let cls ← b.classOf header
  if cls = 100 then bigFree b.toMachine header else b.slabFree cls header

def freeMain (ptr : ℕ) : m Unit :=
  if ptr = 0 then pure ()
  else do
    let ours ← b.isOurs ptr
    if ours = false then pure ()
    else do
      let (headerSearchPtr, _) ← b.resolve ptr
      freeInternal b headerSearchPtr

def free (ptr : ℕ) : m Unit := do
  b.countFree
  freeMain b ptr

def calloc (nmemb size : ℕ) : m ℕ :=
  -- `Layout::array` refuses more than `isize::MAX` bytes
  if 2 ^ 63 ≤ size ∨ usizeBound ≤ nmemb * size then do
    b.setErrno enomem
    pure 0
  else do
    let effectiveSize := if nmemb * size = 0 then 1 else nmemb * size
    let ptr ← malloc b effectiveSize
    if ptr = 0 then pure 0
    else do
      clear b.toMachine ptr effectiveSize
      pure ptr

/-- The second attempt after a failure of the first. -/
def mallocTwice (size : ℕ) : m ℕ := do
  let raw ← malloc b size
  if raw = 0 then malloc b size else pure raw

/-- The code of an error, or the pointer that `malloc` has returned and the aligned one. -/
def posixMemalign (alignment size : ℕ) : m (Except ℕ (ℕ × ℕ)) :=
  if alignment < 8 ∨ ¬ IsPowerOfTwo alignment then pure (.error einval)
  else if usizeBound ≤ size + alignment + tagSize then pure (.error enomem)
  else do
    let raw ← mallocTwice b (size + alignment + tagSize)
    if raw = 0 then pure (.error enomem)
    else do
      let aligned ← b.check (alignAfter (min (raw + tagSize) (usizeBound - 1)) alignment)
      b.write fun mem =>
        store (store mem (aligned - tagSize) 8 oxAlignTag) (aligned - offsetSize) 8 raw
      pure (.ok (raw, aligned))

/-- The end of `realloc`, and its path for aligned pointers: a new block, a copy, and
the release of the old block. -/
def moveBlock (ptr newSize oldCapacity : ℕ) : m ℕ := do
  let newPtr ← malloc b newSize
  if newPtr = 0 then pure 0
  else do
    b.write fun mem => copy mem ptr newPtr (min oldCapacity newSize)
    free b ptr
    pure newPtr

/-- `realloc` for a pointer of ours and a size that is neither zero nor too large. -/
def reallocBlock (ptr newSize : ℕ) : m ℕ := do
  let (rawPtr, offset) ← b.resolve ptr
  let header := rawPtr - b.headerSize
  b.validatePtrForAbi header
  let rawCapacity ← recorded b.toMachine header "Missing big allocation metadata during realloc"
  let oldClass ← b.classOf header
  let it ← iterationsOf b.toMachine oldClass
  if offset ≠ 0 then moveBlock b ptr newSize (rawCapacity - offset)
  else if matchSizeClass newSize = some oldClass ∧ newSize ≤ rawCapacity - offset then pure ptr
  else if oldClass = 100 ∨ it = 1 then do
    if ← resizeInplace b.toMachine header oldClass rawCapacity newSize then pure ptr
    else moveBlock b ptr newSize (rawCapacity - offset)
  else moveBlock b ptr newSize (rawCapacity - offset)

def realloc (ptr newSize : ℕ) : m ℕ :=
  if ptr = 0 then malloc b newSize
  else if maxRequest < newSize then do
    b.setErrno enomem
    pure 0
  else do
    let ours ← b.isOurs ptr
    if ours = false then b.fallback
    else if newSize = 0 then do
      free b ptr
      malloc b 1
    else reallocBlock b ptr newSize

end Calls

end CInterface

end Oxidalloc
