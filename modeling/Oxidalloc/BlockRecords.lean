import Oxidalloc.Abi

/-!
The C interface over records: a second backend, in which the class of a block and whether it
is live are a record of their own, beside the bytes of the payloads and of the headers. The
kernel, the caches and the virtual address map are an oracle: it says which block a cache gives
out, where an allocation lies and which calls fail. The pages that are claimed have an owner, a
block that has them for itself or a slab of several blocks, and the ranges that a call claims,
makes writable, discards, protects and releases are recorded in a log. All of it is for both
layouts of the headers.
-/
namespace Oxidalloc.Records

open Hashmap Programs ByteMemory Function

/-- The build: the feature `hardened-linked-list` decides about the layout of `OxHeader`. -/
class Layout where
  hardened : Bool

instance Layout.standard : Layout := ⟨false⟩

section Headers

variable [Layout]

/-- `HEADER_SIZE`. The magic number is in front of the link in the hardened layout, and behind
the class in the other one. -/
def headerSize : ℕ := if Layout.hardened then 32 else 16

def nextOffset : ℕ := if Layout.hardened then 8 else 0

def classOffset : ℕ := if Layout.hardened then 16 else 8

def lifeTimeOffset : ℕ := if Layout.hardened then 20 else 12

def setClass (m : Memory) (header cls : ℕ) : Memory := store m (header + classOffset) 1 cls

/-- The bytes of a header but for the magic number, which is a part of the record, and the
padding. -/
def writeHeader (m : Memory) (header next cls lifeTime : ℕ) : Memory :=
  store (setClass (store m (header + nextOffset) 8 next) header cls) (header + lifeTimeOffset) 4
    lifeTime

end Headers

/-- The end of a call without a result. The first two are the aborts over a big block that
is not in the map, and an index beyond the tables of the size classes. -/
inductive Stop where
  | missing (message : String)
  | outOfRange (cls : ℕ)
  | halt (h : Halt)

/-- A block is live, or in a cache of its class. -/
structure Header where
  cls : ℕ
  live : Bool
  deriving DecidableEq

structure HeaderTable where
  get : ℕ → Option Header
  addrs : List ℕ
  complete : ∀ h, get h ≠ none → h ∈ addrs

namespace HeaderTable

def empty : HeaderTable := ⟨fun _ => none, [], fun _ h => absurd rfl h⟩

def set (t : HeaderTable) (h : ℕ) (r : Header) : HeaderTable where
  get := update t.get h (some r)
  addrs := h :: t.addrs
  complete := by
    intro x hx
    by_cases hxh : x = h
    · simp only [hxh, List.mem_cons_self]
    · rw [update_of_ne hxh] at hx
      exact List.mem_cons_of_mem h (t.complete x hx)

def remove (t : HeaderTable) (h : ℕ) : HeaderTable where
  get := update t.get h none
  addrs := t.addrs
  complete := by
    intro x hx
    by_cases hxh : x = h
    · exact absurd (by rw [hxh, update_self]) hx
    · rw [update_of_ne hxh] at hx
      exact t.complete x hx

end HeaderTable

inductive Effect where
  | claim (addr len : ℕ)
  | grow (header len : ℕ)
  | commit (addr len : ℕ)
  | discard (addr len : ℕ)
  | forbid (addr len : ℕ)
  | release (addr len : ℕ)
  deriving DecidableEq

/-- The page is one of a range. -/
def Covers (addr len q : ℕ) : Prop := addr / 4096 ≤ q ∧ q < addr / 4096 + pagesOf len

instance Covers.decidable (addr len q : ℕ) : Decidable (Covers addr len q) :=
  inferInstanceAs (Decidable (_ ∧ _))

/-- Who has a page: a block alone, by its header, or a slab of blocks of one class. -/
inductive Owner where
  | block (header : ℕ)
  | slab (base cls : ℕ)
  deriving DecidableEq

/-- What the user has: the pointer that `malloc` has returned, the distance to it and the size
of the request. -/
structure Handle where
  raw : ℕ
  offset : ℕ
  size : ℕ
  deriving DecidableEq

/-- The slots of the slabs that are not carved yet are listed with their classes. -/
structure State where
  headers : HeaderTable
  big : BigAllocMap
  owner : ℕ → Option Owner
  uncarved : List (ℕ × ℕ)
  live : ℕ → Option Handle
  mem : Memory
  thp : Bool
  tick : ℕ
  log : List Effect

def initial (thp : Bool) : State :=
  ⟨.empty, .new, fun _ => none, [], fun _ => none, fun _ => 0, thp, 0, []⟩

/-- The answer 0 is a refusal. A range that the map may not give out is refused too. The
addresses inside the reservations are ours. -/
structure Oracle where
  answer : ℕ → ℕ
  admits : State → ℕ → ℕ → Bool
  ours : ℕ → Bool

/-- The oracle that refuses everything. -/
def Oracle.silent : Oracle := ⟨fun _ => 0, fun _ _ _ => false, fun _ => false⟩

abbrev RecM := Program Stop State

def draw (o : Oracle) : RecM ℕ := do
  let s ← get
  set { s with tick := s.tick + 1 }
  pure (o.answer s.tick)

def check {α : Type} (x : Except Halt α) : RecM α := attempt (x.mapError .halt)

/-- `SIZE_CLASSES[class]` and `ITERATIONS[class]`. -/
def lookup (table : List ℕ) (cls : ℕ) : RecM ℕ :=
  match table[cls]? with
  | some v => pure v
  | none => throw (.outOfRange cls)

section Kernel

def State.claim (s : State) (addr len : ℕ) (owner : Owner) : State :=
  { s with
    owner := fun q => if Covers addr len q then some owner else s.owner q
    log := s.log ++ [.claim addr len] }

def State.release (s : State) (addr len : ℕ) : State :=
  { s with
    owner := fun q => if Covers addr len q then none else s.owner q
    log := s.log ++ [.release addr len] }

def State.zero (s : State) (addr len : ℕ) : State := { s with mem := fill s.mem addr len 0 }

/-- `VA_MAP.alloc`. -/
def vaAlloc (o : Oracle) (size : ℕ) (owner : ℕ → Owner) : RecM (Option ℕ) := do
  let hint ← draw o
  let s ← get
  if hint = 0 ∨ o.admits s hint size = false then pure none
  else do
    set (s.claim hint size (owner hint))
    pure (some hint)

def vaFree (addr size : ℕ) : RecM Unit :=
  if addr = 0 ∨ size = 0 then pure () else modify fun s => s.release addr size

/-- The pages are counted from the page of the header. -/
def vaResize (o : Oracle) (header oldSize newSize : ℕ) : RecM (Option ℕ) :=
  if pagesOf newSize = pagesOf oldSize then pure (some (pagesOf oldSize * 4096))
  else if pagesOf newSize < pagesOf oldSize then do
    modify fun s => s.release ((header / 4096 + pagesOf newSize) * 4096)
      ((pagesOf oldSize - pagesOf newSize) * 4096)
    pure (some (pagesOf newSize * 4096))
  else do
    let start := (header / 4096 + pagesOf oldSize) * 4096
    let len := (pagesOf newSize - pagesOf oldSize) * 4096
    let answer ← draw o
    let s ← get
    if answer = 0 ∨ o.admits s start len = false then pure none
    else do
      set (s.claim start len (.block header))
      pure (some (pagesOf newSize * 4096))

def note (e : Effect) : RecM Unit := modify fun s => { s with log := s.log ++ [e] }

/-- `VA_MAP.realloc_inplace`. -/
def vaReallocInplace (o : Oracle) (header oldSize newSize : ℕ) : RecM (Option ℕ) := do
  match ← vaResize o header oldSize newSize with
  | none => pure none
  | some size => do
    note (.grow header size)
    pure (some size)

/-- `madvise` with `DONTNEED`. -/
def discard (o : Oracle) (addr len : ℕ) : RecM Bool := do
  note (.discard addr len)
  let answer ← draw o
  if addr % 4096 = 0 ∧ answer ≠ 0 then do
    modify fun s => s.zero addr (pagesOf len * 4096)
    pure true
  else pure false

/-- The other kinds of advice, whose answer is ignored. -/
def advise (o : Oracle) : RecM Unit := do
  let _ ← draw o
  pure ()

/-- `mprotect` with the right to read and write, or with none. -/
def permit (o : Oracle) (addr len : ℕ) : RecM Bool := do
  let answer ← draw o
  if addr % 4096 = 0 ∧ answer ≠ 0 then do
    note (.commit addr len)
    pure true
  else pure false

def forbid (o : Oracle) (addr len : ℕ) : RecM Unit := do
  note (.forbid addr len)
  advise o

def mmapFixed (o : Oracle) (addr len : ℕ) : RecM Bool := do
  let answer ← draw o
  if addr % 4096 = 0 ∧ len ≠ 0 ∧ answer ≠ 0 then do
    modify fun s => s.zero addr (pagesOf len * 4096)
    pure true
  else pure false

end Kernel

section Slab

variable [Layout]

/-- The address is that of a block that may be in a list of the class. -/
def State.Listed (s : State) (cls header : ℕ) : Prop :=
  s.headers.get header = some ⟨cls, false⟩ ∨ (header, cls) ∈ s.uncarved

instance State.Listed.decidable (s : State) (cls header : ℕ) : Decidable (s.Listed cls header) :=
  inferInstanceAs (Decidable (_ ∨ _))

/-- The link that the list operations have left in a header: null or the next block of the
list. In the hardened layout it is xored with the key of a thread. -/
def link (o : Oracle) (cls : ℕ) : RecM ℕ := do
  let answer ← draw o
  let s ← get
  pure (if Layout.hardened then answer % usizeBound else if s.Listed cls answer then answer else 0)

/-- The block is live from now on. Its header has the class and the stamp of the operation
that has put it into a list. -/
def giveOut (o : Oracle) (header cls next : ℕ) : RecM ℕ := do
  let lifeTime ← draw o
  modify fun s =>
    { s with
      headers := s.headers.set header ⟨cls, true⟩
      uncarved := s.uncarved.filter (· ≠ (header, cls))
      mem := writeHeader s.mem header next cls lifeTime }
  pure (header + headerSize)

/-- A block of the class from a cache, or the next one that is carved. -/
def takeBlock (o : Oracle) (cls : ℕ) : RecM ℕ := do
  let h ← draw o
  let next ← link o cls
  let s ← get
  match s.headers.get h with
  | some r => if r.live = false ∧ r.cls = cls then giveOut o h cls next else pure 0
  | none => if (h, cls) ∈ s.uncarved then giveOut o h cls next else pure 0

/-- A new slab, with its first block. The pages of a slab with one block are those of the
block. -/
def bulkFill (o : Oracle) (cls : ℕ) : RecM ℕ := do
  let payloadSize ← lookup sizeClasses cls
  let blockSize ← check (alignTo (payloadSize + headerSize) 16)
  let numBlocks ← lookup iterations cls
  let total := metaDataSize + blockSize * numBlocks
  let owner := fun hint =>
    if numBlocks = 1 then Owner.block (hint + metaDataSize) else .slab hint cls
  match ← vaAlloc o total owner with
  | none => throw (.halt (.abort .vaBitmapExhausted "VA bitmap exhausted | This is expected"))
  | some hint => do
    if ← mmapFixed o hint total then do
      modify fun s =>
        { s with
          uncarved := (List.range numBlocks).map
            (fun i => (hint + metaDataSize + i * blockSize, cls)) ++
            s.uncarved }
      let next ← link o cls
      giveOut o (hint + metaDataSize) cls next
    else do
      vaFree hint total
      pure 0

def fillAttempts (o : Oracle) (cls : ℕ) : ℕ → RecM ℕ
  | 0 => pure 0
  | n + 1 => do
    let block ← bulkFill o cls
    if block = 0 then fillAttempts o cls n else pure block

def allocate (o : Oracle) (cls : ℕ) : RecM ℕ := do
  let block ← takeBlock o cls
  if block = 0 then fillAttempts o cls 3 else pure block

end Slab

section Machine

variable [Layout]

def bigInsert (o : Oracle) (header size : ℕ) : RecM Unit := do
  let answer ← draw o
  let s ← get
  let big ← check (s.big.insert (decide (answer ≠ 0)) header ⟨size, 100, 0, 0⟩)
  set { s with big := big }

def bigRemove (header : ℕ) : RecM (Option BigAllocMeta) := do
  let s ← get
  set { s with big := (s.big.remove header).1 }
  pure (s.big.remove header).2

def classOf (header : ℕ) : RecM ℕ := do
  let s ← get
  match s.headers.get header with
  | none => throw (.halt .fault)
  | some r => pure r.cls

abbrev machine (o : Oracle) : CInterface.Machine RecM where
  headerSize := headerSize
  check := check
  lookup := lookup
  missing := fun message => throw (.missing message)
  forceThp := read fun s => s.thp
  vaAlloc := fun size => vaAlloc o size .block
  vaFree := vaFree
  vaReallocInplace := vaReallocInplace o
  permit := permit o
  forbid := forbid o
  mmapFixed := mmapFixed o
  discard := discard o
  advise := fun _ _ _ => advise o
  write := fun f => modify fun s => { s with mem := f s.mem }
  classOf := classOf
  setClass := fun header cls => modify fun s =>
    { s with
      headers := s.headers.set header ⟨cls, true⟩
      mem := setClass s.mem header cls }
  writeBig := fun header => modify fun s =>
    { s with
      headers := s.headers.set header ⟨100, true⟩
      mem := writeHeader s.mem header 0 100 0 }
  markFreed := fun header => modify fun s => { s with headers := s.headers.remove header }
  bigGet := fun header => read fun s => s.big.get header
  bigInsert := bigInsert o
  bigRemove := bigRemove

end Machine

section Backend

variable [Layout]

/-- The check of the magic number. -/
def validatePtrForAbi (header : ℕ) : RecM Unit := do
  let s ← get
  match s.headers.get header with
  | none => throw (.halt .fault)
  | some r =>
    if r.live then pure () else throw (.halt (.abort .doubleFree "Pointer is tagged as in_use"))

/-- The block of a pointer and its offset there. The code finds them by the tag in front of
the pointer, the model in the table of live pointers. -/
def resolve (ptr : ℕ) : RecM (ℕ × ℕ) := do
  let s ← get
  match s.live ptr with
  | some p => pure (p.raw, p.offset)
  | none => throw (.halt .fault)

/-- `tls[class]` and `TLS_MAX_BLOCKS[class]` are indexed before the block is in a cache. -/
def slabFree (cls header : ℕ) : RecM Unit := do
  let _ ← lookup sizeClasses cls
  modify fun s => { s with headers := s.headers.set header ⟨cls, false⟩ }

/-- The statics of the process are left out, and all pointers are ours. -/
abbrev backend (o : Oracle) : CInterface.Backend RecM where
  toMachine := machine o
  setErrno := fun _ => pure ()
  bootStrap := pure ()
  allocate := allocate o
  isOurs := fun _ => pure true
  fallback := pure 0
  resolve := resolve
  validatePtrForAbi := validatePtrForAbi
  slabFree := slabFree
  countFree := pure ()

end Backend

section Blocks

variable [Layout]

abbrev bigTotal (o : Oracle) (size : ℕ) : RecM ℕ := CInterface.bigTotal (machine o) size

abbrev commit (o : Oracle) (hint total : ℕ) : RecM Bool :=
  CInterface.commit (machine o) hint total

abbrev adviseIfHuge (o : Oracle) (addr total : ℕ) (advice : Advice) : RecM Unit :=
  CInterface.adviseIfHuge (machine o) addr total advice

abbrev bigMalloc (o : Oracle) (size : ℕ) : RecM ℕ := CInterface.bigMalloc (machine o) size

abbrev wipe (o : Oracle) (header total : ℕ) : RecM Unit :=
  CInterface.wipe (machine o) header total

abbrev bigFree (o : Oracle) (header : ℕ) : RecM Unit := CInterface.bigFree (machine o) header

abbrev recorded (o : Oracle) (header : ℕ) (message : String) : RecM ℕ :=
  CInterface.recorded (machine o) header message

abbrev reclass (o : Oracle) (header oldClass newClass size : ℕ) : RecM Unit :=
  CInterface.reclass (machine o) header oldClass newClass size

abbrev shrinkInplace (o : Oracle) (header oldClass newClass size oldTotal newTotal : ℕ) :
    RecM Unit :=
  CInterface.shrinkInplace (machine o) header oldClass newClass size oldTotal newTotal

abbrev growInplace (o : Oracle) (header oldClass newClass rawCapacity size oldTotal : ℕ) :
    RecM Bool :=
  CInterface.growInplace (machine o) header oldClass newClass rawCapacity size oldTotal

abbrev resizeInplace (o : Oracle) (header oldClass rawCapacity newSize : ℕ) : RecM Bool :=
  CInterface.resizeInplace (machine o) header oldClass rawCapacity newSize

abbrev iterationsOf (o : Oracle) (cls : ℕ) : RecM ℕ := CInterface.iterationsOf (machine o) cls

abbrev clear (o : Oracle) (ptr effectiveSize : ℕ) : RecM Unit :=
  CInterface.clear (machine o) ptr effectiveSize

end Blocks

section Abi

variable [Layout]

abbrev malloc (o : Oracle) (size : ℕ) : RecM ℕ := CInterface.malloc (backend o) size

/-- No question is asked, so any oracle will do. -/
abbrev mallocUsableSize (ptr : ℕ) : RecM ℕ :=
  CInterface.mallocUsableSize (backend Oracle.silent) ptr

abbrev freeInternal (o : Oracle) (rawPtr : ℕ) : RecM Unit :=
  CInterface.freeInternal (backend o) rawPtr

abbrev free (o : Oracle) (ptr : ℕ) : RecM Unit := CInterface.free (backend o) ptr

abbrev calloc (o : Oracle) (nmemb size : ℕ) : RecM ℕ := CInterface.calloc (backend o) nmemb size

abbrev mallocTwice (o : Oracle) (size : ℕ) : RecM ℕ := CInterface.mallocTwice (backend o) size

abbrev posixMemalign (o : Oracle) (alignment size : ℕ) : RecM (Except ℕ (ℕ × ℕ)) :=
  CInterface.posixMemalign (backend o) alignment size

abbrev moveBlock (o : Oracle) (ptr newSize oldCapacity : ℕ) : RecM ℕ :=
  CInterface.moveBlock (backend o) ptr newSize oldCapacity

abbrev reallocBlock (o : Oracle) (ptr newSize : ℕ) : RecM ℕ :=
  CInterface.reallocBlock (backend o) ptr newSize

abbrev realloc (o : Oracle) (ptr newSize : ℕ) : RecM ℕ :=
  CInterface.realloc (backend o) ptr newSize

end Abi

inductive Call where
  | malloc (size : ℕ)
  | calloc (nmemb size : ℕ)
  | realloc (ptr size : ℕ)
  | posixMemalign (alignment size : ℕ)
  | free (ptr : ℕ)
  | usableSize (ptr : ℕ)
  | write (ptr i : ℕ) (value : UInt8)

section Calls

variable [Layout]

/-- The user has a pointer from now on. -/
def adopt (ptr rawPtr size : ℕ) : RecM Unit :=
  if ptr = 0 then pure ()
  else modify fun s =>
    { s with live := update s.live ptr (some ⟨rawPtr, ptr - rawPtr, size⟩) }

def forget (ptr : ℕ) : RecM Unit :=
  modify fun s => { s with live := update s.live ptr none }

/-- A pointer that `realloc` gives back null for stays with the user, unless the new size is
zero. -/
def rebind (ptr newPtr size : ℕ) : RecM ℕ :=
  if newPtr = 0 ∧ size ≠ 0 then pure 0
  else do
    forget ptr
    adopt newPtr newPtr size
    pure newPtr

/-- A call with its result. -/
def perform (o : Oracle) : Call → RecM ℕ
  | .malloc size => do
    let r ← malloc o size
    adopt r r size
    pure r
  | .calloc nmemb size => do
    let r ← calloc o nmemb size
    adopt r r (nmemb * size)
    pure r
  | .realloc ptr size => do
    let r ← realloc o ptr size
    rebind ptr r size
  | .posixMemalign alignment size => do
    match ← posixMemalign o alignment size with
    | .error _ => pure 0
    | .ok (raw, aligned) => do
      adopt aligned raw size
      pure aligned
  | .free ptr => do
    free o ptr
    forget ptr
    pure 0
  | .usableSize ptr => mallocUsableSize ptr
  | .write ptr i value => do
    modify fun s => { s with mem := update s.mem (ptr + i) value }
    pure 0

def State.entry (s : State) (header : ℕ) : Option ℕ := (s.big.get header).map BigAllocMeta.size

def State.capacity (s : State) (header cls : ℕ) : ℕ :=
  if cls = 100 then (s.entry header).getD 0 else payload cls

/-- The payload of the block of a pointer, from the pointer on. -/
def State.usable (s : State) (p : Handle) : ℕ :=
  ((s.headers.get (p.raw - headerSize)).map fun r =>
    s.capacity (p.raw - headerSize) r.cls).getD 0 - p.offset

/-- Only live pointers are handed back; `realloc` takes the null pointer too. The user writes
within the payload, or within the requested size. -/
def Call.Ok (s : State) : Call → Prop
  | .realloc ptr _ => ptr = 0 ∨ (s.live ptr).isSome = true
  | .free ptr => (s.live ptr).isSome = true
  | .usableSize ptr => (s.live ptr).isSome = true
  | .write ptr i _ => ((s.live ptr).any fun p => i < p.size ∨ i < s.usable p) = true
  | _ => True

instance Call.Ok.decidable (s : State) : ∀ c, Decidable (Call.Ok s c)
  | .malloc _ => isTrue trivial
  | .calloc _ _ => isTrue trivial
  | .posixMemalign _ _ => isTrue trivial
  | .realloc _ _ => inferInstanceAs (Decidable (_ ∨ _))
  | .free _ => inferInstanceAs (Decidable (_ = _))
  | .usableSize _ => inferInstanceAs (Decidable (_ = _))
  | .write _ _ _ => inferInstanceAs (Decidable (_ = _))

def step (o : Oracle) (s : State) (c : Call) : Option State :=
  if c.Ok s then (outcome (perform o c) s).map Prod.snd else none

end Calls

end Oxidalloc.Records
