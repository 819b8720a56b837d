import Oxidalloc.KernelVa
import Oxidalloc.Programs
import Oxidalloc.VaSegment

/-!
`VaBitmap` without concurrency: the list of segments behind `self.map`, the
radix tree, the statics of `get_va_from_kernel`, and the kernel as the rest of the
program sees it. Every answer of the kernel and every random number is the next
element of the stream `sys`, which is arbitrary; an answer that a kernel could not
give (an address that is not page aligned, or in use) counts as a refusal. The
`SerialLock` is free whenever a call begins, so it is left out here.
-/
namespace Oxidalloc

open KernelVa Programs WordBitmap

structure VaBitmap where
  segments : List Segment
  latestSegment : ℕ
  radix : Option Radix
  once : Bool
  statics : Statics
  maxReservation : ℕ
  reserved : List (ℕ × ℕ)
  sys : ℕ → ℕ
  tick : ℕ

namespace VaBitmap

def new (maxReservation : ℕ) (sys : ℕ → ℕ) : VaBitmap :=
  ⟨[], 0, none, false, Statics.initial, maxReservation, [], sys, 0⟩

/-- The segment behind a pointer. -/
def segmentAt (va : VaBitmap) (ptr : ℕ) : Option Segment := va.segments.find? (·.ptr = ptr)

/-- Writes to a segment through its pointer. -/
def putSegment (va : VaBitmap) (s : Segment) : VaBitmap :=
  { va with segments := va.segments.map fun t => if t.ptr = s.ptr then s else t }

def InSegment (s : Segment) (addr : ℕ) : Prop := s.vaStart ≤ addr ∧ addr < s.vaEnd

instance InSegment.decidable (s : Segment) (addr : ℕ) : Decidable (InSegment s addr) :=
  inferInstanceAs (Decidable (_ ∧ _))

def isOurs (va : VaBitmap) (addr : ℕ) : Bool :=
  match va.radix with
  | none => false
  | some r =>
    match va.segmentAt (r.getSegment addr) with
    | none => false
    | some s => decide (InSegment s addr)

/-- The segment that `free` and `realloc_inplace` find through the radix tree. They
do not check that the tree exists. -/
def radixLookup (va : VaBitmap) (addr : ℕ) : Except Halt (Option Segment) :=
  match va.radix with
  | none => .error .fault
  | some r =>
    if r.getSegment addr = 0 then .ok none
    else
      match va.segmentAt (r.getSegment addr) with
      | none => .error .fault
      | some s => .ok (if InSegment s addr then some s else none)

/-- The segment that the walk over the list finds. -/
def walkLookup (va : VaBitmap) (addr : ℕ) : Option Segment :=
  va.segments.find? fun s => decide (InSegment s addr)

def locate (va : VaBitmap) (addr : ℕ) : Except Halt (Option Segment) := do
  match ← va.radixLookup addr with
  | some s => .ok (some s)
  | none => .ok (va.walkLookup addr)

abbrev VaM := Program Halt VaBitmap

def draw : VaM ℕ := do
  let va ← get
  set { va with tick := va.tick + 1 }
  pure (va.sys va.tick)

def setStatics (k : Statics) : VaM Unit := modify fun va => { va with statics := k }

/-- A private anonymous mapping; the kernel refuses a length of zero. -/
def mmapMemory (len : ℕ) : VaM (Option ℕ) := do
  let answer ← draw
  pure (if len = 0 ∨ answer = 0 then none else some answer)

/-- A mapping for a `Segment`, at an address where no segment is. -/
def mmapSegment : VaM (Option ℕ) := do
  match ← mmapMemory 64 with
  | none => pure none
  | some ptr => do
    let va ← get
    pure (if (va.segmentAt ptr).isSome then none else some ptr)

/-- The reservations the kernel may give: page aligned, inside the address space,
and disjoint from those in use. -/
def CanReserve (reserved : List (ℕ × ℕ)) (base size : ℕ) : Prop :=
  base ≠ 0 ∧ base % 4096 = 0 ∧ base + size < usizeBound ∧
    ∀ r ∈ reserved, base + size ≤ r.1 ∨ r.1 + r.2 ≤ base

instance CanReserve.decidable (reserved : List (ℕ × ℕ)) (base size : ℕ) :
    Decidable (CanReserve reserved base size) :=
  inferInstanceAs (Decidable (_ ∧ _ ∧ _ ∧ _))

def mmapReserve (size : ℕ) : VaM (Option ℕ) := do
  let answer ← draw
  let va ← get
  if CanReserve va.reserved answer size then do
    set { va with reserved := (answer, size) :: va.reserved }
    pure (some answer)
  else pure none

def getrandom : VaM ℕ := do
  let answer ← draw
  if answer = 0 then
    throw (.abort .securityViolation "Failed to initialize random number generator")
  else draw

def randomizeBaseHint : VaM Unit := do
  let va ← get
  if va.statics.latestTried = 0 then pure ()
  else do
    let rand ← getrandom
    let offset ← attempt (alignTo (rand % va.statics.latestTried) 4096)
    setStatics { va.statics with baseHint := (va.statics.baseHint + offset) % usizeBound }

/-- `BASE_HINT += size`, a checked addition. -/
def addToBaseHint (size : ℕ) : VaM Unit := do
  let va ← get
  if usizeBound ≤ va.statics.baseHint + size then throw .panic
  else setStatics { va.statics with baseHint := va.statics.baseHint + size }

/-- The loop of `get_va_from_kernel`. The size is halved in each round, so from a
64-bit size it ends in fewer than 64 rounds. -/
def probeLoop : ℕ → ℕ → VaM (ℕ × ℕ × ℕ)
  | 0, _ => throw .panic
  | fuel + 1, size => do
    match ← mmapReserve size with
    | some output => do
      let va ← get
      setStatics { va.statics with latestTried := max va.statics.latestTried size }
      if va.statics.baseInit then addToBaseHint size
      else modify fun va =>
        { va with statics := { va.statics with baseHint := output, baseInit := true } }
      pure (output, output + size, size)
    | none => do
      let va ← get
      if size ≤ minReserve ∧ va.statics.baseInit = false then
        throw (.abort .vaIinitFailed
          "Init failed during Segment Allocation: No available VA reserve")
      else if size ≤ minReserve then do
        setStatics { va.statics with baseInit := false }
        pure (0, 0, 0)
      else do
        addToBaseHint size
        probeLoop fuel (size / 2)

def getVaFromKernel : VaM (ℕ × ℕ × ℕ) := do
  randomizeBaseHint
  let va ← get
  if 3 < va.statics.reserve then probeLoop 64 (max va.statics.latestTried minReserve)
  else do
    setStatics { va.statics with reserve := va.statics.reserve + 1 }
    probeLoop 64 (max va.maxReservation minReserve)

def mapRadixTable (len : ℕ) : VaM Unit := do
  match ← mmapMemory len with
  | some _ => pure ()
  | none => throw (.abort .vaIinitFailed "Cannot allocate memory for RadixTree")

def initRadix : VaM Unit := do
  let va ← get
  match va.radix with
  | some _ => pure ()
  | none => do
    mapRadixTable (2 ^ l1Bits * 8)
    modify fun va => { va with radix := some Radix.new }

def setRadix (chunkIdx seg : ℕ) : VaM Unit := do
  let va ← get
  match va.radix with
  | none => throw .fault
  | some r => do
    if r.needsTable chunkIdx then mapRadixTable (l2Size * 8) else pure ()
    modify fun va => { va with radix := some (r.set chunkIdx seg) }

/-- The first n rounds of `set_range`. -/
def setRange (start seg : ℕ) : ℕ → VaM Unit
  | 0 => pure ()
  | n + 1 => do
    setRange start seg n
    setRadix (Radix.startIdx start + n) seg

/-- The first search hint of a segment, from its address. -/
def seed (userVa : ℕ) : ℕ :=
  let v := userVa ^^^ (userVa >>> 33)
  let v := v ^^^ ((v <<< 17) % usizeBound)
  v ^^^ (v >>> 7)

/-- `grow` after `get_va_from_kernel`, for the reservation it returned. -/
def growWith (userVa endVa totalSize : ℕ) : VaM (Option ℕ) := do
  let va ← get
  match va.radix with
  | none => throw .fault
  | some r =>
    if userVa = 0 ∨ r.checkCollision userVa totalSize = true then pure none
    else do
      let mapLen := (totalSize / blockSize + 63) / 64
      match ← mmapMemory (mapLen * 8) with
      | none => pure none
      | some _ =>
        match ← mmapMemory (mapLen * 8) with
        | none => pure none
        | some _ =>
          match ← mmapSegment with
          | none => pure none
          | some ptr => do
            setRange userVa ptr (Radix.setCount userVa totalSize)
            modify fun va =>
              { va with
                segments :=
                  { ptr, vaStart := userVa, vaEnd := endVa, map := fun _ => 0#64,
                    claim := fun _ => 0#64, hint := seed userVa % mapLen, mapLen,
                    full := false, failedTrys := 0 } :: va.segments }
            pure (some ptr)

def grow : VaM (Option ℕ) := do
  initRadix
  let (userVa, endVa, totalSize) ← getVaFromKernel
  growWith userVa endVa totalSize

/-- One attempt to allocate in the segment behind a pointer. -/
def allocIn (ptr needed : ℕ) : VaM (Option ℕ) := do
  let va ← get
  match va.segmentAt ptr with
  | none => throw .fault
  | some s => do
    let random ← draw
    let (addr, s) := s.alloc needed random
    modify fun va => va.putSegment s
    pure addr

/-- `failed_trys` of a segment goes up, and after the third failure it is full. -/
def noteFailure (ptr : ℕ) : VaM Unit := do
  let va ← get
  match va.segmentAt ptr with
  | none => throw .fault
  | some s =>
    set (va.putSegment
      { s with
        failedTrys := (s.failedTrys + 1) % 256
        full := s.full || decide (2 < s.failedTrys) })

def isFull (ptr : ℕ) : VaM Bool := do
  let va ← get
  match va.segmentAt ptr with
  | none => throw .fault
  | some s => pure s.full

/-- The walk of `alloc` over the list. -/
def allocWalk (needed : ℕ) : List ℕ → VaM (Option ℕ)
  | [] => pure none
  | ptr :: rest => do
    if ← isFull ptr then allocWalk needed rest
    else
      match ← allocIn ptr needed with
      | some addr => do
        modify fun va => { va with latestSegment := ptr }
        pure (some addr)
      | none => do
        noteFailure ptr
        allocWalk needed rest

/-- At most n more calls of `grow` until one succeeds. -/
def growRetry : ℕ → VaM (Option ℕ)
  | 0 => pure none
  | n + 1 => do
    match ← grow with
    | some ptr => pure (some ptr)
    | none => growRetry n

def allocHinted (needed : ℕ) : VaM (Option ℕ) := do
  let va ← get
  if va.latestSegment = 0 then pure none else allocIn va.latestSegment needed

/-- The first `grow`, made once when the list is still empty. -/
def growFirst : VaM Unit := do
  let va ← get
  if va.segments.isEmpty ∧ va.once = false then
    match ← grow with
    | some _ => modify fun va => { va with once := true }
    | none => throw (.abort .vaIinitFailed "VA initialization failed during allocator start")
  else pure ()

def allocGrown (needed : ℕ) : VaM (Option ℕ) := do
  match ← growRetry 10 with
  | none => pure none
  | some ptr => do
    modify fun va => { va with latestSegment := ptr }
    allocIn ptr needed

def alloc (size : ℕ) : VaM (Option ℕ) := do
  if size = 0 then pure none
  else do
    let needed ← attempt (blocksOf size)
    match ← allocHinted needed with
    | some addr => pure (some addr)
    | none => do
      growFirst
      let va ← get
      match ← allocWalk needed (va.segments.map (·.ptr)) with
      | some addr => pure (some addr)
      | none => allocGrown needed

def free (addr size : ℕ) : VaM Unit := do
  if addr = 0 ∨ size = 0 then pure ()
  else do
    let va ← get
    match ← attempt (va.locate addr) with
    | none => pure ()
    | some s => do
      let s ← attempt (s.free addr size)
      modify fun va => va.putSegment s

def reallocInplace (addr oldSize newSize : ℕ) : VaM (Option ℕ) := do
  let va ← get
  match ← attempt (va.locate addr) with
  | none => pure none
  | some s => do
    let (r, s) ← attempt (s.reallocInplace addr oldSize newSize)
    modify fun va => va.putSegment s
    pure r

end VaBitmap

end Oxidalloc
