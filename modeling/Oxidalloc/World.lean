import Mathlib.Data.Nat.Log
import Oxidalloc.Hashmap
import Oxidalloc.Header
import Oxidalloc.SizeClasses
import Oxidalloc.VaBitmap

/-!
The state of a process that runs the allocator: its memory, the virtual address
bitmap, the map of big allocations, the per-thread caches, the shared cache and the
statics. The kernel answers through the stream of the bitmap; a call with an address
that is not page aligned fails whatever the stream says. The rights of a page are
recorded but not checked on access: an access that faults ends the run.
-/
namespace Oxidalloc

open ByteMemory Hashmap Programs Function

structure TlsBin where
  head : ℕ
  usage : ℕ

structure ThreadLocalEngine where
  tls : ℕ → TlsBin
  pending : ℕ → ℕ

def ThreadLocalEngine.new : ThreadLocalEngine := ⟨fun _ => ⟨0, 0⟩, fun _ => 0⟩

/-- The heads and the usage counters, by CPU and class. -/
structure InterConnectCache where
  list : ℕ → ℕ → ℕ
  usage : ℕ → ℕ → ℕ
  ncpu : ℕ
  once : Bool

def InterConnectCache.new : InterConnectCache := ⟨fun _ _ => 0, fun _ _ => 0, 0, false⟩

inductive TimeDecay where
  | normal
  | medium
  | high
  | aggressive
  deriving DecidableEq, Repr

/-- What the process is started with: two environment variables, if they are set, and
the number of CPUs it may run on. -/
structure Env where
  maxReservation : Option ℕ
  forceThp : Option ℕ
  cpuCount : ℕ

/-- A record of the slabs, which is no part of the program: those that `bulk_fill` has made so
far, with their classes, and the headers of the slots that no thread can reach any more. -/
structure SlabRecord where
  made : List (ℕ × ℕ)
  lost : List ℕ

def SlabRecord.add (r : SlabRecord) (b cls : ℕ) : SlabRecord :=
  { r with made := (b, cls) :: r.made }

structure World where
  mem : Memory
  access : ℕ → Bool
  va : VaBitmap
  big : BigAllocMap
  icc : InterConnectCache
  engines : ℕ → Option ThreadLocalEngine
  batchHints : ℕ → ℕ
  magic : UInt8
  freedMagic : UInt8
  currentStamp : ℕ
  forceThp : Bool
  booted : Bool
  totalMallocFree : ℕ
  threadSpawned : Bool
  hotReady : Bool
  averageBlockTimes : ℕ
  lastPressureCheck : ℕ
  globalDecay : TimeDecay
  errno : ℕ
  env : Env
  slabs : SlabRecord

def defaultReservation : ℕ := 1024 * 1024 * 1024 * 16

def World.new (env : Env) (sys : ℕ → ℕ) : World where
  mem := fun _ => 0
  access := fun _ => false
  va := VaBitmap.new defaultReservation sys
  big := .new
  icc := .new
  engines := fun _ => none
  batchHints := fun _ => 32
  magic := 0
  freedMagic := 1
  currentStamp := 0
  forceThp := false
  booted := false
  totalMallocFree := 0
  threadSpawned := false
  hotReady := false
  averageBlockTimes := 3
  lastPressureCheck := 0
  globalDecay := .normal
  errno := 0
  env := env
  slabs := ⟨[], []⟩

abbrev OxM := Program Halt World

def World.isOurs (w : World) (addr : ℕ) : Bool := decide (addr % 8 = 0) && w.va.isOurs addr

def onVa {α : Type} (x : VaBitmap.VaM α) : OxM α :=
  zoom World.va (fun w va => { w with va := va }) x

def draw : OxM ℕ := onVa VaBitmap.draw

section Kernel

def pagesOf (len : ℕ) : ℕ := (len + 4095) / 4096

/-- A mapping at a fixed address replaces its pages by zeroed ones. -/
def mmapFixed (addr len : ℕ) : OxM Bool := do
  let answer ← draw
  if addr % 4096 ≠ 0 ∨ len = 0 ∨ answer = 0 then pure false
  else do
    modify fun w =>
      { w with
        mem := fill w.mem addr (pagesOf len * 4096) 0
        access := fun q =>
          if addr / 4096 ≤ q ∧ q < addr / 4096 + pagesOf len then true else w.access q }
    pure true

def protectMemory (addr len : ℕ) (allowed : Bool) : OxM Bool := do
  let answer ← draw
  if addr % 4096 ≠ 0 ∨ answer = 0 then pure false
  else do
    modify fun w =>
      { w with
        access := fun q =>
          if addr / 4096 ≤ q ∧ q < addr / 4096 + pagesOf len then allowed else w.access q }
    pure true

inductive Advice where
  | dontNeed
  | hugepage
  | normal
  deriving DecidableEq, Repr

/-- The pages given up with `DONTNEED` read as zero afterwards. -/
def madvise (addr len : ℕ) (advice : Advice) : OxM Bool := do
  let answer ← draw
  if addr % 4096 ≠ 0 ∨ answer = 0 then pure false
  else do
    match advice with
    | .dontNeed => modify fun w => { w with mem := fill w.mem addr (pagesOf len * 4096) 0 }
    | .hugepage => pure ()
    | .normal => pure ()
    pure true

end Kernel

section ThreadLocal

/-- `TLS = Self::init_tls()` on the first use in a thread. -/
def getOrInit (t : ℕ) : OxM Unit := do
  let w ← get
  match w.engines t with
  | some _ => pure ()
  | none => do
    match ← onVa (VaBitmap.mmapMemory 832) with
    | none => throw (.abort .pThreadCacheFailed "PThread cache creation failed: errno(\x7b\x7d)")
    | some _ =>
      modify fun w => { w with engines := update w.engines t (some .new) }

def engine (t : ℕ) : OxM ThreadLocalEngine := do
  let w ← get
  match w.engines t with
  | some e => pure e
  | none => throw .fault

def setEngine (t : ℕ) (e : ThreadLocalEngine) : OxM Unit :=
  modify fun w => { w with engines := update w.engines t (some e) }

/-- `self.tls[class]`, an access with a bounds check. -/
def ThreadLocalEngine.bin (e : ThreadLocalEngine) (cls : ℕ) : Except Halt TlsBin :=
  if cls < numSizeClasses then .ok (e.tls cls) else .error .panic

def ThreadLocalEngine.setBin (e : ThreadLocalEngine) (cls head usage : ℕ) : ThreadLocalEngine :=
  { e with tls := update e.tls cls ⟨head, usage⟩ }

def ThreadLocalEngine.setPending (e : ThreadLocalEngine) (cls metadata : ℕ) : ThreadLocalEngine :=
  { e with pending := update e.pending cls metadata }

def popFromThread (t cls : ℕ) : OxM ℕ := do
  let e ← engine t
  let bin ← attempt (e.bin cls)
  if bin.head = 0 then pure 0
  else do
    let w ← get
    if bin.usage = 0 then throw .panic
    else do
      setEngine t (e.setBin cls (OxHeader.next w.mem bin.head) (bin.usage - 1))
      pure bin.head

def pushToThreadTailed (t cls head tail batchSize : ℕ) : OxM Unit := do
  let e ← engine t
  let bin ← attempt (e.bin cls)
  modify fun w => { w with mem := OxHeader.setNext w.mem tail bin.head }
  if usizeBound ≤ bin.usage + batchSize then throw .panic
  else setEngine t (e.setBin cls head (bin.usage + batchSize))

def pushToThread (t cls head : ℕ) : OxM Unit := pushToThreadTailed t cls head head 1

end ThreadLocal

section Bootstrap

def checkedNextPowerOfTwo (n : ℕ) : Option ℕ :=
  if 2 ^ Nat.clog 2 n < usizeBound then some (2 ^ Nat.clog 2 n) else none

def initReverse : OxM Unit := do
  let w ← get
  match w.env.maxReservation with
  | none => pure ()
  | some val =>
    let reservation := min (max ((checkedNextPowerOfTwo val).getD defaultReservation)
      defaultReservation) (1024 * 1024 * 1024 * 1024 * 256)
    modify fun w => { w with va := { w.va with maxReservation := reservation } }

def initThp : OxM Unit := do
  let w ← get
  match w.env.forceThp with
  | none => pure ()
  | some val => if val = 1 then modify fun w => { w with forceThp := true } else pure ()

/-- The comparison reads the old values of the two statics. -/
def initMagic : OxM Unit := do
  let rand ← onVa VaBitmap.getrandom
  let w ← get
  let first := UInt8.ofNat rand
  let second := UInt8.ofNat (rand / 256)
  let second := if w.freedMagic = w.magic then UInt8.ofNat (second.toNat - 1) else second
  modify fun w => { w with magic := first, freedMagic := second }

def bootStrap (t : ℕ) : OxM Unit := do
  let w ← get
  if w.booted then pure ()
  else do
    getOrInit t
    initReverse
    initThp
    -- `init_random`; the number it stores is used by no modelled function
    let _ ← onVa VaBitmap.getrandom
    initMagic
    modify fun w => { w with booted := true }

end Bootstrap

end Oxidalloc
