import Mathlib.Data.Finset.Card
import Mathlib.Logic.Function.Basic
import Oxidalloc.CyclicProbe
import Oxidalloc.Halting

/-!
The table behind `BIG_ALLOC_MAP`: open addressing with linear probing,
tombstones that insertions reuse, and a rehash into a table of twice the size.
The mapped memory at `ptr` is a function from slot numbers to entries, of which
only the first `cap` belong to the table; the zeroed memory of a fresh mapping
is all EMPTY. The lock around every operation has no effect on a sequential run.
-/
namespace Oxidalloc.Hashmap

open CyclicProbe Function

structure BigAllocMeta where
  size : ℕ
  class' : ℕ
  lifeTime : ℕ
  flags : ℕ
  deriving DecidableEq, Repr

inductive State where
  | empty
  | occupied
  | tombstone
  deriving DecidableEq, Repr

structure Entry where
  key : ℕ
  info : BigAllocMeta
  state : State
  deriving DecidableEq, Repr

def LOAD_NUM : ℕ := 7
def LOAD_DEN : ℕ := 10
def INITIAL_CAP : ℕ := 16 * 1024

/-- `size_of::<Entry>()`: key 8, meta 24, state 1 and padding 7. -/
def entrySize : ℕ := 40

abbrev Table := ℕ → Entry

structure BigAllocMap where
  table : Table
  cap : ℕ
  len : ℕ
  tombstones : ℕ

def zeroedTable : Table := fun _ => ⟨0, ⟨0, 0, 0, 0⟩, .empty⟩

def BigAllocMap.new : BigAllocMap := ⟨zeroedTable, 0, 0, 0⟩

def hashKey (key : ℕ) : ℕ :=
  let x0 : BitVec 64 := BitVec.ofNat 64 key
  let x1 := x0 ^^^ (x0 >>> 33)
  let x2 := x1 * 0xff51afd7ed558ccd#64
  let x3 := x2 ^^^ (x2 >>> 33)
  let x4 := x3 * 0xc4ceb9fe1a85ec53#64
  let x5 := x4 ^^^ (x4 >>> 33)
  x5.toNat

/-- The slot at which every probe for a key begins. -/
def homeSlot (cap key : ℕ) : ℕ := hashKey key &&& (cap - 1)

/-- The probe loop shared by `get` and `remove`: stop at an EMPTY slot, answer
with the slot that is OCCUPIED by the key, otherwise advance. -/
def findSlot (table : Table) (cap key : ℕ) : ℕ → ℕ → Option ℕ
  | 0, _ => none
  | fuel + 1, idx =>
    match (table idx).state with
    | .empty => none
    | .occupied =>
      if (table idx).key = key then some idx
      else findSlot table cap key fuel ((idx + 1) &&& (cap - 1))
    | .tombstone => findSlot table cap key fuel ((idx + 1) &&& (cap - 1))

/-- Where the loop of `insert` decides to write. -/
inductive Placement where
  | overwrite (idx : ℕ)
  | fill (idx : ℕ) (reuse : Bool)
  | full
  deriving DecidableEq, Repr

/-- The probe loop of `insert`; `none` is the source's `first_tomb = -1`. -/
def insertLoop (table : Table) (cap key : ℕ) : ℕ → ℕ → Option ℕ → Placement
  | 0, _, firstTomb =>
    match firstTomb with
    | some t => .fill t true
    | none => .full
  | fuel + 1, idx, firstTomb =>
    match (table idx).state with
    | .empty =>
      match firstTomb with
      | some t => .fill t true
      | none => .fill idx false
    | .tombstone =>
      insertLoop table cap key fuel ((idx + 1) &&& (cap - 1)) (some (firstTomb.getD idx))
    | .occupied =>
      if (table idx).key = key then .overwrite idx
      else insertLoop table cap key fuel ((idx + 1) &&& (cap - 1)) firstTomb

/-- The probe loop of `reinsert`: the first slot that is not OCCUPIED. -/
def freeSlot (table : Table) (cap : ℕ) : ℕ → ℕ → Option ℕ
  | 0, _ => none
  | fuel + 1, idx =>
    if (table idx).state = .occupied then freeSlot table cap fuel ((idx + 1) &&& (cap - 1))
    else some idx

def reinsert (table : Table) (cap key : ℕ) (info : BigAllocMeta) : Except Halt Table :=
  match freeSlot table cap cap (homeSlot cap key) with
  | some idx => .ok (update table idx ⟨key, info, .occupied⟩)
  | none => .error (.abort .outOfMemory "BigAllocMap reinsert failed (table full)")

/-- The table bytes must fit a `usize`, and the mapping must succeed. -/
def allocRaw (mmapOk : Bool) (cap : ℕ) : Except Halt Table :=
  if usizeBound ≤ cap * entrySize then .error .panic
  else if mmapOk then .ok zeroedTable
  else .error (.abort .outOfMemory "Cannot allocate BigAllocMap")

/-- The copying loop of `grow` over the slots i, ..., i + n - 1 of the old table. -/
def growLoop (old : Table) (newCap : ℕ) : ℕ → ℕ → Table → Except Halt Table
  | 0, _, table => .ok table
  | n + 1, i, table =>
    if (old i).state = .occupied then
      (reinsert table newCap (old i).key (old i).info).bind (growLoop old newCap n (i + 1))
    else growLoop old newCap n (i + 1) table

def BigAllocMap.grow (s : BigAllocMap) (mmapOk : Bool) : Except Halt BigAllocMap :=
  let newCap := max (min (s.cap * 2) (usizeBound - 1)) INITIAL_CAP
  (allocRaw mmapOk newCap).bind fun fresh =>
    (growLoop s.table newCap s.cap 0 fresh).bind fun table =>
      .ok { s with table := table, cap := newCap, tombstones := 0 }

def BigAllocMap.ensureCapacity (s : BigAllocMap) (mmapOk : Bool) : Except Halt BigAllocMap :=
  if s.cap = 0 then
    (allocRaw mmapOk INITIAL_CAP).bind fun table => .ok ⟨table, INITIAL_CAP, 0, 0⟩
  else if (s.len + 1) * LOAD_DEN ≤ s.cap * LOAD_NUM ∧ s.tombstones * 2 ≤ s.cap then .ok s
  else s.grow mmapOk

/-- Write the decision of the probe loop into the table. -/
def BigAllocMap.place (s : BigAllocMap) (key : ℕ) (info : BigAllocMeta) :
    Placement → Except Halt BigAllocMap
  | .overwrite idx =>
    .ok { s with table := update s.table idx { s.table idx with info := info } }
  | .fill idx reuse =>
    .ok { s with
      table := update s.table idx ⟨key, info, .occupied⟩
      len := s.len + 1
      tombstones := if reuse then s.tombstones - 1 else s.tombstones }
  | .full => .error (.abort .outOfMemory "BigAllocMap insert failed (table full)")

def BigAllocMap.insert (s : BigAllocMap) (mmapOk : Bool) (key : ℕ) (info : BigAllocMeta) :
    Except Halt BigAllocMap :=
  (s.ensureCapacity mmapOk).bind fun s =>
    s.place key info (insertLoop s.table s.cap key s.cap (homeSlot s.cap key) none)

def BigAllocMap.get (s : BigAllocMap) (key : ℕ) : Option BigAllocMeta :=
  if s.cap = 0 then none
  else (findSlot s.table s.cap key s.cap (homeSlot s.cap key)).map fun idx => (s.table idx).info

def BigAllocMap.remove (s : BigAllocMap) (key : ℕ) : BigAllocMap × Option BigAllocMeta :=
  if s.cap = 0 then (s, none)
  else
    match findSlot s.table s.cap key s.cap (homeSlot s.cap key) with
    | none => (s, none)
    | some idx =>
      ({ s with
        table := update s.table idx { s.table idx with state := .tombstone }
        len := s.len - 1
        tombstones := s.tombstones + 1 }, some (s.table idx).info)

end Oxidalloc.Hashmap
