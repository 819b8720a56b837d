import Oxidalloc.Ownership

/-!
The lists of the caches in both builds. With the feature `hardened-linked-list` a pointer
that is stored in a bin is xored with the key of the thread, one that is stored in the
shared cache with `NUMA_KEY`, and the head words of the shared cache have no tag; without
it pointers are stored as they are and the head words are tagged. The functions are those
of `thread_local.rs`, `global.rs` and `interconnect.rs`, each call as one step, over the
`next` fields of the headers. A call that panics or does not end has no result.
-/
namespace Oxidalloc.CacheLists

open HeadPacking Function

/-- The keys mean nothing without the feature. -/
structure Build where
  hardened : Bool
  xorKey : ℕ → ℕ
  numaKey : ℕ

def defaultBuild : Build := ⟨false, fun _ => 0, 0⟩

section Encoding

variable (b : Build)

/-- `xor_ptr` of a thread, and `xor_ptr_general` -/
def Build.xorPtr (key ptr : ℕ) : ℕ := if b.hardened = true ∧ ptr ≠ 0 then ptr ^^^ key else ptr

def Build.headPack (ptr tag : ℕ) : ℕ :=
  if b.hardened then ptr else HeadPacking.headPack ptr tag

def Build.headPtr (val : ℕ) : ℕ := if b.hardened then val else HeadPacking.headPtr val

def Build.headTag (val : ℕ) : ℕ := if b.hardened then 0 else HeadPacking.headTag val

/-- The loop `while curr != tail` that encodes the links of a chain: it follows the old
links. -/
def encodeChain (key : ℕ) : ℕ → (ℕ → ℕ) → ℕ → ℕ → Option (ℕ → ℕ)
  | 0, _, _, _ => none
  | fuel + 1, next, curr, tail =>
    if curr = tail then some next
    else if curr = 0 then none
    else encodeChain key fuel (update next curr (b.xorPtr key (next curr)))
      (next curr) tail

/-- The loop at the end of `pop` that decodes the links: it follows the new ones. -/
def decodeChain (key : ℕ) : ℕ → (ℕ → ℕ) → ℕ → ℕ → Option (ℕ → ℕ)
  | 0, _, _, _ => none
  | fuel + 1, next, curr, tail =>
    if curr = tail then some next
    else if curr = 0 then none
    else
      decodeChain key fuel (update next curr (b.xorPtr key (next curr)))
        (b.xorPtr key (next curr)) tail

/-- A chain has fewer blocks than there are addresses. -/
def encode (key : ℕ) (next : ℕ → ℕ) (head tail : ℕ) : Option (ℕ → ℕ) :=
  if b.hardened then encodeChain b key usizeBound next head tail else some next

def decode (key : ℕ) (next : ℕ → ℕ) (head tail : ℕ) : Option (ℕ → ℕ) :=
  if b.hardened then decodeChain b key usizeBound next head tail else some next

end Encoding

/-- The uncarved blocks of a thread's pending slab are listed in the order of their
addresses. -/
structure Lists where
  next : ℕ → ℕ
  bins : ℕ → ℕ → TlsBin
  pending : ℕ → ℕ → List ℕ
  list : ℕ → ℕ → ℕ
  usage : ℕ → ℕ → ℕ

namespace Lists

def new : Lists := ⟨fun _ => 0, fun _ _ => ⟨0, 0⟩, fun _ _ => [], fun _ _ => 0, fun _ _ => 0⟩

def setNext (s : Lists) (ptr val : ℕ) : Lists := { s with next := update s.next ptr val }

def setBin (s : Lists) (t cls head usage : ℕ) : Lists :=
  { s with bins := put s.bins t cls ⟨head, usage⟩ }

def setShard (s : Lists) (cpu cls word usage : ℕ) : Lists :=
  { s with list := put s.list cpu cls word, usage := put s.usage cpu cls usage }

/-- The engine of a thread is unmapped. -/
def forget (s : Lists) (t : ℕ) : Lists :=
  { s with
    bins := update s.bins t fun _ => ⟨0, 0⟩
    pending := update s.pending t fun _ => [] }

end Lists

section ThreadLocal

variable (b : Build)

def popFromThread (t cls : ℕ) (s : Lists) : Option (ℕ × Lists) :=
  let bin := s.bins t cls
  if bin.head = 0 then some (0, s)
  else if bin.usage = 0 then none
  else
    let header := b.xorPtr (b.xorKey t) bin.head
    some (header, s.setBin t cls (s.next header) (bin.usage - 1))

def pushToThread (t cls head : ℕ) (s : Lists) : Option Lists :=
  let bin := s.bins t cls
  if usizeBound ≤ bin.usage + 1 then none
  else some ((s.setNext head bin.head).setBin t cls (b.xorPtr (b.xorKey t) head) (bin.usage + 1))

def pushToThreadTailed (t cls head tail batchSize : ℕ) (s : Lists) : Option Lists :=
  (encode b (b.xorKey t) s.next head tail).bind fun next =>
    let bin := s.bins t cls
    if usizeBound ≤ bin.usage + batchSize then none
    else
      some (({ s with next := next }.setNext tail bin.head).setBin t cls
        (b.xorPtr (b.xorKey t) head) (bin.usage + batchSize))

end ThreadLocal

section Interconnect

variable (b : Build)

def tryPush (cpu cls head tail batchSize : ℕ) (s : Lists) : Lists :=
  let current := s.list cpu cls
  (s.setNext tail (b.headPtr current)).setShard cpu cls
    (b.headPack (b.xorPtr b.numaKey head) ((b.headTag current + 1) % usizeBound))
    ((s.usage cpu cls + batchSize) % usizeBound)

def pushToGlobal (cpu cls head tail batchSize : ℕ) (s : Lists) : Option Lists :=
  (encode b b.numaKey s.next head tail).map fun next =>
    tryPush b cpu cls head tail batchSize { s with next := next }

/-- The `for _ in 1..batch_size` loop of `pop`. -/
def batchTail (next : ℕ → ℕ) : ℕ → ℕ → ℕ → ℕ × ℕ
  | 0, tail, count => (tail, count)
  | n + 1, tail, count =>
    if next tail = 0 then (tail, count)
    else batchTail next n (b.xorPtr b.numaKey (next tail)) (count + 1)

def pop (cls batchSize cpu : ℕ) (s : Lists) : Option (Option ℕ × Lists) :=
  if s.usage cpu cls = 0 then some (none, s)
  else
    let cur := s.list cpu cls
    if b.headPtr cur = 0 then some (none, s)
    else
      let head := b.xorPtr b.numaKey (b.headPtr cur)
      let (tail, count) := batchTail b s.next (batchSize - 1) head 1
      (decode b b.numaKey s.next head tail).map fun next =>
        (some head,
          ({ s with next := next }.setShard cpu cls
            (b.headPack (s.next tail) ((b.headTag cur + 1) % usizeBound))
            ((s.usage cpu cls + (usizeBound - count)) % usizeBound)).setNext tail 0)

end Interconnect

section Exit

variable (b : Build)

/-- The loop of `cleanup_thread_cache` over a bin: the links are decoded, up to the first
that does not lead to an address of ours. The result has the last block and the count. -/
def exitChain (key : ℕ) (ours : ℕ → Bool) : ℕ → (ℕ → ℕ) → ℕ → ℕ → Option ((ℕ → ℕ) × ℕ × ℕ)
  | 0, _, _, _ => none
  | fuel + 1, next, tail, count =>
    let follow := b.xorPtr key (next tail)
    if follow = 0 then some (update next tail 0, tail, count)
    else if ours follow = false then some (update next tail 0, tail, count)
    else exitChain key ours fuel (update next tail follow) follow (count + 1)

/-- The loop of `init_blocks`, from the last block to the first: the links, and the head
of the chain. -/
def carveLinks (next : ℕ → ℕ) : List ℕ → (ℕ → ℕ) × ℕ
  | [] => (next, 0)
  | x :: rest => (update (carveLinks next rest).1 x (carveLinks next rest).2, x)

def drainPending (t cls cpu : ℕ) (s : Lists) : Option Lists :=
  match s.pending t cls with
  | [] => some s
  | x :: rest =>
    pushToGlobal b cpu cls x ((x :: rest).getLast (List.cons_ne_nil x rest)) (rest.length + 1)
      { s with
        next := (carveLinks s.next (x :: rest)).1
        pending := put s.pending t cls [] }

/-- The blocks of a bin go to the shared cache. -/
def drainBin (t cls cpu : ℕ) (ours : ℕ → Bool) (s : Lists) : Option Lists :=
  let head := b.xorPtr (b.xorKey t) (s.bins t cls).head
  if head = 0 then some s
  else
    (exitChain b (b.xorKey t) ours usizeBound s.next head 1).bind fun (next, tail, count) =>
      pushToGlobal b cpu cls head tail count { s with next := next }

/-- One round of the loop over the classes. The two calls of `push_to_global` may find
the thread on different CPUs. -/
def cleanupClass (t : ℕ) (ours : ℕ → Bool) (cpus : ℕ → ℕ × ℕ) (s : Lists) (cls : ℕ) :
    Option Lists :=
  if ours (b.xorPtr (b.xorKey t) (s.bins t cls).head) = false then some s
  else (drainBin b t cls (cpus cls).1 ours s).bind (drainPending b t cls (cpus cls).2)

def cleanupThreadCache (t : ℕ) (ours : ℕ → Bool) (cpus : ℕ → ℕ × ℕ) (s : Lists) : Option Lists :=
  ((List.range numSizeClasses).foldlM (cleanupClass b t ours cpus) s).map (Lists.forget · t)

end Exit

end Oxidalloc.CacheLists
