import Oxidalloc.Slab

/-!
The cleanup of a thread's cache. `cleanup_thread_cache` hands the blocks of each bin to the
shared cache, and with them what is left of the pending slab of the class. A class whose
bin has no head is passed over, because the null pointer is no address of ours. The only
caller is the destructor of a `#[thread_local]` static, which no exit runs, so a thread that
ends without a call of its own leaves its engine as it is.
-/
namespace Oxidalloc

open ByteMemory Programs

/-- The loop over the blocks of a bin: the last block and the number of blocks. The
counter overflows when the rounds are used up. -/
def exitChain (ours : ℕ → Bool) : ℕ → Memory → ℕ → ℕ → Except Halt (Memory × ℕ × ℕ)
  | 0, _, _, _ => .error .panic
  | n + 1, m, tail, count =>
    let next := OxHeader.next m tail
    let m := OxHeader.setLifeTime (OxHeader.setNext m tail next) tail 0
    if next = 0 then .ok (m, tail, count)
    else if ours next = false then .ok (OxHeader.setNext m tail 0, tail, count)
    else exitChain ours n m next (count + 1)

def exitBin (cls head : ℕ) : OxM Unit := do
  let w ← get
  let (m, tail, count) ← attempt (exitChain w.isOurs (usizeBound - 1) w.mem head 1)
  set { w with mem := m }
  pushToGlobal cls head tail count

/-- The engine is no longer that of a thread, so it is passed along. -/
def drainPending (e : ThreadLocalEngine) (cls : ℕ) : OxM ThreadLocalEngine :=
  let pending := e.pending cls
  if pending = 0 then pure e
  else do
    let payloadSize ← attempt (index sizeClasses cls)
    let blockSize ← attempt (alignTo (payloadSize + headerSize) 16)
    let w ← get
    let remaining := remainingBlocks w.mem pending blockSize
    if 0 < remaining then do
      let (head, tail, count) ← initBlocks cls pending blockSize remaining
      if 0 < count then do
        pushToGlobal cls head tail count
        pure (e.setPending cls 0)
      else pure (e.setPending cls 0)
    else pure (e.setPending cls 0)

/-- The body of the loop over the classes. -/
def cleanupClass (e : ThreadLocalEngine) (cls : ℕ) : OxM ThreadLocalEngine := do
  let w ← get
  let head := (e.tls cls).head
  if w.isOurs head = false then pure e
  else if head ≠ 0 then do
    exitBin cls head
    drainPending e cls
  else drainPending e cls

def cleanupClasses : List ℕ → ThreadLocalEngine → OxM Unit
  | [], _ => pure ()
  | cls :: rest, e => do
    let e ← cleanupClass e cls
    cleanupClasses rest e

/-- `TLS = null_mut()` comes first. The answer to the unmapping of the engine is ignored. -/
def cleanupThreadCache (t : ℕ) : OxM Unit := do
  let w ← get
  match w.engines t with
  | none => pure ()
  | some e => do
    modify fun w => { w with engines := Function.update w.engines t none }
    cleanupClasses (List.range numSizeClasses) e
    let _ ← draw
    pure ()

end Oxidalloc
