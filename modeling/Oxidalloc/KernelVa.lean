import Oxidalloc.AlignTo
import Oxidalloc.Radix

/-!
The statics behind `get_va_from_kernel` and the function itself, one access to
them at a time. The kernel's answer to a mapping request (an address, or none for
an error) and the number that `getrandom` delivers come from outside. A step that
ends the process, by abort or by an overflow, has no result.
-/
namespace Oxidalloc.KernelVa

structure Statics where
  baseHint : ℕ
  baseInit : Bool
  latestTried : ℕ
  reserve : ℕ
  deriving DecidableEq, Repr

def Statics.initial : Statics := ⟨0, false, 0, 0⟩

def minReserve : ℕ := chunkSize

/-- Where a call of `get_va_from_kernel` stands, `randomize_base_hint` included. -/
inductive Place where
  | randomLoad
  | randomRead (max : ℕ)
  | randomWrite (hint : ℕ)
  | sizeLoad
  | probeRead (size : ℕ)
  | probe (size target : ℕ)
  | latestStore (va size : ℕ)
  | hintInit (va size : ℕ)
  | hintRead (va size : ℕ)
  | hintWrite (va size hint : ℕ)
  | probeFailed (size : ℕ)
  | retryRead (size : ℕ)
  | retryWrite (size hint : ℕ)
  | returned (va size : ℕ)
  deriving DecidableEq, Repr

def advance (maxReservation : ℕ) (k : Statics) (answer : Option ℕ) :
    Place → Option (Statics × Place)
  | .randomLoad =>
    if k.latestTried = 0 then some (k, .sizeLoad) else some (k, .randomRead k.latestTried)
  | .randomRead max =>
    match answer with
    | none => none
    | some rand =>
      match alignTo (rand % max) 4096 with
      | .error _ => none
      | .ok offset => some (k, .randomWrite ((k.baseHint + offset) % usizeBound))
  | .randomWrite hint => some ({ k with baseHint := hint }, .sizeLoad)
  | .sizeLoad =>
    if 3 < k.reserve then some (k, .probeRead (max k.latestTried minReserve))
    else some ({ k with reserve := k.reserve + 1 }, .probeRead (max maxReservation minReserve))
  | .probeRead size => some (k, .probe size (if k.baseInit then k.baseHint else 0))
  | .probe size _ =>
    match answer with
    | some va => some (k, .latestStore va size)
    | none => some (k, .probeFailed size)
  | .latestStore va size =>
    some ({ k with latestTried := max k.latestTried size }, .hintInit va size)
  | .hintInit va size =>
    if k.baseInit then some (k, .hintRead va size)
    else some ({ k with baseHint := va, baseInit := true }, .returned va size)
  | .hintRead va size =>
    if usizeBound ≤ k.baseHint + size then none
    else some (k, .hintWrite va size (k.baseHint + size))
  | .hintWrite va size hint => some ({ k with baseHint := hint }, .returned va size)
  | .probeFailed size =>
    if size ≤ minReserve ∧ ¬ k.baseInit then none
    else if size ≤ minReserve then some ({ k with baseInit := false }, .returned 0 0)
    else some (k, .retryRead size)
  | .retryRead size =>
    if usizeBound ≤ k.baseHint + size then none
    else some (k, .retryWrite size (k.baseHint + size))
  | .retryWrite size hint => some ({ k with baseHint := hint }, .probeRead (size / 2))
  | .returned _ _ => none

end Oxidalloc.KernelVa
