import Mathlib.Algebra.Group.Nat.Defs
import Mathlib.Data.Nat.Notation

/-!
The ways a call of the allocator can end without returning: the explicit
`log_and_abort` with its error code and message, a Rust panic (the build profiles
keep `overflow-checks` on and panic by aborting), and an access through a pointer
that leads nowhere. In each case the process is gone, so no later state of the
run exists.
-/
namespace Oxidalloc

inductive OxidallocError where
  | doubleFree
  | memoryCorruption
  | invalidSize
  | outOfMemory
  | vaBitmapExhausted
  | vaIinitFailed
  | pThreadCacheFailed
  | tooMuchQuarantine
  | doubleQuarantine
  | reservationExceeded
  | securityViolation
  | attackOrCorruption
  | iccFailedToInitialize
  deriving DecidableEq, Repr

inductive Halt where
  | abort (error : OxidallocError) (extra : String)
  | panic
  | fault
  deriving DecidableEq, Repr

/-- The size of the address space; `usize` values stay below it. -/
def usizeBound : ℕ := 2 ^ 64

/-- Both parts return if a sequence of two does. -/
theorem bind_eq_ok {ε α β : Type} {x : Except ε α} {f : α → Except ε β} {b : β} :
    x.bind f = .ok b ↔ ∃ a, x = .ok a ∧ f a = .ok b := by
  cases x with
  | error e => simp [Except.bind]
  | ok a => simp [Except.bind]

end Oxidalloc
