/-!
# Traps, faults and outcomes

An operation ends in one of three ways: with its result, with an error of its own, or with a
trap.  An error is part of the contract of the operation.  A trap says that a caller broke a
precondition, that a word or an index left its range, or that a buffer left the address space;
nothing is promised about what follows it.

An operation that changes a state leaves one behind however it ends.
-/

namespace Staging

/-- A broken precondition. -/
inductive Trap where
  /-- A sum that must be a word is not one. -/
  | addOverflow
  /-- A difference would be negative. -/
  | subOverflow
  /-- There is no entry at an index of a list with this length. -/
  | outOfRange (length index : Nat)
  /-- The bytes of a buffer are more than a buffer can have. -/
  | capacityOverflow
  /-- An alignment is not a power of two. -/
  | alignment
  /-- A heap that is frozen already was to be frozen. -/
  | frozenTwice
  /-- The lengths that make up a chunk differ. -/
  | unevenChunk (expected actual : Nat)
deriving DecidableEq, Repr

namespace Trap

/-- The text of a trap. -/
def message : Trap → String
  | addOverflow => "attempt to add with overflow"
  | subOverflow => "attempt to subtract with overflow"
  | outOfRange length index =>
      s!"index out of bounds: the len is {length} but the index is {index}"
  | capacityOverflow => "capacity overflow"
  | alignment => "assertion failed: align.is_power_of_two()"
  | frozenTwice => "heap frozen twice"
  | unevenChunk expected actual =>
      s!"assertion failed: chunk lengths {expected} and {actual} differ"

end Trap

/-- How an operation with errors of type `ε` fails. -/
inductive Fault (ε : Type) where
  | error (cause : ε)
  | trap (cause : Trap)
deriving DecidableEq, Repr

namespace Fault

/-- The same fault under another type of errors. -/
def map {ε ε' : Type} (f : ε → ε') : Fault ε → Fault ε'
  | error cause => error (f cause)
  | trap cause => trap cause

end Fault

/-- How an operation on a state ends, and the state that it leaves. -/
inductive Outcome (ε σ α : Type) where
  | ok (value : α) (state : σ)
  | error (cause : ε) (state : σ)
  | trap (cause : Trap) (state : σ)
deriving DecidableEq

namespace Outcome

variable {ε σ τ α β : Type}

/-- The same ending with another value. -/
def map (f : α → β) : Outcome ε σ α → Outcome ε σ β
  | ok a s => ok (f a) s
  | error cause s => error cause s
  | trap cause s => trap cause s

/-- The same ending of an operation on a part of a larger state. -/
def within (put : σ → τ) : Outcome ε σ α → Outcome ε τ α
  | ok a s => ok a (put s)
  | error cause s => error cause (put s)
  | trap cause s => trap cause (put s)

/-- Go on with a value that was computed in a state, or end there. -/
def orTrap (x : Except Trap α) (s : σ) (next : α → Outcome ε σ β) : Outcome ε σ β :=
  match x with
  | .ok a => next a
  | .error cause => trap cause s

end Outcome

end Staging
