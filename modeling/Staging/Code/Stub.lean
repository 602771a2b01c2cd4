import Staging.Hex

/-!
# Stubs of relocation code

Relocation code is a row of mover stubs and one jumper stub.  This module names what a stub does
and why one cannot be emitted; which bytes it has is up to the architecture.
-/

namespace Staging

/-- The order in which a mover copies bytes. -/
inductive CopyDirection where
  /-- Ascending, for a target below the source. -/
  | forward
  /-- Descending, for a target above the source. -/
  | backward
deriving DecidableEq, Repr

namespace CopyDirection

/-- The direction that moves `source` to `target`; none if nothing moves. -/
def between (source target : Nat) : Option CopyDirection :=
  if source < target then
    some .backward
  else if target < source then
    some .forward
  else
    none

/-- A direction as it is written in messages. -/
def text : CopyDirection → String
  | forward => "Forward"
  | backward => "Backward"

end CopyDirection

/-- One copy of `size` bytes. -/
structure Move where
  source : Nat
  target : Nat
  size : Nat
  direction : CopyDirection
deriving DecidableEq, Repr

/-- Why a stub cannot be emitted. -/
inductive Code.Error where
  /-- The buffer ends before the stub does. -/
  | bufferTooSmall (needed available : Nat)
  /-- The architecture has no encoding for the address. -/
  | addressNotEncodable (address : Nat)
  /-- The caches cannot be made coherent. -/
  | cacheSync
deriving DecidableEq, Repr

/-- The text of an error. -/
def Code.Error.message : Code.Error → String
  | .bufferTooSmall needed available =>
      s!"Stub needs {needed} bytes but only {available} are left"
  | .addressNotEncodable address =>
      s!"Address {Hex.wide address} cannot be encoded by this architecture"
  | .cacheSync => "Failed to synchronize caches"

end Staging
