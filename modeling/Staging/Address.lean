import Staging.Fault

/-!
# Physical addresses

A physical address is a natural number below `2 ^ 64`.  Sums are checked against that limit, and
rounding to an alignment clears the bits below it, which is rounding to a multiple exactly when
the alignment is a power of two.
-/

namespace Staging.Address

/-- Addresses, and all other words, are below this number, which is `2 ^ 64`. -/
def limit : Nat := 0x10000000000000000

/-- The highest address.  Memory is used up to here, but not the byte at it. -/
def top : Nat := limit - 1

/-- The sum of an address and an offset, if it is an address. -/
def add? (x offset : Nat) : Option Nat :=
  if x + offset < limit then some (x + offset) else none

/-- The sum of two words that must be a word. -/
def add (x y : Nat) : Except Trap Nat :=
  if x + y < limit then .ok (x + y) else .error .addOverflow

/-- The address less `offset`, if it does not pass zero. -/
def sub? (x offset : Nat) : Option Nat :=
  if offset ≤ x then some (x - offset) else none

/-- The difference of two words that must not pass zero. -/
def sub (x y : Nat) : Except Trap Nat :=
  if y ≤ x then .ok (x - y) else .error .subOverflow

/-- Whether exactly one bit of the number is set. -/
def isPowerOfTwo (n : Nat) : Bool :=
  n != 0 && n &&& (n - 1) == 0

/-- The address with the bits below `align` cleared. -/
def floorTo (align x : Nat) : Nat :=
  x - (x &&& (align - 1))

/-- The address rounded up to `align`, if the sum whose bits are cleared is an address. -/
def ceilTo? (align x : Nat) : Option Nat :=
  (add? x (align - 1)).map (floorTo align)

/-- Round up to a power of two. -/
def alignUp (x align : Nat) : Except Trap (Option Nat) :=
  if isPowerOfTwo align then .ok (ceilTo? align x) else .error .alignment

/-- Round down to a power of two. -/
def alignDown (x align : Nat) : Except Trap Nat :=
  if isPowerOfTwo align then .ok (floorTo align x) else .error .alignment

/-- Whether no bit below `align`, a power of two, is set. -/
def isAligned (x align : Nat) : Except Trap Bool :=
  if isPowerOfTwo align then .ok (x &&& (align - 1) == 0) else .error .alignment

end Staging.Address
