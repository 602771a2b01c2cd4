import Staging.Address
import Staging.Hex

/-!
# Extents

An extent is a half-open range `[start, stop)` of physical addresses that does not wrap around
the top of the address space.  Empty extents are allowed.
-/

namespace Staging

/-- The half-open range `[start, stop)`. -/
@[ext]
structure Extent where
  start : Nat
  stop : Nat
  start_le_stop : start ≤ stop
  stop_lt : stop < Address.limit
deriving DecidableEq

namespace Extent

/-- The empty extent at address zero. -/
def empty : Extent := ⟨0, 0, by decide, by decide⟩

instance : Inhabited Extent := ⟨empty⟩

/-- The extent between two bounds, if they are in order. -/
def ofBounds? (start stop : Nat) : Option Extent :=
  if h : start ≤ stop ∧ stop < Address.limit then some ⟨start, stop, h.1, h.2⟩ else none

theorem ofBounds?_eq_some {start stop : Nat} {e : Extent} (h : ofBounds? start stop = some e) :
    e.start = start ∧ e.stop = stop := by
  unfold ofBounds? at h
  split at h
  · cases h
    exact ⟨rfl, rfl⟩
  · contradiction

/-- The extent of `length` bytes at `start`, if it does not wrap. -/
def ofLength? (start length : Nat) : Option Extent :=
  ofBounds? start (start + length)

/-- The extent between two bounds, empty if they are not in order. -/
def ofBoundsD (start stop : Nat) : Extent :=
  (ofBounds? start stop).getD empty

/-- Number of bytes in the extent. -/
def length (e : Extent) : Nat := e.stop - e.start

/-- Number of bytes in all of the extents. -/
def total (extents : List Extent) : Nat :=
  extents.foldr (fun e n => e.length + n) 0

/-- Whether the extent has no byte. -/
def isEmpty (e : Extent) : Bool := e.start == e.stop

/-- Whether the byte at `address` is in the extent. -/
def contains (e : Extent) (address : Nat) : Bool :=
  e.start ≤ address && address < e.stop

/-- Whether `inner` lies between the bounds of `e`. -/
def covers (e inner : Extent) : Bool :=
  e.start ≤ inner.start && inner.stop ≤ e.stop

/-- Whether each of the extents starts before the other stops. -/
def intersects (a b : Extent) : Bool :=
  a.start < b.stop && b.start < a.stop

/-- Extents are ordered by their starts, then by their stops. -/
instance : Ord Extent where
  compare a b := (compare a.start b.start).then (compare a.stop b.stop)

/-- Two touching extents as one. -/
def join (a b : Extent) (touching : a.stop = b.start) : Extent where
  start := a.start
  stop := b.stop
  start_le_stop := Nat.le_trans (touching ▸ a.start_le_stop) b.start_le_stop
  stop_lt := b.stop_lt

/-- What is left of `e` outside of `hole`: at most a part below and a part above it. -/
def minus (e hole : Extent) : List Extent :=
  [ofBounds? e.start (min e.stop hole.start), ofBounds? (max e.start hole.stop) e.stop].filterMap
    fun part => part.filter (!·.isEmpty)

/-- Whether every byte of `e` is in some extent of the list. -/
def isCoveredBy (e : Extent) (extents : List Extent) : Bool :=
  (extents.foldl (fun left extent => left.flatMap (·.minus extent)) [e]).all (·.isEmpty)

/-- An extent as it is written in messages. -/
def text (e : Extent) : String :=
  s!"[{Hex.short e.start}, {Hex.short e.stop})"

end Extent

end Staging
