import Staging.Firmware.Basic

/-!
# Firmware from a table

A firmware whose listing and refusals are written down in advance.  It lists all its memory
always, and keeps a record of the calls.
-/

namespace Staging.Firmware

/-- Which extents lie inside the listed memory. -/
inductive Cover where
  /-- Those that one listed extent covers. -/
  | one
  /-- Those whose every byte is in some listed extent. -/
  | union
  /-- All. -/
  | any
deriving DecidableEq, Repr

/-- A call of a table. -/
inductive Table.Call where
  | reserve (extent : Extent) (granted : Bool)
  | release (extent : Extent) (found : Bool)
deriving DecidableEq

/-- The state of a firmware from a table. -/
structure Table where
  /-- The listed memory. -/
  available : List Extent
  /-- No extent that touches one of these is granted. -/
  refusals : List Extent := []
  cover : Cover := .one
  /-- Number of events that are announced; two for each listed extent if it is not given. -/
  announced : Option Nat := none
  /-- The granted extents in the order of their reservations. -/
  held : List Extent := []
  /-- The calls in their order. -/
  calls : Array Table.Call := #[]
deriving DecidableEq

namespace Table

/-- Whether the extent lies inside the listed memory. -/
def offers (t : Table) (extent : Extent) : Bool :=
  match t.cover with
  | .one => t.available.any (·.covers extent)
  | .union => extent.isCoveredBy t.available
  | .any => true

/-- Whether the extent is granted. -/
def grants (t : Table) (extent : Extent) : Bool :=
  !t.refusals.any (·.intersects extent) && !t.held.any (·.intersects extent) && t.offers extent

/-- Reserve an extent if it is granted. -/
def reserve (t : Table) (extent : Extent) : Bool × Table :=
  let granted := t.grants extent
  let held := if granted then t.held ++ [extent] else t.held
  (granted, { t with held, calls := t.calls.push (.reserve extent granted) })

/-- Take back the first reservation of exactly this extent. -/
def release (t : Table) (extent : Extent) : Table :=
  { t with
    held := t.held.erase extent
    calls := t.calls.push (.release extent (t.held.contains extent)) }

end Table

/-- The firmware that a table describes. -/
def ofTable : Firmware Table where
  eventCapacity t := t.announced.getD (2 * t.available.length)
  available t := { value := t.available, state := t }
  reserve extent t :=
    let (granted, t) := t.reserve extent
    { value := granted, state := t }
  release extent t := { value := (), state := t.release extent }

end Staging.Firmware
