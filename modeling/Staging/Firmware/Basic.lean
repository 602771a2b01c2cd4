import Staging.Notice

/-!
# Firmware

Memory that the heap does not own may be borrowed from the platform firmware.  The library knows
of it only what this interface says; the firmware may change with every call.
-/

namespace Staging

/-- An answer of the firmware, its state afterwards, and its notices. -/
structure Reply (φ α : Type) where
  value : α
  state : φ
  notices : List Notice := []

/-- A firmware with states `φ`. -/
structure Firmware (φ : Type) where
  /-- Number of events that the next listing may contribute, two for each extent. -/
  eventCapacity : φ → Nat
  /-- The extents that could be reserved now.  They may overlap memory that is borrowed. -/
  available : φ → Reply φ (List Extent)
  /-- Reserve an extent; the answer is whether it was granted. -/
  reserve : Extent → φ → Reply φ Bool
  /-- Take back an extent that was granted. -/
  release : Extent → φ → Reply φ Unit

namespace Firmware

/-- A firmware that has nothing to lend. -/
def absent : Firmware Unit where
  eventCapacity _ := 0
  available _ := { value := [], state := () }
  reserve _ _ := { value := false, state := () }
  release _ _ := { value := (), state := () }

end Firmware

end Staging
