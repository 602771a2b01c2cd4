import Staging.Boot.Status
import Staging.Extent

/-!
# Boot services

What the library uses of the boot services of a platform: the memory map, and allocating and
freeing pages.
-/

namespace Staging.Boot

/-- Number of bytes of a page. -/
def pageSize : Nat := 4096

/-- A type of memory, by its number. -/
structure MemoryType where
  number : Nat
deriving DecidableEq, Repr

namespace MemoryType

/-- Pages that a loader allocated. -/
def loaderData : MemoryType := ⟨2⟩

/-- Pages that nobody uses. -/
def conventional : MemoryType := ⟨7⟩

end MemoryType

/-- A run of pages of one type in the memory map. -/
structure Descriptor where
  type : MemoryType
  start : Nat
  pages : Nat
deriving DecidableEq, Repr

/-- The memory of a descriptor, if it does not leave the address space. -/
def Descriptor.extent? (d : Descriptor) : Option Extent :=
  Extent.ofLength? d.start (d.pages * pageSize)

/-- The unused memory of a map. -/
def freeExtents (map : List Descriptor) : List Extent :=
  (map.filter (·.type == .conventional)).filterMap (·.extent?)

/-- Where pages are to be allocated. -/
inductive Site where
  | anywhere
  | fixed (address : Nat)
deriving DecidableEq, Repr

/-- Boot services with states `β`. -/
structure Services (β : Type) where
  /-- The memory map as it is now. -/
  memoryMap : β → Except Status (List Descriptor)
  /-- Allocate a number of pages of a type; yields their address. -/
  allocatePages : Site → MemoryType → Nat → β → Except Status Nat × β
  /-- Free a number of pages at an address. -/
  free : Nat → Nat → β → Except Status Unit × β

end Staging.Boot
