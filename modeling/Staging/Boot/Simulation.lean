import Staging.Boot.Services

/-!
# Simulated boot services

Boot services whose memory map and failures are written down in advance.  The map never changes;
which pages are allocated is kept beside it, and so is a record of the calls of the platform.
-/

namespace Staging.Boot

/-- A call of the page services and how it ended. -/
inductive Simulation.Call where
  | allocate (site : Site) (type : MemoryType) (count : Nat) (outcome : Except Status Nat)
  | free (start count : Nat) (outcome : Except Status Unit)

/-- The state of simulated boot services. -/
structure Simulation where
  map : List Descriptor
  /-- No run of pages that touches one of these is allocated. -/
  refusals : List Extent := []
  /-- The addresses of the next allocations that may lie anywhere. -/
  anywhere : List Nat := []
  /-- Whether the memory map cannot be read. -/
  mapFails : Bool := false
  /-- Whether nothing can be freed. -/
  freeFails : Bool := false
  /-- The allocated runs, each an address and a number of pages, in their order. -/
  held : List (Nat × Nat) := []
  /-- The calls in their order. -/
  calls : Array Simulation.Call := #[]

namespace Simulation

/-- Whether a held run touches an extent. -/
def holds (sim : Simulation) (extent : Extent) : Bool :=
  sim.held.any fun (start, count) =>
    start < extent.stop && extent.start < start + count * pageSize

/-- Where a run of pages is allocated, or why it is not. -/
def site? (sim : Simulation) (site : Site) (count : Nat) : Except Status Nat :=
  match site with
  | .anywhere =>
      match sim.anywhere with
      | [] => .error .outOfResources
      | address :: _ => .ok address
  | .fixed address =>
      match Extent.ofLength? address (count * pageSize) with
      | none => .error .notFound
      | some extent =>
          if count = 0 then
            .error .invalidParameter
          else if sim.refusals.any (·.intersects extent) then
            .error .outOfResources
          else if sim.holds extent || !extent.isCoveredBy (freeExtents sim.map) then
            .error .notFound
          else
            .ok address

/-- Allocate a run of pages. -/
def allocate (sim : Simulation) (site : Site) (type : MemoryType) (count : Nat) :
    Except Status Nat × Simulation :=
  let outcome := sim.site? site count
  let held := match outcome with
    | .ok address => sim.held ++ [(address, count)]
    | .error _ => sim.held
  let anywhere := if site = .anywhere then sim.anywhere.tail else sim.anywhere
  (outcome,
    { sim with held, anywhere, calls := sim.calls.push (.allocate site type count outcome) })

/-- Free a held run of exactly this address and number of pages. -/
def free (sim : Simulation) (start count : Nat) : Except Status Unit × Simulation :=
  let found := !sim.freeFails && sim.held.contains (start, count)
  let outcome := if found then .ok () else .error .notFound
  let held := if found then sim.held.erase (start, count) else sim.held
  (outcome, { sim with held, calls := sim.calls.push (.free start count outcome) })

/-- Allocate a run of pages, but not at address zero: pages there are given up for another
allocation, which fails if it lies there as well. -/
def allocatePages (site : Site) (type : MemoryType) (count : Nat) (sim : Simulation) :
    Except Status Nat × Simulation :=
  match sim.allocate site type count with
  | (.ok 0, sim) =>
      -- The pages at zero stay allocated meanwhile, so that another run comes.
      let (second, sim) := sim.allocate site type count
      let (_, sim) := sim.free 0 count
      match second with
      | .ok 0 => (.error .outOfResources, sim)
      | _ => (second, sim)
  | other => other

/-- The simulated boot services. -/
def services : Services Simulation where
  memoryMap sim := if sim.mapFails then .error .outOfResources else .ok sim.map
  allocatePages := allocatePages
  free start count sim := sim.free start count

end Simulation

end Staging.Boot
