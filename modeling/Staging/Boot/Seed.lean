import Staging.Boot.Firmware
import Staging.Heap.Operation

/-!
# Seeding the heap

A loader gets its first memory from the boot services: a run of pages becomes a region of its
heap.
-/

namespace Staging.Boot

/-- Why the heap was not seeded. -/
inductive SeedError where
  /-- The pages could not be allocated. -/
  | allocation (status : Status)
  /-- The pages do not fit the address space. -/
  | pageCount
  /-- The heap refused the region. -/
  | heap (cause : Heap.Error)
deriving DecidableEq

namespace SeedError

/-- The text of an error. -/
def message : SeedError → String
  | allocation _ => "A physical page allocation failed"
  | pageCount => "The requested page count does not fit the address space"
  | heap _ => "The heap rejected the region"

/-- The status that the error has for the boot services. -/
def status : SeedError → Status
  | allocation status => status
  | pageCount => .badBufferSize
  | heap _ => .outOfResources

end SeedError

variable {β : Type}

/-- Hand `length` bytes at `start` to the heap as a region; returns it and its extent. -/
def addRun (heap : Heap) (start length : Nat) : Outcome SeedError Heap (RegionId × Extent) :=
  match Extent.ofLength? start length with
  | none => .error .pageCount heap
  | some extent =>
      match heap.addRegion extent with
      | .ok id heap => .ok (id, extent) heap
      | .error cause heap => .error (.heap cause) heap
      | .trap cause heap => .trap cause heap

/-- Allocate pages and hand them to the heap as a region.  If the heap refuses them they are
freed. -/
def seed (bs : Services β) (heap : Heap) (count : Nat) (s : β) :
    Reply β (Outcome SeedError Heap RegionId) :=
  if Address.limit ≤ count * pageSize then
    { value := .error .pageCount heap, state := s }
  else
    match bs.allocatePages .anywhere .loaderData count s with
    | (.error status, s) => { value := .error (.allocation status) heap, state := s }
    | (.ok start, s) =>
        match addRun heap start (count * pageSize) with
        | .ok (id, extent) heap =>
            { value := .ok id heap, state := s
              notices := [.regionAdded id extent, .regionSeeded id count start] }
        | .error cause heap =>
            let freed := freeRun bs ⟨start, count⟩ s
            { freed with value := .error cause heap }
        | .trap cause heap => { value := .trap cause heap, state := s }

end Staging.Boot
