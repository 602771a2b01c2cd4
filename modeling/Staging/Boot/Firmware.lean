import Staging.Boot.Services
import Staging.Firmware.Basic

/-!
# Firmware on boot services

Boot services lend their unused memory page by page.  A reservation covers whole pages, so two
extents that share a page cannot both be reserved.
-/

namespace Staging.Boot

/-- A run of whole pages. -/
structure PageRun where
  start : Nat
  count : Nat
deriving DecidableEq, Repr

/-- The least run of pages that covers an extent, if it does not reach the top of the address
space. -/
def PageRun.cover? (extent : Extent) : Option PageRun := do
  let stop ← Address.ceilTo? pageSize extent.stop
  let start := Address.floorTo pageSize extent.start
  some ⟨start, (stop - start) / pageSize⟩

/-- Descriptors that the memory map may gain after its length was asked for. -/
def spareDescriptors : Nat := 32

variable {β : Type}

/-- The unused memory of the map. -/
def available (bs : Services β) (s : β) : Reply β (List Extent) :=
  match bs.memoryMap s with
  | .ok map => { value := freeExtents map, state := s }
  | .error status => { value := [], state := s, notices := [.mapUnavailable status] }

/-- Allocate the pages of an extent. -/
def reserve (bs : Services β) (extent : Extent) (s : β) : Reply β Bool :=
  match PageRun.cover? extent with
  | none => { value := false, state := s }
  | some run =>
      match bs.allocatePages (.fixed run.start) .loaderData run.count s with
      | (.ok _, s) =>
          { value := true, state := s, notices := [.pagesReserved run.count run.start extent] }
      | (.error status, s) =>
          { value := false, state := s, notices := [.pagesRefused run.start run.count status] }

/-- Free a run of pages. -/
def freeRun (bs : Services β) (run : PageRun) (s : β) : Reply β Unit :=
  match bs.free run.start run.count s with
  | (.ok (), s) => { value := (), state := s }
  | (.error status, s) =>
      { value := (), state := s, notices := [.pagesKept run.start run.count status] }

/-- Free the pages of an extent.  No reservation lies at address zero. -/
def release (bs : Services β) (extent : Extent) (s : β) : Reply β Unit :=
  match (PageRun.cover? extent).filter (·.start ≠ 0) with
  | none => { value := (), state := s }
  | some run => freeRun bs run s

/-- The firmware that boot services make. -/
def firmware (bs : Services β) : Firmware β where
  eventCapacity s :=
    let descriptors := match bs.memoryMap s with
      | .ok map => map.length
      | .error _ => 0
    2 * (descriptors + spareDescriptors)
  available := available bs
  reserve := reserve bs
  release := release bs

end Staging.Boot
