import Staging.Boot.Status
import Staging.Code.Stub
import Staging.Loan
import Staging.Sweep.Search

/-!
# Notices

While the library works it says what it does.  A notice holds the facts; its level and its text
follow from them.
-/

namespace Staging

/-- How much a notice matters. -/
inductive Level where
  | warn
  | info
  | debug
  | trace
deriving DecidableEq, Repr

namespace Level

/-- A level as it is written in front of a text. -/
def text : Level → String
  | warn => "WARN"
  | info => "INFO"
  | debug => "DEBUG"
  | trace => "TRACE"

/-- The place of a level, counted from the one that matters most. -/
def rank : Level → Nat
  | warn => 0
  | info => 1
  | debug => 2
  | trace => 3

end Level

/-- Something that happened. -/
inductive Notice where
  /-- The heap got a region. -/
  | regionAdded (id : RegionId) (extent : Extent)
  /-- A search begins. -/
  | searching (request : Request)
  /-- A search masks memory that the firmware lent before. -/
  | blockInUse (block : Extent)
  /-- A piece of a placement was borrowed. -/
  | committed (loan : Loan)
  /-- A placement was borrowed. -/
  | allocated (extent : Extent)
  /-- The firmware refused a piece. -/
  | refused (piece : Extent)
  /-- A loan of a refused placement could not be given back. -/
  | rollbackFailed (loan : Extent) (cause : Heap.Error)
  /-- The post area has a lowest address. -/
  | postAreaStarts (address : Nat)
  /-- A fixed target lies in the post area. -/
  | targetInPostArea (target : Extent)
  /-- A flexible chunk that cannot be in place got a target. -/
  | targetSelected (target : Extent)
  /-- Sources between these limits keep the order of their targets. -/
  | limits (low high : Nat)
  /-- A chunk was registered. -/
  | registered (source target : Extent) (highest highestOrdinary : Nat)
  /-- A task ends. -/
  | unloading (chunks blocks : Nat)
  /-- A loan could not be given back. -/
  | releaseFailed (loan source : Extent) (cause : Heap.Error)
  /-- The target of one chunk lies over the source of another. -/
  | hazard (target : Extent) (first : Nat) (source : Extent) (second : Nat)
  /-- A chunk is about to be moved or synchronized. -/
  | relocating (source target size : Nat) (direction : Option CopyDirection)
  /-- A mover was emitted. -/
  | moverEmitted (move : Move)
  /-- The relocation code is complete. -/
  | codeReady (address size entry : Nat)
  /-- The memory map cannot be read. -/
  | mapUnavailable (status : Boot.Status)
  /-- Pages were allocated for an extent. -/
  | pagesReserved (count start : Nat) (extent : Extent)
  /-- Pages were not allocated. -/
  | pagesRefused (start count : Nat) (status : Boot.Status)
  /-- Pages were not freed. -/
  | pagesKept (start count : Nat) (status : Boot.Status)
  /-- Pages became a region of the heap. -/
  | regionSeeded (id : RegionId) (count start : Nat)
deriving DecidableEq

namespace Notice

/-- The level of a notice. -/
def level : Notice → Level
  | refused .. | rollbackFailed .. | releaseFailed .. | hazard .. => .warn
  | mapUnavailable .. | pagesRefused .. | pagesKept .. => .warn
  | unloading .. | codeReady .. | regionSeeded .. => .info
  | blockInUse .. | moverEmitted .. => .trace
  | _ => .debug

/-- The text of a notice. -/
def text : Notice → String
  | regionAdded id extent => s!"heap: added region {id.text} {extent.text}"
  | searching r =>
      s!"trying to allocate in {r.window.text} aligned {Hex.short r.align} " ++
        s!"size {Hex.short r.size} ({r.heading.text})"
  | blockInUse block => s!"firmware block {block.text} is in use"
  | committed loan => s!"committed {loan.extent.text} as {loan.lender.text}"
  | allocated extent => s!"allocated {extent.text}"
  | refused piece => s!"firmware refused {piece.text}, retrying without it"
  | rollbackFailed loan cause => s!"failed to roll back {loan.text}: {cause.message}"
  | postAreaStarts address => s!"post area now starts at {Hex.short address}"
  | targetInPostArea target =>
      s!"target {target.text} lies in the post area, searching above it only"
  | targetSelected target => s!"selected target {target.text}"
  | limits low high => s!"adjusted limits to [{Hex.short low}, {Hex.short high})"
  | registered source target highest highestOrdinary =>
      s!"chunk {source.text} -> {target.text}, highest {Hex.short highest}, " ++
        s!"highest non-post {Hex.short highestOrdinary}"
  | unloading chunks blocks =>
      s!"unloading relocator with {chunks} chunks and {blocks} firmware blocks"
  | releaseFailed loan source cause =>
      s!"failed to release {loan.text} of chunk {source.text}: {cause.message}"
  | hazard target first source second =>
      s!"target {target.text} of chunk {first} overlaps source {source.text} of chunk {second}"
  | relocating source target size direction =>
      let way := match direction with
        | some d => s!"Some({d.text})"
        | none => "None"
      s!"chunk PA({Hex.wide source}) -> PA({Hex.wide target}) ({Hex.short size} bytes): {way}"
  | moverEmitted m =>
      s!"{m.direction.text} mover {Hex.wide m.source} -> {Hex.wide m.target} " ++
        s!"({Hex.short m.size} bytes)"
  | codeReady address size entry =>
      s!"relocator code at {Hex.wide address} ({size} bytes) jumps to {Hex.wide entry}"
  | mapUnavailable status =>
      s!"Failed to get memory map: Error \x7b status: {status.name}, data: () \x7d"
  | pagesReserved count start extent =>
      s!"reserved {count} pages at {Hex.short start} for {extent.text}"
  | pagesRefused start count status =>
      s!"AllocatePages({Hex.short start}, {count}) failed: {status.name}"
  | pagesKept start count status =>
      s!"FreePages({Hex.short start}, {count}) failed: {status.name}"
  | regionSeeded id count start =>
      s!"seeded heap region {id.text} with {count} pages at {Hex.short start}"

/-- A notice as a line of a log. -/
def line (n : Notice) : String := s!"{n.level.text} {n.text}"

end Notice

end Staging
