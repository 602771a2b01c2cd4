import Staging.Code.Stub
import Staging.Heap.Error

/-!
# Errors of a task
-/

namespace Staging

/-- Why a task refuses a request. -/
inductive Task.Error where
  /-- The target leaves the address space. -/
  | outOfRange (target size : Nat)
  /-- The target intersects that of a registered chunk. -/
  | overlap (target size : Nat)
  /-- No source or no target was found. -/
  | outOfMemory
  /-- The firmware refused a piece of a placement. -/
  | reservationRefused (piece : Extent)
  /-- The chunk has no byte. -/
  | invalidSize
  /-- The alignment is not a power of two. -/
  | invalidAlignment (align : Nat)
  /-- The generator of the relocation code failed. -/
  | code (cause : Code.Error)
  /-- The heap failed. -/
  | heap (cause : Heap.Error)
deriving DecidableEq

/-- The text of an error; a failure of the generator or the heap speaks for itself. -/
def Task.Error.message : Task.Error → String
  | .outOfRange target size =>
      s!"Chunk at {Hex.wide target} with size {Hex.short size} leaves the address space"
  | .overlap target size =>
      s!"Chunk at {Hex.wide target} with size {Hex.short size} overlaps a registered chunk"
  | .outOfMemory => "No memory left for the requested placement"
  | .reservationRefused piece => s!"Firmware refused to reserve {piece.text}"
  | .invalidSize => "Chunks must not be empty"
  | .invalidAlignment align => s!"Alignment {Hex.short align} is not a power of two"
  | .code cause => cause.message
  | .heap cause => cause.message

end Staging
