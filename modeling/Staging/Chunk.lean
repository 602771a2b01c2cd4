import Staging.Code.Stub
import Staging.Fault
import Staging.Loan

/-!
# Chunks

A chunk is loaded at its source and moved to its target right before control is handed over.
-/

namespace Staging

/-- A source, the loans that it consists of in address order, and a target of the same length. -/
structure Chunk where
  source : Extent
  target : Extent
  loans : List Loan
deriving DecidableEq

namespace Chunk

/-- A chunk whose target has the length of its source, and whose loans have it together. -/
def assemble (source target : Extent) (loans : List Loan) : Except Trap Chunk :=
  let borrowed := Extent.total (loans.map (·.extent))
  if source.length ≠ target.length then
    .error (.unevenChunk source.length target.length)
  else if Address.limit ≤ borrowed then
    .error .addOverflow
  else if borrowed ≠ source.length then
    .error (.unevenChunk source.length borrowed)
  else
    .ok ⟨source, target, loans⟩

/-- Number of bytes to move. -/
def size (c : Chunk) : Nat := c.source.length

/-- The direction of the copy; none if the chunk is in place. -/
def direction (c : Chunk) : Option CopyDirection :=
  CopyDirection.between c.source.start c.target.start

end Chunk

end Staging
