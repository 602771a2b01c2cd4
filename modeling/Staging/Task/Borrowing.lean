import Staging.Sweep.Division
import Staging.Task.Basic

/-!
# Borrowing pieces

The pieces of a placement are borrowed from the highest address down.  If one of them cannot be
borrowed, the loans so far are given back, newest first, and the books are as before.
-/

namespace Staging.Task

variable {φ : Type}

/-- Borrow one piece from its owner. -/
def borrow (fw : Firmware φ) (piece : Piece) : Action φ (Except Error Loan) := do
  match piece.owner with
  | .regionBody id =>
      match ← onHeap (·.handOut id piece.extent) with
      | .error cause => return .error (.heap cause)
      | .ok _ => return .ok ⟨.regionBody id, piece.extent⟩
  | .regionHead id =>
      match ← onHeap (·.advance id piece.extent) with
      | .error cause => return .error (.heap cause)
      | .ok move => return .ok ⟨.regionHead id move, piece.extent⟩
  | .firmware =>
      if ← call (fw.reserve piece.extent) then
        update fun task => { task with blocks := task.blocks ++ [piece.extent] }
        return .ok ⟨.firmware, piece.extent⟩
      else
        return .error (.reservationRefused piece.extent)

/-- Give a loan back to its lender. -/
def giveBack (fw : Firmware φ) (loan : Loan) : Action φ (Except Heap.Error Unit) := do
  match loan.lender with
  | .regionBody id => onHeap (·.takeBack id loan.extent)
  | .regionHead id move => onHeap (·.retreat id move loan.extent)
  | .firmware =>
      call (fw.release loan.extent)
      update fun task => { task with blocks := task.blocks.erase loan.extent }
      return .ok ()

/-- Give back loans in their order, and say which of them cannot be. -/
def giveBackAll (fw : Firmware φ) (failed : Extent → Heap.Error → Notice) (loans : List Loan) :
    Action φ Unit :=
  loans.forM fun loan => do
    match ← giveBack fw loan with
    | .ok () => pure ()
    | .error cause => note (failed loan.extent cause)

/-- Borrow pieces in their order, in front of the loans so far; all or none. -/
def borrowEach (fw : Firmware φ) : List Piece → List Loan → Action φ (Except Error (List Loan))
  | [], loans => return .ok loans
  | piece :: rest, loans => do
      match ← borrow fw piece with
      | .ok loan =>
          note (.committed loan)
          borrowEach fw rest (loan :: loans)
      | .error cause =>
          giveBackAll fw .rollbackFailed loans
          return .error cause

/-- Borrow the pieces of a placement; the loans come in address order. -/
def borrowAll (fw : Firmware φ) (pieces : List Piece) : Action φ (Except Error (List Loan)) :=
  borrowEach fw pieces.reverse []

end Staging.Task
