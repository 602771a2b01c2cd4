import Staging.Heap.Region

/-!
# Loans

The source of a chunk is borrowed memory.  Each piece of it is a loan, which says who lent it and
holds enough to give it back exactly.
-/

namespace Staging

/-- Who lent a piece of memory. -/
inductive Lender where
  /-- A free span of the body of a region. -/
  | regionBody (region : RegionId)
  /-- The start of a region, whose header advanced over the piece. -/
  | regionHead (region : RegionId) (move : HeaderMove)
  /-- The firmware. -/
  | firmware
deriving DecidableEq, Repr

/-- A move of a header as it is written in messages. -/
def HeaderMove.text (m : HeaderMove) : String :=
  s!"HeadMove \x7b old_base: {m.oldBase}, old_head: {m.oldHead}, " ++
    s!"new_base: {m.newBase}, new_head: {m.newHead} \x7d"

/-- A lender as it is written in messages. -/
def Lender.text : Lender → String
  | regionBody region => s!"InRegionBody \x7b region: {region.text} \x7d"
  | regionHead region move =>
      s!"AtRegionHead \x7b region: {region.text}, head: {move.text} \x7d"
  | firmware => "InFirmwareBlock"

/-- A piece of borrowed memory. -/
structure Loan where
  lender : Lender
  extent : Extent
deriving DecidableEq

/-- All that was taken from the lender.  A header leaves behind everything between the old base and
the new one, which is more than the piece if the piece begins above the old base. -/
def Loan.claimed (loan : Loan) : Extent :=
  match loan.lender with
  | .regionHead _ move => (Extent.ofBounds? move.oldBase move.newBase).getD loan.extent
  | _ => loan.extent

end Staging
