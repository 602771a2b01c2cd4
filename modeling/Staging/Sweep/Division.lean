import Staging.Fault
import Staging.Heap.Region
import Staging.Sweep.Depth

/-!
# Dividing a placement

A placement that a search found is divided into pieces by the owners of its memory.  The gaps
between neighbouring events are given to their owners in ascending order, and touching gaps of one
owner become one piece.
-/

namespace Staging

/-- Who owns a piece of a placement. -/
inductive Owner where
  /-- The start of a region, to be lent by moving its header. -/
  | regionHead (region : RegionId)
  /-- A free span of the body of a region. -/
  | regionBody (region : RegionId)
  /-- The firmware. -/
  | firmware
deriving DecidableEq, Repr

/-- A part of a placement with one owner. -/
structure Piece where
  extent : Extent
  owner : Owner
deriving DecidableEq

namespace Piece

/-- Whether a piece of the second owner continues one of the first.  A header moves over all
memory up to the end of its piece, the body behind the header included. -/
def continues : Owner → Owner → Bool
  | .regionHead a, .regionBody b => a == b
  | a, b => a == b

/-- The pieces with one more behind them, joined to the last if it continues it. -/
def append (pieces : List Piece) (piece : Piece) : List Piece :=
  match pieces.getLast? with
  | none => [piece]
  | some last =>
      if h : last.extent.stop = piece.extent.start ∧ continues last.owner piece.owner then
        pieces.dropLast ++ [{ last with extent := last.extent.join piece.extent h.1 }]
      else
        pieces ++ [piece]

end Piece

/-- What a division knows between two events: the depths, and the regions whose head room and
whose free span are open. -/
structure Cursor where
  depth : Depth := {}
  head : Option Nat := none
  body : Option Nat := none
deriving DecidableEq

namespace Cursor

/-- The open region of one kind after an event of that kind. -/
def track (current : Option Nat) (e : Event) : Option Nat :=
  match e.edge, e.region with
  | _, none => current
  | .start, some region => some region
  | .stop, some region => if current = some region then none else current

/-- Pass one event. -/
def pass (c : Cursor) (e : Event) : Cursor where
  depth := c.depth.pass e .ascending
  head := if e.kind = .regionHead then track c.head e else c.head
  body := if e.kind = .regionBody then track c.body e else c.body

/-- The owner of a gap, if it is usable.  Of the head room of a region, the part before the body
is taken by moving the header and the rest out of the body. -/
def owner? (c : Cursor) (regions : List Region) (gap : Extent) : Option Owner :=
  if 0 < c.depth.collision then
    none
  else if 0 < c.depth.regionHead then
    (c.head.bind (regions[·]?)).map fun region =>
      if gap.start < region.bodyBase then .regionHead region.id else .regionBody region.id
  else if 0 < c.depth.regionBody then
    (c.body.bind (regions[·]?)).map fun region => .regionBody region.id
  else if c.depth.lendsFirmware then
    some .firmware
  else
    none

/-- The pieces of `target` behind those gathered so far, up to the first gap without an owner;
that gap comes with them. -/
def gather (regions : List Region) (target : Extent) :
    Cursor → List Piece → List Event → List Piece × Option Extent
  | _, pieces, [] => (pieces, none)
  | _, pieces, [_] => (pieces, none)
  | c, pieces, e :: next :: rest =>
      let c := c.pass e
      if target.stop ≤ e.position then
        (pieces, none)
      else
        let gap := Extent.ofBounds? (max e.position target.start) (min next.position target.stop)
        match gap.filter (!·.isEmpty) with
        | none => gather regions target c pieces (next :: rest)
        | some gap =>
            match c.owner? regions gap with
            | none => (pieces, some gap)
            | some owner =>
                gather regions target c (Piece.append pieces ⟨gap, owner⟩) (next :: rest)

end Cursor

/-- The pieces of a placement, and how its division ended. -/
structure Division where
  pieces : List Piece
  outcome : Except (Fault Heap.Error) Unit

namespace Division

/-- The error that names the memory that is not usable. -/
def refuse (extent : Extent) : Except (Fault Heap.Error) Unit :=
  .error (.error (.inconsistent extent))

/-- Divide `target` along ordered events.  The pieces must begin where the target does and have
its length; those gathered before a failure are kept. -/
def ofEvents (regions : List Region) (target : Extent) (events : List Event) : Division :=
  match Cursor.gather regions target {} [] events with
  | (pieces, some gap) => ⟨pieces, refuse gap⟩
  | (pieces, none) =>
      let covered := Extent.total (pieces.map (·.extent))
      if Address.limit ≤ covered then
        ⟨pieces, .error (.trap .addOverflow)⟩
      else if covered = target.length ∧
          pieces.head?.any fun piece => piece.extent.start == target.start then
        ⟨pieces, .ok ()⟩
      else
        ⟨pieces, refuse target⟩

end Division

end Staging
