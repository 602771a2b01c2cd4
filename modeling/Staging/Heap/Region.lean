import Staging.Address
import Staging.Heap.Error
import Staging.Heap.Span

/-!
# Heap regions

A region is one contiguous extent that the heap owns.  Its header lies at the first aligned
address, and the spans of its body fill the rest:

    base     head            head + 32                          stop
     | pad    | header        | span | span | ...          span  |

The memory at the start of a region is lent by advancing the header over it; the move is recorded,
and from the record the header retreats again.
-/

namespace Staging

/-- Numbers of regions are below this number, which is `2 ^ 32`. -/
def RegionId.limit : Nat := 0x100000000

/-- Identity of a region, which it keeps when regions come before it. -/
@[ext]
structure RegionId where
  number : Nat
  number_lt : number < RegionId.limit
deriving DecidableEq, Repr

namespace RegionId

/-- The identity of the first region of a heap. -/
def first : RegionId := ⟨0, by decide⟩

/-- The identity behind this one.  There is none behind the last. -/
def next (id : RegionId) : Except Trap RegionId :=
  if h : id.number + 1 < limit then .ok ⟨id.number + 1, h⟩ else .error .addOverflow

/-- An identity as it is written in messages. -/
def text (id : RegionId) : String := s!"RegionId({id.number})"

end RegionId

/-- Record of a move of a header. -/
structure HeaderMove where
  oldBase : Nat
  oldHead : Nat
  newBase : Nat
  newHead : Nat
deriving DecidableEq, Repr

/-- Number of bytes of a header. -/
def Region.headerSize : Nat := 32

/-- Alignment of a header. -/
def Region.headerAlign : Nat := 16

/-- A region of the heap. -/
structure Region where
  id : RegionId
  /-- Lowest address that the region owns. -/
  base : Nat
  /-- Address of the header. -/
  head : Nat
  /-- First address behind the region. -/
  stop : Nat
  /-- The body in address order. -/
  spans : List Span
  bodyBase_lt : head + Region.headerSize < Address.limit
deriving DecidableEq

namespace Region

/-- A region over `extent` whose body is one free span. -/
def create (id : RegionId) (extent : Extent) : Except Heap.Error Region :=
  match Address.ceilTo? headerAlign extent.start with
  | none => .error (.regionTooSmall extent)
  | some head =>
      if h : head + headerSize ≤ extent.stop then
        .ok {
          id
          base := extent.start
          head
          stop := extent.stop
          spans := Span.freeBetween (head + headerSize) extent.stop
          bodyBase_lt := Nat.lt_of_le_of_lt h extent.stop_lt }
      else
        .error (.regionTooSmall extent)

/-- First address of the body. -/
def bodyBase (r : Region) : Nat := r.head + headerSize

/-- All that the region owns. -/
def extent (r : Region) : Extent := Extent.ofBoundsD r.base r.stop

/-- Number of bytes in free spans. -/
def freeBytes (r : Region) : Nat := Span.freeBytes r.spans

/-- The memory that the header can advance over.  It exists while the first span of the body is
free, and ends where the header still fits into that span. -/
def headRoom (r : Region) : Option Extent := do
  let first ← r.spans.head?
  if first.isFree && first.start == r.bodyBase then
    let limit ← Address.sub? first.stop headerSize
    let stop := Address.floorTo headerAlign limit
    if r.base < stop then Extent.ofBounds? r.base stop else none
  else
    none

/-- Index of the span that contains `address`. -/
def indexAt? (r : Region) (address : Nat) : Option Nat := Span.indexAt? r.spans address

/-- Hand out `piece` from the free span at `index`. -/
def handOut (r : Region) (index : Nat) (piece : Extent) : Outcome Heap.Error Region Span :=
  match r.spans[index]? with
  | none => .error (.inconsistent piece) r
  | some s =>
      if s.isFree && !piece.isEmpty && s.extent.covers piece then
        .orTrap (Index.splice r.spans index (s.carve piece)) r fun spans =>
          .ok (.allocated piece) { r with spans }
      else
        .error (.inconsistent piece) r

/-- Merge the free span at `index` with its free neighbours; returns its new index. -/
def coalesce (r : Region) (index : Nat) : Except Trap (Nat × Region) :=
  (Span.mergeAt r.spans index).map fun (index, spans) => (index, { r with spans })

/-- Take back `piece`, which must be exactly one allocated span. -/
def takeBack (r : Region) (piece : Extent) : Outcome Heap.Error Region Unit :=
  match r.indexAt? piece.start with
  | none => .error (.inconsistent piece) r
  | some index =>
      .orTrap (Index.read r.spans index) r fun s =>
        if s = .allocated piece then
          .orTrap (Index.write r.spans index (.free piece)) r fun spans =>
            let freed := { r with spans }
            .orTrap (freed.coalesce index) freed fun (_, merged) => .ok () merged
        else
          .error (.inconsistent piece) r

/-- Lend `[base, newBase)` by moving the header behind it.  The first span gives way to the
header, and goes if nothing is left of it. -/
def advance (r : Region) (newBase : Nat) : Outcome Heap.Error Region HeaderMove :=
  let refused := .error (.inconsistent (.ofBoundsD r.base newBase)) r
  match r.headRoom with
  | none => refused
  | some room =>
      if newBase ≤ room.start ∨ room.stop < newBase then
        refused
      else
        match Address.ceilTo? headerAlign newBase with
        | none => refused
        | some newHead =>
            if hword : newHead + headerSize < Address.limit then
              .orTrap (Index.read r.spans 0) r fun first =>
                match Extent.ofBounds? (newHead + headerSize) first.stop with
                | none => refused
                | some left =>
                    let kept :=
                      if left.isEmpty then Index.remove r.spans 0
                      else Index.write r.spans 0 { first with extent := left }
                    .orTrap kept r fun spans =>
                      .ok ⟨r.base, r.head, newBase, newHead⟩
                        { r with base := newBase, head := newHead, spans, bodyBase_lt := hword }
            else
              .trap .addOverflow r

/-- Undo a move of the header.  Only a move that led to the present base and head can be undone;
the memory between the two bodies becomes free. -/
def retreat (r : Region) (move : HeaderMove) : Outcome Heap.Error Region Unit :=
  let refused := .error (.inconsistent (.ofBoundsD move.oldBase move.newBase)) r
  if r.base = move.newBase ∧ r.head = move.newHead then
    let oldBody := move.oldHead + headerSize
    let newBody := move.newHead + headerSize
    if hwords : oldBody < Address.limit ∧ newBody < Address.limit then
      match Extent.ofBounds? oldBody newBody with
      | none => refused
      | some reclaimed =>
          let moved :=
            { r with base := move.oldBase, head := move.oldHead, bodyBase_lt := hwords.1 }
          if reclaimed.isEmpty then
            -- The header stood at the same place before the move.
            .ok () moved
          else
            let freed := { moved with spans := .free reclaimed :: r.spans }
            .orTrap (freed.coalesce 0) freed fun (_, merged) => .ok () merged
    else
      .trap .addOverflow r
  else
    refused

/-- Where `size` bytes at a multiple of `align` fit first: the index of the span and the piece. -/
def firstFit? (r : Region) (size align : Nat) : Option (Nat × Extent) :=
  r.spans.zipIdx.findSome? fun (s, index) => do
    if s.isFree then
      let start ← Address.ceilTo? align s.start
      let piece ← Extent.ofLength? start size
      if s.extent.covers piece then some (index, piece) else none
    else
      none

/-- Allocate `size` bytes at the first multiple of `align` where they fit. -/
def allocate (r : Region) (size align : Nat) : Outcome Heap.Error Region Nat :=
  match r.firstFit? size align with
  | none => .error .outOfMemory r
  | some (index, piece) =>
      match r.handOut index piece with
      | .ok s allocated => .ok s.start allocated
      | .error _ left => .error .outOfMemory left
      | .trap cause left => .trap cause left

/-- Take back the allocation that starts at `address`. -/
def deallocate (r : Region) (address : Nat) : Outcome Heap.Error Region Unit :=
  match r.indexAt? address with
  | none => .error (.unknownAllocation address) r
  | some index =>
      .orTrap (Index.read r.spans index) r fun s =>
        if !s.isFree && s.start == address then
          r.takeBack s.extent
        else
          .error (.unknownAllocation address) r

end Region

end Staging
