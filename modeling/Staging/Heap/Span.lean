import Staging.Extent
import Staging.Index

/-!
# Spans

The body of a heap region is a list of spans in address order, each free or allocated.  An
allocation is carved out of a free span; a span that becomes free is merged with the free spans
that touch it.
-/

namespace Staging

/-- Whether a span can be handed out. -/
inductive SpanState where
  | free
  | allocated
deriving DecidableEq, Repr

/-- A part of the body of a region. -/
structure Span where
  extent : Extent
  state : SpanState
deriving DecidableEq

namespace Span

/-- A free span. -/
def free (extent : Extent) : Span := ⟨extent, .free⟩

/-- A span that is handed out. -/
def allocated (extent : Extent) : Span := ⟨extent, .allocated⟩

/-- Lowest address of the span. -/
def start (s : Span) : Nat := s.extent.start

/-- First address behind the span. -/
def stop (s : Span) : Nat := s.extent.stop

/-- Whether the span can be handed out. -/
def isFree (s : Span) : Bool := s.state == .free

/-- The free span between two bounds; none if it had no byte. -/
def freeBetween (start stop : Nat) : List Span :=
  match (Extent.ofBounds? start stop).filter (!·.isEmpty) with
  | some extent => [free extent]
  | none => []

/-- The spans that replace `s` when `piece`, a part of it, is handed out. -/
def carve (s : Span) (piece : Extent) : List Span :=
  freeBetween s.start piece.start ++ allocated piece :: freeBetween piece.stop s.stop

/-- The span with its stop moved up to `stop`. -/
def upTo (s : Span) (stop : Nat) : Span :=
  { s with extent := (Extent.ofBounds? s.start stop).getD s.extent }

/-- Merge the span at `index` with the free spans behind it that touch.  A round takes in one of
them, so there are at most as many rounds as spans. -/
def mergeBehind (index : Nat) : Nat → List Span → Except Trap (List Span)
  | 0, spans => .ok spans
  | rounds + 1, spans =>
      match spans[index + 1]? with
      | none => .ok spans
      | some next => do
          let s ← Index.read spans index
          if next.isFree && s.stop == next.start then
            let grown ← Index.write spans index (s.upTo next.stop)
            mergeBehind index rounds (← Index.remove grown (index + 1))
          else
            return spans

/-- Merge the span at `index` with the free span before it if they touch; returns its index. -/
def mergeBefore (index : Nat) (spans : List Span) : Except Trap (Nat × List Span) :=
  if index = 0 then
    return (index, spans)
  else do
    let before ← Address.sub index 1
    let last ← Index.read spans before
    let s ← Index.read spans index
    if last.isFree && last.stop == s.start then
      let grown ← Index.write spans before (last.upTo s.stop)
      return (before, ← Index.remove grown index)
    else
      return (index, spans)

/-- The spans with the free span at `index` merged with its free neighbours, and the index of the
merged span.  An index of no free span changes nothing. -/
def mergeAt (spans : List Span) (index : Nat) : Except Trap (Nat × List Span) :=
  match spans[index]? with
  | none => .ok (index, spans)
  | some s =>
      if s.isFree then do
        mergeBefore index (← mergeBehind index spans.length spans)
      else
        .ok (index, spans)

/-- Index of the first span that stops above `address`, if it contains the address. -/
def indexAt? (spans : List Span) (address : Nat) : Option Nat := do
  let index ← spans.findIdx? fun s => address < s.stop
  let s ← spans[index]?
  if s.extent.contains address then some index else none

/-- Number of bytes in free spans. -/
def freeBytes (spans : List Span) : Nat :=
  Extent.total ((spans.filter (·.isFree)).map (·.extent))

end Span

end Staging
