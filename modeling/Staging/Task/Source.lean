import Staging.Sweep.Basic
import Staging.Task.Borrowing

/-!
# Finding a source

The source of a chunk is searched in a window and borrowed.  When the firmware refuses a piece, the
search goes on in what the window has behind it, so every further attempt has a smaller window.
-/

namespace Staging

namespace Request

/-- What the window has behind a refused piece, along the heading of the sweep. -/
def beyond? (r : Request) (refused : Extent) : Option Extent :=
  match r.heading with
  | .ascending => Extent.ofBounds? (max refused.stop r.window.start) r.window.stop
  | .descending => Extent.ofBounds? r.window.start (min refused.start r.window.stop)

/-- The request for the next attempt, if its window is another one and has room. -/
def retry? (r : Request) (refused : Extent) : Option Request :=
  (r.beyond? refused).bind fun window =>
    if window ≠ r.window ∧ r.size ≤ window.length then some { r with window } else none

theorem covers_of_beyond? {r : Request} {refused w : Extent} (h : r.beyond? refused = some w) :
    r.window.start ≤ w.start ∧ w.stop ≤ r.window.stop := by
  unfold beyond? at h
  split at h <;> obtain ⟨hstart, hstop⟩ := Extent.ofBounds?_eq_some h <;> omega

theorem length_lt_of_retry? {r next : Request} {refused : Extent}
    (h : r.retry? refused = some next) : next.window.length < r.window.length := by
  obtain ⟨w, hw, h⟩ := Option.bind_eq_some_iff.1 h
  have hc := covers_of_beyond? hw
  split at h
  case isFalse => contradiction
  case isTrue hne =>
    cases h
    have hw := w.start_le_stop
    have hr := r.window.start_le_stop
    have : ¬ (w.start = r.window.start ∧ w.stop = r.window.stop) := fun he =>
      hne.1 (Extent.ext he.1 he.2)
    simp only [Extent.length]
    omega

end Request

/-- The first placement of a request in a frozen heap among other intervals, and its pieces. -/
def Heap.search (frozen : Heap) (intervals : List Interval) (request : Request) :
    Except (Fault Heap.Error) (Option (Extent × List Piece)) :=
  match (({} : Sweep).add (intervals ++ frozen.intervals)).sort with
  | .error cause => .error (.trap cause)
  | .ok sweep =>
      match sweep.find request with
      | .error cause => .error (.trap cause)
      | .ok none => .ok none
      | .ok (some extent) =>
          match sweep.divide frozen.regions extent with
          | (.ok (), divided) => .ok (some (extent, divided.pieces))
          | (.error cause, _) => .error cause

namespace Task

/-- A source that was borrowed, and its loans in address order. -/
structure Source where
  extent : Extent
  loans : List Loan
deriving DecidableEq

/-- How one attempt to borrow a source ends. -/
inductive Attempt where
  /-- Nothing fits. -/
  | exhausted
  /-- The firmware refused a piece of the placement. -/
  | refused (piece : Extent)
  | borrowed (source : Source)
deriving DecidableEq

/-- The intervals of a search that do not come from the heap: what the firmware lists, the blocks
it lent, and for each chunk its target and all that its loans took. -/
def intervals (task : Task) (listing : List Extent) : List Interval :=
  listing.map (⟨.firmwareAvailable, ·, none⟩) ++
    task.blocks.map (⟨.firmwareBlock, ·, none⟩) ++
    task.chunks.flatMap fun chunk =>
      ⟨.collision, chunk.target, none⟩ ::
        chunk.loans.map fun loan => ⟨.firmwareBlock, loan.claimed, none⟩

/-- Number of extents in the books that a search masks or avoids. -/
def extentCount (task : Task) : Nat :=
  task.blocks.length + task.chunks.length + (task.chunks.flatMap (·.loans)).length

variable {φ : Type}

/-- The intervals of a search, with the present listing of the firmware.  There must be room for the
events that the firmware announces, and for those that are gathered together with the heap. -/
def collect (fw : Firmware φ) : Action φ (List Interval) := do
  let task ← books
  let announced := fw.eventCapacity (← get).firmware
  let capacity ← orTrap (Address.add announced (2 * task.extentCount))
  orTrap (({} : Sweep).reserve capacity)
  let listing ← call fw.available
  task.blocks.forM fun block => note (.blockInUse block)
  let intervals := task.intervals listing
  let _ ← orTrap ((({} : Sweep).add intervals).prepareFor task.heap)
  return intervals

/-- Search the heap while it is frozen. -/
def search (intervals : List Interval) (request : Request) :
    Action φ (Option (Extent × List Piece)) := do
  let task ← books
  let frozen ← orTrap task.heap.freeze
  let found := frozen.search intervals request
  update fun task => { task with heap := frozen.thaw }
  match found with
  | .ok placement => return placement
  | .error cause => throw (cause.map .heap)

/-- Search a placement and borrow it. -/
def attempt (fw : Firmware φ) (request : Request) : Action φ Attempt := do
  note (.searching request)
  let intervals ← collect fw
  match ← search intervals request with
  | none => return .exhausted
  | some (extent, pieces) =>
      match ← borrowAll fw pieces with
      | .ok loans =>
          note (.allocated extent)
          return .borrowed ⟨extent, loans⟩
      | .error (.reservationRefused piece) => return .refused piece
      | .error cause => refuse cause

/-- Borrow a source, past the pieces that the firmware refuses; `none` if nothing fits. -/
def borrowSource (fw : Firmware φ) (request : Request) : Action φ (Option Source) := do
  match ← attempt fw request with
  | .exhausted => return none
  | .borrowed source => return some source
  | .refused piece =>
      note (.refused piece)
      match _h : request.retry? piece with
      | none => return none
      | some next => borrowSource fw next
termination_by request.window.length
decreasing_by exact Request.length_lt_of_retry? _h

end Task

end Staging
