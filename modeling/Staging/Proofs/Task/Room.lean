import Mathlib.Algebra.GroupWithZero.Nat
import Staging.Proofs.Task.Action
import Staging.Task.Source

/-!
# Room for the events of a search

A search makes room for its events twice: for those that the firmware announces, and, when it has
listed its memory, for all that are gathered.  It traps if one of these buffers has too many bytes,
and else (`HasRoom`) it collects what is listed (`collect_of_room`).

Two firmwares that list the same memory in different ways may announce different numbers.  If they
fit at the same points (`SameRoom`), both searches trap at the same point or both collect
(`collect_alike`).
-/

namespace Staging

/-- Number of events for which a heap asks room: two for each region and for each span. -/
def Heap.eventCount (heap : Heap) : Nat :=
  (heap.regions.map fun r => 2 + 2 * r.spans.length).sum

theorem foldlM_add {n : Nat} (hn : n < Address.limit) (sizes : List Nat) :
    sizes.foldlM Address.add n =
      if n + sizes.sum < Address.limit then .ok (n + sizes.sum) else .error .addOverflow := by
  induction sizes generalizing n with
  | nil => exact (if_pos hn).symm
  | cons size rest ih =>
      rw [List.foldlM_cons, List.sum_cons, ← Nat.add_assoc, Address.add]
      split
      case isTrue hsum => exact ih hsum
      case isFalse hsum =>
        rw [if_neg fun hfits => hsum (Nat.lt_of_le_of_lt (Nat.le_add_right _ _) hfits)]
        rfl

/-- Room is made for the events of a heap behind those that are there. -/
theorem Sweep.prepareFor_eq (sweep : Sweep) (heap : Heap) :
    sweep.prepareFor heap =
      if heap.eventCount < Address.limit then
        if eventSize * (sweep.events.length + heap.eventCount) < bufferLimit then
          .ok { sweep with pieces := [] }
        else .error .capacityOverflow
      else .error .addOverflow := by
  have hcount : heap.regions.foldlM (fun n r => Address.add n (2 + 2 * r.spans.length)) 0 =
      if heap.eventCount < Address.limit then .ok heap.eventCount else .error .addOverflow := by
    rw [← @List.foldlM_map _ _ _ _ _ fun r : Region => 2 + 2 * r.spans.length,
      foldlM_add (by decide), Nat.zero_add]
    rfl
  unfold prepareFor
  rw [hcount]
  split
  case isTrue =>
    rw [ok_bind, reserve]
    split <;> rfl
  case isFalse => rfl

namespace Task

variable {φ : Type} {fw fw' : Firmware φ} {s : Running φ}

/-- Number of events for which the firmware and the books ask room. -/
def announced (fw : Firmware φ) (task : Task) (state : φ) : Nat :=
  fw.eventCapacity state + 2 * task.extentCount

/-- Number of events that are gathered with the present listing, and for which the heap asks. -/
def gathered (fw : Firmware φ) (task : Task) (state : φ) : Nat :=
  ((task.intervals (fw.available state).value).flatMap (·.events)).length + task.heap.eventCount

/-- The buffers of the next search have room for its events. -/
structure HasRoom (fw : Firmware φ) (task : Task) (state : φ) : Prop where
  announced : Sweep.eventSize * task.announced fw state < Sweep.bufferLimit
  gathered : Sweep.eventSize * task.gathered fw state < Sweep.bufferLimit

theorem HasRoom.congr {task task' : Task} {state state' : φ} (h : HasRoom fw task state)
    (hdemands : task'.announced fw state' = task.announced fw state ∧
      task'.gathered fw state' = task.gathered fw state) : HasRoom fw task' state' :=
  ⟨hdemands.1 ▸ h.announced, hdemands.2 ▸ h.gathered⟩

/-- The state behind the listing of the firmware and the notices of a search. -/
def Running.listed (s : Running φ) (fw : Firmware φ) : Running φ where
  task := s.task
  firmware := (fw.available s.firmware).state
  notices := s.task.blocks.foldl (fun notices block => notices.push (.blockInUse block))
    (s.notices.appendList (fw.available s.firmware).notices)

/-- **What is collected**, and where a buffer has no room. -/
theorem collect_eq (fw : Firmware φ) (s : Running φ) :
    collect fw s =
      if s.task.announced fw s.firmware < Address.limit then
        if Sweep.eventSize * s.task.announced fw s.firmware < Sweep.bufferLimit then
          if s.task.heap.eventCount < Address.limit then
            if Sweep.eventSize * s.task.gathered fw s.firmware < Sweep.bufferLimit then
              .ok (s.task.intervals (fw.available s.firmware).value) (s.listed fw)
            else .error (.trap .capacityOverflow) (s.listed fw)
          else .error (.trap .addOverflow) (s.listed fw)
        else .error (.trap .capacityOverflow) s
      else .error (.trap .addOverflow) s := by
  unfold collect
  rw [bind_of_ok (books_eq s)]
  refine (bind_of_ok rfl _).trans ?_
  rw [Address.add, ← announced]
  split
  case isFalse => rfl
  case isTrue =>
    refine (bind_of_ok rfl _).trans ?_
    rw [Sweep.reserve, List.length_nil, Nat.zero_add]
    split
    case isFalse => rfl
    case isTrue =>
      refine (bind_of_ok rfl _).trans ((bind_of_ok rfl _).trans ?_)
      refine (bind_of_ok (notes_eq _ _) _).trans ?_
      dsimp only
      rw [Sweep.prepareFor_eq, Sweep.add, List.nil_append, ← gathered]
      split
      case isFalse => rfl
      case isTrue => split <;> rfl

/-- The sum of the events of the heap is a word if their bytes fit into a buffer. -/
theorem HasRoom.countable {task : Task} {state : φ} (h : HasRoom fw task state) :
    task.announced fw state < Address.limit ∧ task.heap.eventCount < Address.limit := by
  obtain ⟨hannounced, hgathered⟩ := h
  have hpart : task.heap.eventCount ≤ task.gathered fw state := Nat.le_add_left _ _
  simp only [Sweep.eventSize, Sweep.bufferLimit, Address.limit] at *
  omega

theorem collect_of_room (h : HasRoom fw s.task s.firmware) :
    collect fw s = .ok (s.task.intervals (fw.available s.firmware).value) (s.listed fw) := by
  rw [collect_eq, if_pos h.countable.1, if_pos h.announced, if_pos h.countable.2,
    if_pos h.gathered]

/-! ### Two firmwares -/

/-- The numbers of events of the next search fit for both firmwares or for neither. -/
structure SameRoom (fw' fw : Firmware φ) (task : Task) (state : φ) : Prop where
  counted : task.announced fw' state < Address.limit ↔ task.announced fw state < Address.limit
  announced : Sweep.eventSize * task.announced fw' state < Sweep.bufferLimit ↔
    Sweep.eventSize * task.announced fw state < Sweep.bufferLimit
  gathered : Sweep.eventSize * task.gathered fw' state < Sweep.bufferLimit ↔
    Sweep.eventSize * task.gathered fw state < Sweep.bufferLimit

/-- The same room is made where as much is asked for. -/
theorem SameRoom.congr {task task' : Task} {state state' : φ} (h : SameRoom fw' fw task state)
    (hdemands' : task'.announced fw' state' = task.announced fw' state ∧
      task'.gathered fw' state' = task.gathered fw' state)
    (hdemands : task'.announced fw state' = task.announced fw state ∧
      task'.gathered fw state' = task.gathered fw state) : SameRoom fw' fw task' state' := by
  obtain ⟨hcounted, hannounced, hgathered⟩ := h
  constructor
  · rwa [hdemands'.1, hdemands.1]
  · rwa [hdemands'.1, hdemands.1]
  · rwa [hdemands'.2, hdemands.2]

/-- What is collected with both firmwares is listed in one state, or they trap alike. -/
theorem collect_alike (hlisted : s.listed fw' = s.listed fw)
    (hroom : SameRoom fw' fw s.task s.firmware) :
    (∃ cause s', collect fw' s = .error (.trap cause) s' ∧
        collect fw s = .error (.trap cause) s') ∨
      collect fw' s =
          .ok (s.task.intervals (fw'.available s.firmware).value) (s.listed fw) ∧
        collect fw s =
          .ok (s.task.intervals (fw.available s.firmware).value) (s.listed fw) := by
  simp only [collect_eq, hroom.counted, hroom.announced, hroom.gathered, hlisted]
  split
  case isFalse => exact .inl ⟨_, _, rfl, rfl⟩
  case isTrue =>
    split
    case isFalse => exact .inl ⟨_, _, rfl, rfl⟩
    case isTrue =>
      split
      case isFalse => exact .inl ⟨_, _, rfl, rfl⟩
      case isTrue =>
        split
        case isFalse => exact .inl ⟨_, _, rfl, rfl⟩
        case isTrue => exact .inr ⟨rfl, rfl⟩

/-- What holds of the listing and of the state behind it holds after collecting. -/
theorem post_collect {Q : List Interval → Running φ → Prop} {R : Running φ → Prop}
    (h : Q (s.task.intervals (fw.available s.firmware).value) (s.listed fw)) :
    Post (collect fw) Q R s := by
  unfold Post
  rcases collect_alike rfl ⟨Iff.rfl, Iff.rfl, Iff.rfl⟩ with ⟨cause, s', -, hend⟩ | ⟨-, hend⟩
  · rw [hend]
    trivial
  · rw [hend]
    exact h

end Task

end Staging
