import Staging.Proofs.Heap.Offers
import Staging.Proofs.Sweep.Division
import Staging.Proofs.Sweep.Order
import Staging.Proofs.Sweep.Search
import Staging.Sweep.Basic

/-!
# A sweep as a whole

The intervals of a heap mask all its regions (`mem_intervals_of_region`), and a head room among
them begins at the base of its region (`regionHead_of_mem_intervals`).  A search and a division
that follow each other on one sweep find a placement whose every byte can be borrowed and the
pieces of it (`Sweep.find_spec`, `Sweep.divide_spec`).
-/

namespace Staging

theorem Heap.mem_intervals_iff {heap : Heap} {i : Interval} :
    i ∈ heap.intervals ↔
      ∃ index, ∃ r : Region, heap.regions[index]? = some r ∧ i ∈ r.intervals index := by
  simp only [Heap.intervals, List.mem_flatMap, Prod.exists, List.mem_zipIdx_iff_getElem?]
  exact ⟨fun ⟨r, index, hr, hi⟩ => ⟨index, r, hr, hi⟩, fun ⟨index, r, hr, hi⟩ => ⟨r, index, hr, hi⟩⟩

/-- Every region is masked. -/
theorem Heap.mem_intervals_of_region {heap : Heap} {r : Region} (hr : r ∈ heap.regions) :
    ∃ i ∈ heap.intervals, i.kind = .firmwareBlock ∧ i.extent = r.extent := by
  obtain ⟨index, hindex⟩ := List.getElem?_of_mem hr
  exact ⟨⟨.firmwareBlock, r.extent, some index⟩, Heap.mem_intervals_iff.2 ⟨index, r, hindex,
    Region.mem_intervals_iff.2 ⟨rfl, .inl ⟨rfl, rfl⟩⟩⟩, rfl, rfl⟩

/-- Every offer of a region is among the intervals. -/
theorem Heap.mem_intervals_of_offers {heap : Heap} {r : Region} {kind : IntervalKind} {e : Extent}
    (hr : r ∈ heap.regions) (h : r.Offers kind e) :
    ∃ i ∈ heap.intervals, i.kind = kind ∧ i.extent = e := by
  obtain ⟨index, hindex⟩ := List.getElem?_of_mem hr
  exact ⟨⟨kind, e, some index⟩, Heap.mem_intervals_iff.2 ⟨index, r, hindex,
    Region.mem_intervals_iff.2 ⟨rfl, .inr h⟩⟩, rfl, rfl⟩

/-- A head room begins at the base of its region. -/
theorem Heap.regionHead_of_mem_intervals {heap : Heap} {i : Interval} {index : Nat} {r : Region}
    (hi : i ∈ heap.intervals) (hkind : i.kind = .regionHead) (hindex : i.region = some index)
    (hr : heap.regions[index]? = some r) : i.extent.start = r.base := by
  obtain ⟨index', r', hr', hi⟩ := Heap.mem_intervals_iff.1 hi
  obtain ⟨hindex', ⟨hmask, -⟩ | hoffer⟩ := Region.mem_intervals_iff.1 hi
  · cases hkind.symm.trans hmask
  · cases hindex.symm.trans hindex'
    cases hr.symm.trans hr'
    rw [hkind] at hoffer
    generalize i.extent = room at hoffer ⊢
    cases hoffer with
    | head hroom => exact (Region.headRoom_spec hroom).1

namespace Sweep

/-- The sweep over intervals, with its events in order. -/
def ofIntervals (intervals : List Interval) : Sweep :=
  { events := Event.ordered (intervals.flatMap (·.events)) }

/-- This is what sorting the gathered intervals leaves. -/
theorem sort_add (intervals : List Interval) :
    (({} : Sweep).add intervals).sort = .ok (ofIntervals intervals) := by
  rw [sort, Event.sort_eq]
  rfl

theorem events_ofIntervals (intervals : List Interval) :
    (ofIntervals intervals).events.Perm (intervals.flatMap (·.events)) ∧
      (ofIntervals intervals).events.Pairwise fun a b => a.position ≤ b.position := by
  have hposition : ∀ e ∈ intervals.flatMap (·.events), e.position < Address.limit := by
    intro e he
    obtain ⟨i, -, he⟩ := List.mem_flatMap.1 he
    have := i.extent.stop_lt
    have := i.extent.start_le_stop
    obtain ⟨-, rfl | rfl⟩ := Interval.mem_events_iff.1 he <;> dsimp only <;> omega
  refine ⟨Event.perm_ordered _, ?_⟩
  have hany : (intervals.flatMap (·.events)).Pairwise fun _ _ => True :=
    List.pairwise_of_forall fun _ _ => trivial
  exact (Event.pairwise_ordered hany hposition).imp fun h => by omega

variable {intervals : List Interval}

/-- What a sweep finds has the size of the request, lies inside the window, and can be borrowed
byte by byte. -/
theorem find_spec {r : Request} {e : Extent} (h : (ofIntervals intervals).find r = .ok (some e)) :
    r.window.start ≤ e.start ∧ 1 ≤ e.start ∧ e.stop ≤ r.window.stop ∧
      e.stop = e.start + r.size ∧ 0 < r.size ∧ ∀ x ∈ e, Usable intervals x :=
  Request.find_spec (events_ofIntervals intervals).1 (events_ofIntervals intervals).2 h

/-- The pieces of a sweep tile the target, and are borne out by the intervals. -/
theorem divide_spec {regions : List Region} {target : Extent} {s : Sweep}
    (h : (ofIntervals intervals).divide regions target = (.ok (), s)) :
    Extent.Tile target.start target.stop (s.pieces.map (·.extent)) ∧
      ∀ p ∈ s.pieces, p.Rightful regions intervals := by
  obtain ⟨hperm, hsorted⟩ := events_ofIntervals intervals
  generalize ofIntervals intervals = gathered at h hperm hsorted
  obtain ⟨houtcome, rfl⟩ := Prod.ext_iff.1 h
  exact Division.ofEvents_spec hperm hsorted (congrArg (Division.mk _) houtcome)

end Sweep

end Staging
