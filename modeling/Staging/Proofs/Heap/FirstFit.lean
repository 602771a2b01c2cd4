import Mathlib.Order.Bounds.Basic
import Staging.Proofs.Heap.History
import Staging.Proofs.Task.Reach

/-!
# First fit

A free span hosts an allocation at each multiple of the alignment at which it has room for it
(`Span.Hosts`).  Rounding up its start finds the least of them, or there is none (`fit?_eq_some`,
`fit?_eq_none`).  Spans lie in address order, and so do regions; hence what the first of them finds
is the least of all (`isLeast_of_first`), and first fit is lowest fit.

An allocation takes its piece out of one free span and leaves what the span has below and above it
free (`Region.Carved`); the deallocation that follows it restores the heap
(`Valid.deallocate_of_allocateIn`).  A deallocation succeeds just at the starts of the allocated
extents (`Valid.exists_deallocate_iff`).
-/

namespace Staging

/-- What the first one finds is the least of all, if nothing is found before it, and nothing lower
behind it. -/
theorem isLeast_of_first {α : Type} {P : α → Nat → Prop} {before after : List α} {x : α}
    {a : Nat} (h : IsLeast {b | P x b} a) (hbefore : ∀ y ∈ before, ∀ b, ¬ P y b)
    (hafter : ∀ y ∈ after, ∀ b, P y b → a ≤ b) :
    IsLeast {b | ∃ y ∈ before ++ x :: after, P y b} a := by
  refine ⟨⟨x, by simp, h.1⟩, ?_⟩
  rintro b ⟨y, hy, hb⟩
  rcases List.mem_append.1 hy with hy | hy
  · exact absurd hb (hbefore y hy b)
  · rcases List.mem_cons.1 hy with rfl | hy
    · exact h.2 hb
    · exact hafter y hy b hb

/-! ### Spans -/

namespace Span

/-- The span is free, and `size` bytes at `address`, a multiple of `align`, lie inside of it. -/
structure Hosts (s : Span) (size align address : Nat) : Prop where
  free : s.isFree = true
  aligned : align ∣ address
  start_le : s.start ≤ address
  le_stop : address + size ≤ s.stop

/-- Where `size` bytes at a multiple of `align` fit into the span first. -/
def fit? (s : Span) (size align : Nat) : Option Extent :=
  if s.isFree then do
    let start ← Address.ceilTo? align s.start
    let piece ← Extent.ofLength? start size
    if s.extent.covers piece then some piece else none
  else
    none

variable {s : Span} {size align : Nat}

/-- No multiple of the alignment above the start of a span is below the rounded start. -/
theorem Hosts.exists_ceilTo? {address : Nat} (halign : Address.isPowerOfTwo align = true)
    (hpos : 0 < s.start) (h : s.Hosts size align address) :
    ∃ start, Address.ceilTo? align s.start = some start ∧ start ≤ address := by
  have hlt : s.stop < Address.limit := s.extent.stop_lt
  have hstop := h.le_stop
  exact Address.exists_ceilTo?_le halign h.aligned (Nat.lt_of_lt_of_le hpos h.start_le)
    h.start_le (by omega)

/-- **Where an allocation fits first** into a span is the least address that the span hosts. -/
theorem fit?_eq_some {piece : Extent} (halign : Address.isPowerOfTwo align = true)
    (hpos : 0 < s.start) (h : s.fit? size align = some piece) :
    s.isFree = true ∧ s.extent.covers piece = true ∧ piece.length = size ∧
      IsLeast {b | s.Hosts size align b} piece.start := by
  unfold fit? at h
  split at h
  case isFalse => contradiction
  case isTrue hfree =>
    simp only [Option.bind_eq_bind, Option.bind_eq_some_iff] at h
    obtain ⟨start, hstart, p, hp, h⟩ := h
    split at h
    case isFalse => contradiction
    case isTrue hcovers =>
      cases h
      obtain ⟨hlo, hhi⟩ := Extent.ofLength?_eq_some_iff.1 hp
      obtain ⟨hle, hstop⟩ := Extent.covers_iff.1 hcovers
      have hdvd : align ∣ piece.start := hlo ▸ Address.dvd_of_ceilTo? halign hstart
      have hend : piece.start + size ≤ s.stop := by rwa [hlo, ← hhi]
      refine ⟨hfree, hcovers, ?_, ⟨hfree, hdvd, hle, hend⟩, fun b hb => ?_⟩
      · rw [Extent.length, hhi, hlo, Nat.add_sub_cancel_left]
      · obtain ⟨start', hstart', hleast⟩ := Hosts.exists_ceilTo? halign hpos hb
        cases hstart.symm.trans hstart'
        rwa [hlo]

/-- A span into which an allocation does not fit hosts it nowhere, also where a sum or the rounded
start would not be an address. -/
theorem fit?_eq_none (halign : Address.isPowerOfTwo align = true) (hpos : 0 < s.start)
    (h : s.fit? size align = none) (address : Nat) : ¬ s.Hosts size align address := by
  intro hhosts
  have hlt := s.extent.stop_lt
  have hend : address + size ≤ s.extent.stop := hhosts.le_stop
  obtain ⟨start, hstart, hle⟩ := hhosts.exists_ceilTo? halign hpos
  have hlo : s.extent.start ≤ start := Address.le_of_ceilTo? halign hstart
  have hpiece : Extent.ofLength? start size = some ⟨start, start + size, by omega, by omega⟩ :=
    Extent.ofBounds?_of_le _ _
  have hcovers : s.extent.covers ⟨start, start + size, by omega, by omega⟩ = true :=
    Extent.covers_iff.2 ⟨hlo, by dsimp only; omega⟩
  simp [fit?, hhosts.free, hstart, hpiece, hcovers] at h

/-- What is free between two addresses is one free span, or none if there is no byte between. -/
def Residue (start stop : Nat) (spans : List Span) : Prop :=
  (start = stop ∧ spans = []) ∨
    start < stop ∧ ∃ s, spans = [s] ∧ s.isFree = true ∧ s.start = start ∧ s.stop = stop

theorem residue_freeBetween {start stop : Nat} (hle : start ≤ stop) (hlt : stop < Address.limit) :
    Residue start stop (freeBetween start stop) := by
  rcases Nat.eq_or_lt_of_le hle with rfl | hne
  · exact .inl ⟨rfl, freeBetween_self start⟩
  · exact .inr ⟨hne, free ⟨start, stop, hle, hlt⟩, freeBetween_of_lt ⟨rfl, rfl⟩ hne, rfl, rfl, rfl⟩

end Span

/-! ### Regions -/

namespace Region

/-- A free span of the body hosts the allocation. -/
def Hosts (r : Region) (size align address : Nat) : Prop :=
  ∃ s ∈ r.spans, s.Hosts size align address

variable {r r' : Region} {size align : Nat}

theorem firstFit?_eq (r : Region) (size align : Nat) :
    r.firstFit? size align =
      r.spans.zipIdx.findSome? fun (s, index) => (s.fit? size align).map (index, ·) := by
  unfold firstFit?
  congr 1
  funext ⟨s, index⟩
  dsimp only [Span.fit?]
  split
  case isFalse => rfl
  case isTrue =>
    cases Address.ceilTo? align s.start with
    | none => rfl
    | some start =>
        cases hpiece : Extent.ofLength? start size with
        | none => simp [hpiece]
        | some piece =>
            by_cases hcovers : s.extent.covers piece = true <;> simp [hpiece, hcovers]

/-- The first span into which an allocation fits. -/
theorem firstFit?_eq_some {index : Nat} {piece : Extent}
    (h : r.firstFit? size align = some (index, piece)) :
    ∃ before s after, r.spans = before ++ s :: after ∧ before.length = index ∧
      s.fit? size align = some piece ∧ ∀ t ∈ before, t.fit? size align = none := by
  rw [firstFit?_eq, List.findSome?_eq_some_iff] at h
  obtain ⟨front, ⟨s, k⟩, back, hsplit, hfit, hfront⟩ := h
  obtain ⟨before, rest, hspans, rfl, hrest⟩ := List.zipIdx_eq_append_iff.1 hsplit
  cases rest with
  | nil => cases hrest
  | cons t after =>
      obtain ⟨hhead, -⟩ := List.cons.inj hrest
      obtain ⟨p, hp, hpair⟩ := Option.map_eq_some_iff.1 hfit
      cases hpair
      cases hhead
      refine ⟨before, s, after, hspans, (Nat.zero_add _).symm, hp, fun t ht => ?_⟩
      obtain ⟨i, hi⟩ := List.mem_iff_getElem?.1 ht
      simpa using hfront (t, i) (List.mk_mem_zipIdx_iff_getElem?.2 hi)

theorem firstFit?_eq_none (h : r.firstFit? size align = none) :
    ∀ s ∈ r.spans, s.fit? size align = none := by
  rw [firstFit?_eq, List.findSome?_eq_none_iff] at h
  intro s hs
  obtain ⟨i, hi⟩ := List.mem_iff_getElem?.1 hs
  simpa using h (s, i) (List.mk_mem_zipIdx_iff_getElem?.2 hi)

/-- A region hosts allocations in its body only, which begins above address zero. -/
theorem Valid.hosts_bounds (hr : r.Valid) {address : Nat} (h : r.Hosts size align address) :
    r.base ≤ address ∧ address + size ≤ r.stop := by
  obtain ⟨s, hs, hhosts⟩ := h
  have hspan := hr.tile.bounds s hs
  have hbounds := hr.bounds
  have hlo := hhosts.start_le
  have hhi := hhosts.le_stop
  omega

theorem Valid.start_pos (hr : r.Valid) {s : Span} (hs : s ∈ r.spans) : 0 < s.start := by
  have hspan := hr.tile.bounds s hs
  have hbounds := hr.bounds
  omega

/-- `piece`, a part of a free span, has become an allocated span of its own.  What that span had
below and above it is free as before, and nothing else has changed. -/
def Carved (r : Region) (piece : Extent) (r' : Region) : Prop :=
  ∃ before s after below above, r.spans = before ++ s :: after ∧ s.isFree = true ∧
    s.start ≤ piece.start ∧ piece.stop ≤ s.stop ∧
    Span.Residue s.start piece.start below ∧ Span.Residue piece.stop s.stop above ∧
    r' = { r with spans := before ++ below ++ ⟨piece, .allocated⟩ :: above ++ after }

/-- **What fits first** is at the lowest address that the region hosts, and can be handed out. -/
theorem Valid.handOut_of_firstFit? (hr : r.Valid) (halign : Address.isPowerOfTwo align = true)
    (hsize : 0 < size) {index : Nat} {piece : Extent}
    (h : r.firstFit? size align = some (index, piece)) :
    ∃ r', r.handOut index piece = .ok (.allocated piece) r' ∧ r.Carved piece r' ∧
      piece.length = size ∧ IsLeast {b | r.Hosts size align b} piece.start := by
  obtain ⟨before, s, after, hspans, rfl, hs, hbefore⟩ := firstFit?_eq_some h
  have hpos {t : Span} (ht : t ∈ before ++ s :: after) : 0 < t.start :=
    hr.start_pos (hspans ▸ ht)
  obtain ⟨hfree, hcovers, hlength, hleast⟩ := Span.fit?_eq_some halign (hpos (by simp)) hs
  have hne : piece.start < piece.stop := by
    simp only [Extent.length] at hlength
    omega
  have hlo : s.start ≤ piece.start := (Extent.covers_iff.1 hcovers).1
  have hhi : piece.stop ≤ s.stop := (Extent.covers_iff.1 hcovers).2
  have hlt : s.stop < Address.limit := s.extent.stop_lt
  refine ⟨_, handOut_of_spans hspans hfree hne hcovers,
    ⟨before, s, after, _, _, hspans, hfree, hlo, hhi,
      Span.residue_freeBetween hlo (by omega), Span.residue_freeBetween hhi hlt, ?_⟩,
    hlength, ?_⟩
  · simp [Span.carve, Span.allocated]
  -- Spans behind the one that was found lie above it.
  have hpairwise := hr.tile.pairwise
  rw [hspans] at hpairwise
  have habove := (List.pairwise_cons.1 (List.pairwise_append.1 hpairwise).2.1).1
  simp only [Hosts, hspans]
  refine isLeast_of_first hleast (fun t ht => ?_) fun t ht b hb => ?_
  · exact Span.fit?_eq_none halign (hpos (List.mem_append_left _ ht)) (hbefore t ht)
  · have hstop : piece.stop ≤ s.stop := (Extent.covers_iff.1 hcovers).2
    have := habove t ht
    have := hb.start_le
    omega

/-- **An allocation in a region** takes the lowest address that the region hosts, and carves its
piece out of a free span; the region takes the piece back. -/
theorem Valid.allocate_eq_ok (hr : r.Valid) (halign : Address.isPowerOfTwo align = true)
    (hsize : 0 < size) {address : Nat} (h : r.allocate size align = .ok address r') :
    IsLeast {b | r.Hosts size align b} address ∧ r'.Replaces r ∧
      ∃ piece : Extent, piece.place = (address, size) ∧ r.Carved piece r' ∧
        piece ∈ Span.used r'.spans ∧ r'.takeBack piece = .ok () r := by
  obtain ⟨index, piece, s, hfit, hout, rfl⟩ := Region.allocate_eq_ok h
  obtain ⟨r'', hout', hcarved, hlength, hleast⟩ := hr.handOut_of_firstFit? halign hsize hfit
  cases hout.symm.trans hout'
  have hused := (handOut_spec hr hout).2.2.2.2.mem_iff.2 List.mem_cons_self
  exact ⟨hleast, handOut_replaces hr hout, piece, Prod.ext rfl hlength, hcarved, hused,
    takeBack_handOut hr hout⟩

/-- A region that refuses an allocation hosts it nowhere. -/
theorem Valid.not_hosts_of_allocate (hr : r.Valid) (halign : Address.isPowerOfTwo align = true)
    (hsize : 0 < size) {cause : Heap.Error} (h : r.allocate size align = .error cause r')
    (address : Nat) : ¬ r.Hosts size align address := by
  cases hfit : r.firstFit? size align with
  | none =>
      rintro ⟨s, hs, hhosts⟩
      exact Span.fit?_eq_none halign (hr.start_pos hs) (firstFit?_eq_none hfit s hs) address hhosts
  | some found =>
      obtain ⟨r'', hout, -⟩ := hr.handOut_of_firstFit? halign hsize hfit
      simp [allocate, hfit, hout] at h

/-! ### Deallocation -/

/-- An allocated extent is found by its start. -/
theorem Valid.deallocate_of_mem (hr : r.Valid) {e : Extent} (he : e ∈ Span.used r.spans) :
    r.deallocate e.start = r.takeBack e := by
  obtain ⟨before, after, hsplit⟩ := List.append_of_mem (Span.mem_used.1 he)
  have htile := hr.tile
  rw [hsplit] at htile
  have hindex : r.indexAt? e.start = some before.length := by
    rw [indexAt?, hsplit]
    exact htile.indexAt? (Nat.le_refl _) (hr.used_bounds he).2.1
  have hspan : r.spans[before.length]? = some (.allocated e) := by simp [hsplit]
  have hstart : (Span.allocated e).start = e.start := rfl
  simp [deallocate, hindex, Index.read_eq_ok hspan, hstart]

/-- Nothing else is found. -/
theorem deallocate_of_forall_ne {address : Nat}
    (h : ∀ e ∈ Span.used r.spans, e.start ≠ address) :
    r.deallocate address = .error (.unknownAllocation address) r := by
  rcases deallocate_or r address with ⟨e, he, hstart, -⟩ | hnone
  · exact absurd hstart (h e he)
  · exact hnone

end Region

/-! ### Heaps -/

namespace Heap

/-- A free span of a region hosts the allocation. -/
def Hosts (heap : Heap) (size align address : Nat) : Prop :=
  ∃ r ∈ heap.regions, r.Hosts size align address

/-- `piece`, a part of a free span of one region, has become an allocated span of its own; nothing
else of any region has changed. -/
def Carved (heap : Heap) (piece : Extent) (heap' : Heap) : Prop :=
  ∃ before r r' after, heap.regions = before ++ r :: after ∧ r.Carved piece r' ∧
    heap' = { heap with regions := before ++ r' :: after }

variable {heap heap' : Heap} {size align : Nat}

theorem allocate_of_allocateIn {regions regions' : List Region} {cause : Heap.Error}
    (h : allocateIn size align regions = .error cause regions') :
    ∀ r ∈ regions, r.allocate size align = .error .outOfMemory r := by
  induction regions generalizing regions' with
  | nil => simp
  | cons r rest ih =>
      unfold allocateIn at h
      rcases r.allocate_or size align with ⟨a, region, hr⟩ | hr <;> rw [hr] at h
      · cases h
      · obtain ⟨rest', hin, -⟩ := Outcome.within_eq_error_iff.1 h
        exact List.forall_mem_cons.2 ⟨hr, ih hin⟩

/-- The first region with room has the lowest address. -/
theorem Valid.isLeast_of_allocateIn (hv : heap.Valid)
    (halign : Address.isPowerOfTwo align = true) (hsize : 0 < size) {address : Nat}
    {regions : List Region} (h : allocateIn size align heap.regions = .ok address regions) :
    IsLeast {b | heap.Hosts size align b} address := by
  obtain ⟨before, r, r', after, hregions, -, hr, hbefore⟩ := allocateIn_eq_ok h
  have hvalid {t : Region} (ht : t ∈ before ++ r :: after) : t.Valid :=
    hv.regions t (hregions ▸ ht)
  obtain ⟨hleast, -⟩ := (hvalid (by simp)).allocate_eq_ok halign hsize hr
  have hordered := hv.ordered
  rw [hregions] at hordered
  have habove := (List.pairwise_cons.1 (List.pairwise_append.1 hordered).2.1).1
  simp only [Hosts, hregions]
  refine isLeast_of_first hleast (fun t ht => ?_) fun t ht b hb => ?_
  · exact (hvalid (List.mem_append_left _ ht)).not_hosts_of_allocate halign hsize (hbefore t ht)
  · have hlo := ((hvalid (by simp [ht])).hosts_bounds hb).1
    have hhi := ((hvalid (by simp)).hosts_bounds hleast.1).2
    have := habove t ht
    omega

/-- All regions without room host nothing. -/
theorem Valid.not_hosts_of_allocateIn (hv : heap.Valid)
    (halign : Address.isPowerOfTwo align = true) (hsize : 0 < size) {cause : Heap.Error}
    {regions : List Region} (h : allocateIn size align heap.regions = .error cause regions)
    (address : Nat) : ¬ heap.Hosts size align address := by
  rintro ⟨r, hr, hhosts⟩
  exact (hv.regions r hr).not_hosts_of_allocate halign hsize (allocate_of_allocateIn h r hr)
    address hhosts

/-- The region that owns an address is found by it. -/
theorem Valid.find?_contains (hv : heap.Valid) {r : Region} (hr : r ∈ heap.regions)
    {address : Nat} (hlo : r.base ≤ address) (hhi : address < r.stop) :
    heap.regions.find? (·.extent.contains address) = some r := by
  have hcontains {t : Region} (ht : t ∈ heap.regions) :
      t.extent.contains address = true ↔ t.base ≤ address ∧ address < t.stop := by
    obtain ⟨hstart, hstop⟩ := (hv.regions t ht).extent_bounds
    simp [Extent.contains, hstart, hstop]
  cases hfind : heap.regions.find? (·.extent.contains address) with
  | none => exact absurd ((hcontains hr).2 ⟨hlo, hhi⟩) (List.find?_eq_none.1 hfind r hr)
  | some t =>
      have ht := List.mem_of_find?_eq_some hfind
      have hin := (hcontains ht).1 (by simpa using List.find?_some hfind)
      by_cases hid : t.id = r.id
      · rw [hv.eq_of_id_eq ht hr hid]
      · rcases hv.stop_le_or ht hr hid with hoff | hoff <;> omega

/-- **A deallocation** at the start of an allocated extent is answered by the region of it. -/
theorem Valid.deallocate_of_mem (hv : heap.Valid) (hthawed : heap.frozen = false) {r : Region}
    (hr : r ∈ heap.regions) {e : Extent} (he : e ∈ Span.used r.spans) :
    heap.deallocate e.start = (r.takeBack e).within heap.setRegion := by
  have hvalid := hv.regions r hr
  have hbounds := hvalid.bounds
  have hused := hvalid.used_bounds he
  have hfind := hv.find?_contains hr (show r.base ≤ e.start by omega) (by omega)
  simp only [Heap.deallocate, hthawed, Bool.false_eq_true, if_false, hfind,
    hvalid.deallocate_of_mem he]

/-- Where no allocated extent starts, there is no allocation. -/
theorem Valid.deallocate_of_not_exists (hv : heap.Valid) (hthawed : heap.frozen = false)
    {address : Nat} (h : ¬ ∃ e ∈ heap.used, e.start = address) :
    heap.deallocate address = .error (.unknownAllocation address) heap := by
  simp only [Heap.deallocate, hthawed, Bool.false_eq_true, if_false]
  split
  case h_1 => rfl
  case h_2 r hfind =>
    have hr := List.mem_of_find?_eq_some hfind
    have hne : ∀ e ∈ Span.used r.spans, e.start ≠ address :=
      fun e he hs => h ⟨e, List.mem_flatMap.2 ⟨r, hr, he⟩, hs⟩
    rw [Region.deallocate_of_forall_ne hne, Outcome.within, hv.setRegion_self hr]

/-- **A deallocation** succeeds just at the starts of the allocated extents. -/
theorem Valid.exists_deallocate_iff (hv : heap.Valid) (hthawed : heap.frozen = false)
    (address : Nat) :
    (∃ heap', heap.deallocate address = .ok () heap') ↔ ∃ e ∈ heap.used, e.start = address := by
  constructor
  · rintro ⟨heap', hfree⟩
    by_contra hnone
    rw [hv.deallocate_of_not_exists hthawed hnone] at hfree
    contradiction
  · rintro ⟨e, he, rfl⟩
    obtain ⟨r, hr, he⟩ := List.mem_flatMap.1 he
    obtain ⟨r', hback, -⟩ := Region.takeBack_spec (hv.regions r hr) he
    rw [hv.deallocate_of_mem hthawed hr he, hback]
    exact ⟨_, rfl⟩

/-- **An allocation is undone** by the deallocation that follows it. -/
theorem Valid.deallocate_of_allocateIn (hv : heap.Valid) (hthawed : heap.frozen = false)
    (halign : Address.isPowerOfTwo align = true) (hsize : 0 < size) {address : Nat}
    {regions : List Region} (h : allocateIn size align heap.regions = .ok address regions) :
    (∃ piece : Extent, piece.place = (address, size) ∧
      heap.Carved piece { heap with regions }) ∧
      ({ heap with regions } : Heap).deallocate address = .ok () heap := by
  obtain ⟨before, r, r', after, hregions, rfl, hr, -⟩ := allocateIn_eq_ok h
  have hmem : r ∈ heap.regions := hregions ▸ by simp
  obtain ⟨-, hrep, piece, hplace, hcarved, hused, hback⟩ :=
    (hv.regions r hmem).allocate_eq_ok halign hsize hr
  refine ⟨⟨piece, hplace, before, r, r', after, hregions, hcarved, rfl⟩, ?_⟩
  have hset : { heap with regions := before ++ r' :: after } = heap.setRegion r' := by
    rw [← hv.regions_setRegion hregions hrep.id]
    rfl
  have hstart : piece.start = address := congrArg Prod.fst hplace
  rw [hset, ← hstart, (hv.setRegion hmem hrep).deallocate_of_mem hthawed
    (mem_setRegion hmem hrep.id) hused, hback]
  exact congrArg (Outcome.ok ()) (hv.setRegion_setRegion hmem hrep.id)

/-- The alignment that a heap allocates at is a power of two if the one that was asked for is, or is
at most that of a header. -/
theorem isPowerOfTwo_max (h : Address.isPowerOfTwo align = true ∨ align ≤ Region.headerAlign) :
    Address.isPowerOfTwo (max align Region.headerAlign) = true := by
  by_cases hle : align ≤ Region.headerAlign
  · rw [Nat.max_eq_right hle]
    decide
  · rw [Nat.max_eq_left (Nat.le_of_not_le hle)]
    exact h.resolve_right hle

/-- No allocation is empty. -/
theorem size_pos (size : Nat) : 0 < max size 1 :=
  Nat.lt_of_lt_of_le Nat.zero_lt_one (Nat.le_max_right size 1)

section Allocate
variable (hthawed : heap.frozen = false)
  (halign : Address.isPowerOfTwo (max align Region.headerAlign) = true)
include hthawed halign

/-- An allocation in a heap that is not frozen is one in its regions. -/
theorem allocate_eq :
    heap.allocate size align =
      (allocateIn (max size 1) (max align Region.headerAlign) heap.regions).within
        fun regions => { heap with regions } := by
  simp [Heap.allocate, hthawed, halign]

theorem allocate_eq_outOfMemory_iff :
    heap.allocate size align = .error .outOfMemory heap ↔
      allocateIn (max size 1) (max align Region.headerAlign) heap.regions =
        .error .outOfMemory heap.regions := by
  rw [allocate_eq hthawed halign]
  rcases allocateIn_or (max size 1) (max align Region.headerAlign) heap.regions with
    ⟨a, regions, hin⟩ | hin <;> simp [hin, Outcome.within]

/-- **An allocation** yields the lowest address that the heap hosts. -/
theorem Valid.exists_allocate_iff (hv : heap.Valid) (address : Nat) :
    (∃ heap', heap.allocate size align = .ok address heap') ↔
      IsLeast {b | heap.Hosts (max size 1) (max align Region.headerAlign) b} address := by
  constructor
  · rintro ⟨heap', halloc⟩
    obtain ⟨-, regions, hin, -⟩ := allocate_eq_ok halloc
    exact hv.isLeast_of_allocateIn halign (size_pos size) hin
  · intro hleast
    rw [allocate_eq hthawed halign]
    rcases allocateIn_or (max size 1) (max align Region.headerAlign) heap.regions with
      ⟨a, regions, hin⟩ | hin
    · cases (hv.isLeast_of_allocateIn halign (size_pos size) hin).unique hleast
      rw [hin]
      exact ⟨_, rfl⟩
    · exact absurd hleast.1 (hv.not_hosts_of_allocateIn halign (size_pos size) hin address)

/-- It fails just when the heap hosts it nowhere. -/
theorem Valid.outOfMemory_iff (hv : heap.Valid) :
    heap.allocate size align = .error .outOfMemory heap ↔
      ∀ address, ¬ heap.Hosts (max size 1) (max align Region.headerAlign) address := by
  rw [allocate_eq_outOfMemory_iff hthawed halign]
  refine ⟨hv.not_hosts_of_allocateIn halign (size_pos size), fun hnone => ?_⟩
  rcases allocateIn_or (max size 1) (max align Region.headerAlign) heap.regions with
    ⟨a, regions, hin⟩ | hin
  · exact absurd (hv.isLeast_of_allocateIn halign (size_pos size) hin).1 (hnone a)
  · exact hin

end Allocate

/-- **First fit is lowest fit, and a deallocation is its inverse.**  An allocation yields the lowest
address at which some free span hosts it, and fails only if none does, which leaves the heap as it
is.  It carves its piece out of that span, and the deallocation that follows it restores the heap.
A deallocation succeeds just at the starts of the allocated extents, and changes nothing if it
fails. -/
theorem allocate_lowest (h : heap.Reachable) (hthawed : heap.frozen = false) (size : Nat)
    {align : Nat} (halign : Address.isPowerOfTwo align = true ∨ align ≤ Region.headerAlign) :
    (∀ address, (∃ heap', heap.allocate size align = .ok address heap') ↔
      IsLeast {b | heap.Hosts (max size 1) (max align Region.headerAlign) b} address) ∧
    (heap.allocate size align = .error .outOfMemory heap ↔
      ∀ address, ¬ heap.Hosts (max size 1) (max align Region.headerAlign) address) ∧
    (∀ address heap', heap.allocate size align = .ok address heap' →
      (∃ piece : Extent, piece.place = (address, max size 1) ∧ heap.Carved piece heap') ∧
        heap'.deallocate address = .ok () heap) ∧
    ∀ address, ((∃ heap', heap.deallocate address = .ok () heap') ↔
        ∃ e ∈ heap.used, e.start = address) ∧
      ((¬ ∃ e ∈ heap.used, e.start = address) →
        heap.deallocate address = .error (.unknownAllocation address) heap) := by
  have hv := h.valid
  have hpower := isPowerOfTwo_max halign
  refine ⟨hv.exists_allocate_iff hthawed hpower, hv.outOfMemory_iff hthawed hpower,
    fun address heap' halloc => ?_,
    fun address => ⟨hv.exists_deallocate_iff hthawed address,
      hv.deallocate_of_not_exists hthawed⟩⟩
  obtain ⟨-, regions, hin, rfl⟩ := allocate_eq_ok halloc
  exact hv.deallocate_of_allocateIn hthawed hpower (size_pos size) hin

/-- An allocation that fits into the second region only, one byte more that fits nowhere, and a
deallocation inside of an allocation. -/
theorem allocate_lowest_second : ∃ heap' : Heap,
    smallHeap.allocate 0x1fc0 0x40 = .ok 0x4040 heap' ∧
      IsLeast {b | smallHeap.Hosts 0x1fc0 0x40 b} 0x4040 ∧
      (∃ piece : Extent, piece.place = (0x4040, 0x1fc0) ∧ smallHeap.Carved piece heap') ∧
      heap'.deallocate 0x4040 = .ok () smallHeap ∧
      (∀ b, ¬ smallHeap.Hosts 0x1fc1 0x40 b) ∧
      (∃ heap'', smallHeap.deallocate 0x1020 = .ok () heap'') ∧
      smallHeap.deallocate 0x1030 = .error (.unknownAllocation 0x1030) smallHeap := by
  have halign : Address.isPowerOfTwo 0x40 = true ∨ 0x40 ≤ Region.headerAlign := .inl (by decide)
  have hthawed : smallHeap.frozen = false := by decide
  have hone : ∃ heap', smallHeap.allocate 0x1fc0 0x40 = .ok 0x4040 heap' := ⟨_, rfl⟩
  obtain ⟨heap', halloc⟩ := hone
  obtain ⟨hlowest, -, hundone, hfree⟩ :=
    allocate_lowest smallHeap_reachable hthawed 0x1fc0 halign
  obtain ⟨-, hnone, -⟩ := allocate_lowest smallHeap_reachable hthawed 0x1fc1 halign
  obtain ⟨hcarved, hback⟩ := hundone _ heap' halloc
  refine ⟨heap', halloc, (hlowest _).1 ⟨heap', halloc⟩, hcarved, hback, hnone.1 ?_,
    (hfree 0x1020).1.2 ?_, (hfree 0x1030).2 ?_⟩
  · decide +kernel
  · decide +kernel
  · decide +kernel

end Heap

end Staging
