import Staging.Proofs.Sweep.Owners

/-!
# A division is exact

What can be borrowed of a heap and of the memory around it is told by the heap and by the intervals
that stand beside those of the heap (`Heap.CanBorrow`).  A division succeeds exactly on a target
that has bytes, all of which can be borrowed, and names memory that is not usable on every other
(`Sweep.divide_exact`).  The owner of each piece names memory of its own (`Heap.Owns`): for the
start of a region this is the head room, of which the piece takes memory before the body, and for
the body it is one free span.
-/

namespace Staging

theorem Piece.continues_self (owner : Owner) : continues owner owner = true := by
  cases owner <;> simp [continues]

namespace Heap

/-- The byte lies in the head room of a region, or in a free span that a region offers. -/
def Offered (heap : Heap) (x : Nat) : Prop :=
  ∃ r ∈ heap.regions, ∃ kind e, r.Offers kind e ∧ x ∈ e

/-- The byte lies inside of a region. -/
def Masked (heap : Heap) (x : Nat) : Prop :=
  ∃ r ∈ heap.regions, x ∈ r.extent

/-- The firmware could lend the byte: it lies in listed memory, and neither in memory that is
borrowed already nor in a region. -/
def LendsFirmware (heap : Heap) (others : List Interval) (x : Nat) : Prop :=
  Lendable others x ∧ ¬ heap.Masked x

/-- The byte can be borrowed from the heap or the firmware. -/
def CanBorrow (heap : Heap) (others : List Interval) (x : Nat) : Prop :=
  ¬ Over others .collision x ∧ (heap.Offered x ∨ heap.LendsFirmware others x)

/-- The piece lies inside of memory that its owner can lend. -/
def Owns (heap : Heap) (others : List Interval) (p : Piece) : Prop :=
  match p.owner with
  | .regionHead id => ∃ r ∈ heap.regions, r.id = id ∧ p.extent.start < r.bodyBase ∧
      ∃ room, r.headRoom = some room ∧ room.covers p.extent = true
  | .regionBody id => ∃ r ∈ heap.regions, r.id = id ∧
      ∃ s ∈ r.spans, s.isFree = true ∧ s.extent.covers p.extent = true
  | .firmware => ∀ x ∈ p.extent, heap.LendsFirmware others x

/-! ### The intervals of a heap among others -/

variable {heap : Heap} {others intervals : List Interval} {x : Nat}

/-- The intervals of a heap are the masks and the offers of its regions. -/
theorem over_intervals_iff {kind : IntervalKind} :
    Over heap.intervals kind x ↔ kind = .firmwareBlock ∧ heap.Masked x ∨
      ∃ r ∈ heap.regions, ∃ e, r.Offers kind e ∧ x ∈ e := by
  constructor
  · rintro ⟨i, hi, rfl, hx⟩
    obtain ⟨index, r, hr, hmem⟩ := Heap.mem_intervals_iff.1 hi
    have hr := List.mem_of_getElem? hr
    obtain ⟨-, ⟨hkind, hextent⟩ | hoffer⟩ := Region.mem_intervals_iff.1 hmem
    · exact .inl ⟨hkind, r, hr, hextent ▸ hx⟩
    · exact .inr ⟨r, hr, i.extent, hoffer, hx⟩
  · rintro (⟨rfl, r, hr, hx⟩ | ⟨r, hr, e, hoffer, hx⟩)
    · obtain ⟨i, hi, hkind, hextent⟩ := Heap.mem_intervals_of_region hr
      exact ⟨i, hi, hkind, hextent ▸ hx⟩
    · obtain ⟨i, hi, hkind, hextent⟩ := Heap.mem_intervals_of_offers hr hoffer
      exact ⟨i, hi, hkind, hextent ▸ hx⟩

theorem over_of_perm (hperm : intervals.Perm (others ++ heap.intervals)) {kind : IntervalKind} :
    Over intervals kind x ↔ Over others kind x ∨ Over heap.intervals kind x := by
  rw [← over_append]
  simp only [Over, hperm.mem_iff]

section Among

variable (hothers : ∀ i ∈ others, i.kind ≠ .regionHead ∧ i.kind ≠ .regionBody)
  (hperm : intervals.Perm (others ++ heap.intervals))

include hperm in
theorem lendable_iff : Lendable intervals x ↔ heap.LendsFirmware others x := by
  have hlisted : Over intervals .firmwareAvailable x ↔ Over others .firmwareAvailable x := by
    rw [over_of_perm hperm, over_intervals_iff, or_iff_left]
    rintro (⟨hkind, -⟩ | ⟨r, -, e, hoffer, -⟩)
    · cases hkind
    · cases hoffer
  have hmasked : Over intervals .firmwareBlock x ↔
      Over others .firmwareBlock x ∨ heap.Masked x := by
    rw [over_of_perm hperm, over_intervals_iff, or_congr_right]
    refine ⟨?_, fun hmask => .inl ⟨rfl, hmask⟩⟩
    rintro (⟨-, hmask⟩ | ⟨r, -, e, hoffer, -⟩)
    · exact hmask
    · cases hoffer
  rw [Lendable, LendsFirmware, Lendable, hlisted, hmasked, not_or, and_assoc]

include hothers hperm

/-- **A byte is usable** in the intervals of a sweep exactly if it can be borrowed. -/
theorem usable_iff : Usable intervals x ↔ heap.CanBorrow others x := by
  have hcollision : Over intervals .collision x ↔ Over others .collision x := by
    rw [over_of_perm hperm, over_intervals_iff, or_iff_left]
    rintro (⟨hkind, -⟩ | ⟨r, -, e, hoffer, -⟩)
    · cases hkind
    · cases hoffer
  have offered {kind : IntervalKind} (hkind : kind = .regionHead ∨ kind = .regionBody) :
      Over intervals kind x ↔ ∃ r ∈ heap.regions, ∃ e, r.Offers kind e ∧ x ∈ e := by
    rw [over_of_perm hperm, over_intervals_iff, or_iff_right, or_iff_right]
    · rintro ⟨hmask, -⟩
      rcases hkind with rfl | rfl <;> cases hmask
    · rintro ⟨i, hi, hsame, -⟩
      have := hothers i hi
      rcases hkind with rfl | rfl <;> simp [hsame] at this
  have hoffered : heap.Offered x ↔
      Over intervals .regionHead x ∨ Over intervals .regionBody x := by
    rw [offered (.inl rfl), offered (.inr rfl)]
    constructor
    · rintro ⟨r, hr, kind, e, hoffer, hx⟩
      cases hoffer with
      | head hroom => exact .inl ⟨r, hr, _, .head hroom, hx⟩
      | body hs hfree => exact .inr ⟨r, hr, _, .body hs hfree, hx⟩
    · rintro (⟨r, hr, e, hoffer, hx⟩ | ⟨r, hr, e, hoffer, hx⟩)
      · exact ⟨r, hr, _, e, hoffer, hx⟩
      · exact ⟨r, hr, _, e, hoffer, hx⟩
  rw [Usable, CanBorrow, hcollision, hoffered, lendable_iff hperm, or_assoc]

/-- The intervals of a sweep show what the regions of the heap offer. -/
theorem shows_of_perm : Shows intervals heap.regions := by
  have hshows := heap.shows hothers
  refine ⟨fun i hi => hshows.offers i (hperm.mem_iff.1 hi), fun r hr x hx => ?_⟩
  obtain ⟨i, hi, hover⟩ := hshows.mask r hr x hx
  exact ⟨i, hperm.mem_iff.2 hi, hover⟩

end Among

/-- **The owner of a piece** names memory of its own. -/
theorem owns_of_backed (hperm : intervals.Perm (others ++ heap.intervals)) {p : Piece}
    (h : p.Backed heap intervals) : heap.Owns others p := by
  obtain ⟨extent, owner⟩ := p
  cases h with
  | firmware howner hall =>
      cases howner
      exact fun x hx => (lendable_iff hperm).1 (hall x hx)
  | @region r hr hback =>
      obtain ⟨kind, e, hoffer, hcovers, howner⟩ := hback
      cases hoffer with
      | @body s hs hfree =>
          cases howner
          exact ⟨r, hr, rfl, s, Region.mem_of_mem_bodySpans hs, hfree, hcovers⟩
      | head hroom =>
          by_cases hbelow : extent.start < r.bodyBase
          · obtain rfl : owner = .regionHead r.id := by simpa [Region.owner, hbelow] using howner
            exact ⟨r, hr, rfl, hbelow, e, hroom, hcovers⟩
          · obtain rfl : owner = .regionBody r.id := by simpa [Region.owner, hbelow] using howner
            obtain ⟨first, hfirst, hfree, hpart⟩ :=
              Region.covers_of_headRoom hroom (Nat.not_lt.1 hbelow) hcovers
            exact ⟨r, hr, rfl, first, hfirst, hfree, hpart⟩

end Heap

/-- **A division is exact.**  Among the intervals of a valid heap, which others may stand beside or
between, a division succeeds exactly on a target that has bytes, all of which can be borrowed, and
names memory that is not usable on every other.  If it succeeds the pieces tile the target in
ascending order, neighbours have different owners, and each owner names memory of its own. -/
theorem Sweep.divide_exact {heap : Heap} {others intervals : List Interval} (hv : heap.Valid)
    (hothers : ∀ i ∈ others, i.kind ≠ .regionHead ∧ i.kind ≠ .regionBody)
    (hperm : intervals.Perm (others ++ heap.intervals)) (target : Extent) :
    ∃ sorted outcome s, (({} : Sweep).add intervals).sort = .ok sorted ∧
      sorted.divide heap.regions target = (outcome, s) ∧
      (outcome = .ok () ↔
        target.start < target.stop ∧ ∀ x ∈ target, heap.CanBorrow others x) ∧
      (outcome ≠ .ok () → ∃ e, outcome = .error (.error (.inconsistent e))) ∧
      (outcome = .ok () → Extent.Tile target.start target.stop (s.pieces.map (·.extent)) ∧
        (s.pieces.IsChain fun p q => p.owner ≠ q.owner) ∧ ∀ p ∈ s.pieces, heap.Owns others p) := by
  obtain ⟨hevents, hsorted⟩ := Sweep.events_ofIntervals intervals
  have husable (x : Nat) : Usable intervals x ↔ heap.CanBorrow others x :=
    Heap.usable_iff hothers hperm
  have hcomplete (hne : target.start < target.stop)
      (hall : ∀ x ∈ target, heap.CanBorrow others x) :=
    Division.ofEvents_complete hv (Heap.shows_of_perm hothers hperm) hevents hsorted hne
      fun x hx => (husable x).2 (hall x hx)
  have hsound (hok :
      (Division.ofEvents heap.regions target (ofIntervals intervals).events).outcome = .ok ()) :=
    Division.usable_of_ofEvents hevents hsorted (congrArg (Division.mk _) hok)
  refine ⟨_, _, _, Sweep.sort_add intervals, rfl, ⟨fun hok => ?_, fun ⟨hne, hall⟩ => ?_⟩,
    fun hnot => ?_, fun hok => ?_⟩
  · obtain ⟨hne, hall⟩ := hsound hok
    exact ⟨hne, fun x hx => (husable x).1 (hall x hx)⟩
  · obtain ⟨pieces, hdivide, -⟩ := hcomplete hne hall
    exact congrArg Division.outcome hdivide
  · exact (Division.ofEvents_outcome hevents hsorted heap.regions target).resolve_left hnot
  · obtain ⟨hne, hall⟩ := hsound hok
    obtain ⟨pieces, hdivide, hcomposed⟩ := hcomplete hne fun x hx => (husable x).1 (hall x hx)
    have hpieces : (Division.ofEvents heap.regions target (ofIntervals intervals).events).pieces =
        pieces := congrArg Division.pieces hdivide
    dsimp only
    rw [hpieces]
    refine ⟨hcomposed.tile, hcomposed.chain.imp fun p q hnot hsame => ?_,
      fun p hp => Heap.owns_of_backed hperm (hcomposed.backed p hp)⟩
    rw [hsame, Piece.continues_self] at hnot
    cases hnot

/-- A placement from the end of one region over listed memory into the start of the next one, up to
a collision there, is divided into three pieces. -/
theorem Sweep.divide_exact_bridge : ∃ (heap : Heap) (others : List Interval) (target : Extent)
    (sorted s : Sweep), heap.Valid ∧
      (({} : Sweep).add (heap.intervals ++ others)).sort = .ok sorted ∧
      sorted.divide heap.regions target = (.ok (), s) ∧
      s.pieces.map (·.owner) =
        [.regionBody ⟨0, by decide⟩, .firmware, .regionHead ⟨1, by decide⟩] ∧
      ∀ p ∈ s.pieces, heap.Owns others p := by
  let heap := (({} : Heap).run [.addRegion (.ofBoundsD 0x1000 0x3000),
    .addRegion (.ofBoundsD 0x4000 0x6000), .allocate 0x100 16]).1
  let others : List Interval :=
    [⟨.firmwareAvailable, .ofBoundsD 0x2000 0x3800, none⟩,
      ⟨.collision, .ofBoundsD 0x4400 0x5000, none⟩,
      ⟨.firmwareAvailable, .ofBoundsD 0x3800 0x7000, none⟩]
  let target : Extent := .ofBoundsD 0x2f00 0x4400
  have hv : heap.Valid := Heap.valid_empty.run _
  have hothers : ∀ i ∈ others, i.kind ≠ .regionHead ∧ i.kind ≠ .regionBody := by decide
  obtain ⟨sorted, outcome, s, hsort, hdivide, -, -, hpieces⟩ :=
    Sweep.divide_exact hv hothers (@List.perm_append_comm _ heap.intervals others) target
  have hrun : (({} : Sweep).add (heap.intervals ++ others)).sort.toOption.map (fun sorted =>
      ((sorted.divide heap.regions target).1,
        (sorted.divide heap.regions target).2.pieces.map (·.owner))) =
      some (.ok (), [.regionBody ⟨0, by decide⟩, .firmware, .regionHead ⟨1, by decide⟩]) := by
    decide +kernel
  rw [hsort] at hrun
  simp only [Except.toOption, Option.map_some, hdivide, Option.some.injEq,
    Prod.mk.injEq] at hrun
  obtain ⟨rfl, howners⟩ := hrun
  exact ⟨heap, others, target, sorted, s, hv, hsort, hdivide, howners, (hpieces rfl).2.2⟩

end Staging
