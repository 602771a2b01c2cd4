import Staging.Proofs.Sweep.Basic

/-!
# Every usable gap has its owner

The regions of a heap show their offers to a sweep as intervals, and mask all of themselves
(`Shows`).  Two offers of one kind never touch, so of each kind the interval that a cursor has open
is the one that contains the byte at hand (`tracked_eq`).  So every usable gap has an owner who can
lend it (`exists_owner`), and a placement whose every byte can be borrowed is divided to the end
(`Division.ofEvents_complete`): into pieces that tile it, that their owners back, and of which none
continues the one before it (`Composed`).
-/

namespace Staging

open Piece (continues)

/-! ### The intervals of a heap -/

/-- The intervals show what regions offer, and that each region is masked. -/
structure Shows (intervals : List Interval) (regions : List Region) : Prop where
  offers : ∀ i ∈ intervals, i.kind = .regionHead ∨ i.kind = .regionBody →
    ∃ index r, i.region = some index ∧ regions[index]? = some r ∧ r.Offers i.kind i.extent
  mask : ∀ r ∈ regions, ∀ x ∈ r.extent, Over intervals .firmwareBlock x

/-- **A heap shows its offers** among intervals that are not of a heap. -/
theorem Heap.shows (heap : Heap) {intervals : List Interval}
    (h : ∀ i ∈ intervals, i.kind ≠ .regionHead ∧ i.kind ≠ .regionBody) :
    Shows (intervals ++ heap.intervals) heap.regions where
  offers i hi hkind := by
    rcases List.mem_append.1 hi with hi | hi
    · have := h i hi
      rcases hkind with hkind | hkind <;> simp [hkind] at this
    · obtain ⟨index, r, hr, hi⟩ := Heap.mem_intervals_iff.1 hi
      obtain ⟨hregion, ⟨hmask, -⟩ | hoffer⟩ := Region.mem_intervals_iff.1 hi
      · rcases hkind with hkind | hkind <;> cases hkind.symm.trans hmask
      · exact ⟨index, r, hregion, hr, hoffer⟩
  mask r hr x hx := by
    obtain ⟨i, hi, hkind, hextent⟩ := Heap.mem_intervals_of_region hr
    exact ⟨i, List.mem_append_right _ hi, hkind, hextent ▸ hx⟩

/-- Intervals of this kind are the same, or there is a gap between them. -/
def Distinct (intervals : List Interval) (kind : IntervalKind) : Prop :=
  ∀ i ∈ intervals, ∀ j ∈ intervals, i.kind = kind → j.kind = kind →
    i.region = j.region ∧ i.extent = j.extent ∨ i.extent.Detached j.extent

/-- Offers of one kind do not touch, whether they are of one region or of two. -/
theorem Shows.distinct {intervals : List Interval} {heap : Heap}
    (h : Shows intervals heap.regions) (hv : heap.Valid) {kind : IntervalKind}
    (hkind : kind = .regionHead ∨ kind = .regionBody) : Distinct intervals kind := by
  intro i hi j hj hik hjk
  obtain ⟨a, r, hindex, hr, hoffer⟩ := h.offers i hi (hik.symm ▸ hkind)
  obtain ⟨b, r', hindex', hr', hoffer'⟩ := h.offers j hj (hjk.symm ▸ hkind)
  rw [hik] at hoffer
  rw [hjk] at hoffer'
  have hmem := List.mem_of_getElem? hr
  have hmem' := List.mem_of_getElem? hr'
  have hvalid := hv.regions r hmem
  have hvalid' := hv.regions r' hmem'
  by_cases hid : r.id = r'.id
  · obtain rfl := hv.eq_of_id_eq hmem hmem' hid
    have hsame : a = b :=
      (List.getElem?_inj (List.getElem?_eq_some_iff.1 hr).1 hv.unique.of_map).1
        (hr.trans hr'.symm)
    rcases hoffer.same_or_detached hoffer' hvalid with ⟨-, hextent⟩ | hdetached
    · exact .inl ⟨by rw [hindex, hindex', hsame], hextent⟩
    · exact .inr hdetached
  · -- Head rooms end short of their regions, and bodies begin behind the base.
    have hinside := hoffer.inside hvalid
    have hinside' := hoffer'.inside hvalid'
    have hapart := hv.stop_le_or hmem hmem' hid
    right
    rcases hkind with rfl | rfl
    · have := hoffer.head_inside hvalid
      have := hoffer'.head_inside hvalid'
      simp only [Extent.Detached]
      omega
    · have := hoffer.body_inside hvalid
      have := hoffer'.body_inside hvalid'
      have := hvalid.bounds
      have := hvalid'.bounds
      simp only [Extent.Detached]
      omega

/-! ### What a cursor has open -/

namespace Cursor

variable {intervals : List Interval} {passed ahead : List Event} {x : Nat}

/-- The region that is open for one kind after events. -/
def tracked (kind : IntervalKind) (events : List Event) : Option Nat :=
  events.foldl (fun current e => if e.kind = kind then track current e else current) none

/-- The cursor after events. -/
def after (events : List Event) : Cursor := events.foldl pass {}

theorem after_concat (events : List Event) (e : Event) :
    after (events ++ [e]) = (after events).pass e := by
  simp [after]

theorem depth_after (events : List Event) :
    (after events).depth = .passAll .ascending {} events :=
  (List.foldl_hom Cursor.depth (fun _ _ => rfl)).symm

theorem head_after (events : List Event) : (after events).head = tracked .regionHead events :=
  (List.foldl_hom Cursor.head (fun _ _ => rfl)).symm

theorem body_after (events : List Event) : (after events).body = tracked .regionBody events :=
  (List.foldl_hom Cursor.body (fun _ _ => rfl)).symm

/-- **The interval that is open** for its kind is the one that contains the byte at hand. -/
theorem tracked_eq (hperm : (passed ++ ahead).Perm (intervals.flatMap (·.events)))
    (hsorted : passed.Pairwise fun a b => a.position ≤ b.position)
    (hpassed : ∀ e ∈ passed, e.position ≤ x) (hahead : ∀ e ∈ ahead, x < e.position)
    {i : Interval} (hi : i ∈ intervals) (hx : x ∈ i.extent) (hdistinct : Distinct intervals i.kind)
    {index : Nat} (hindex : i.region = some index) : tracked i.kind passed = some index := by
  obtain ⟨hlo, hhi⟩ := hx
  have hstart : ⟨i.extent.start, i.kind, .start, i.region⟩ ∈ passed := by
    have hmem : ⟨i.extent.start, i.kind, .start, i.region⟩ ∈ passed ++ ahead :=
      hperm.mem_iff.2 (List.mem_flatMap.2
        ⟨i, hi, Interval.mem_events_iff.2 ⟨Nat.lt_of_le_of_lt hlo hhi, .inl rfl⟩⟩)
    rcases List.mem_append.1 hmem with hmem | hmem
    · exact hmem
    · exact absurd (hahead _ hmem) (Nat.not_lt.2 hlo)
  obtain ⟨before, behind, hsplit⟩ := List.append_of_mem hstart
  -- Behind its start no event of the kind belongs to another interval.
  have hbehind : ∀ e ∈ behind, e.kind = i.kind → e.edge = .start ∧ e.region = some index := by
    intro e he hkind
    rw [hsplit] at hsorted
    have hfrom := (List.pairwise_cons.1 (List.pairwise_append.1 hsorted).2.1).1 e he
    have hmem : e ∈ passed := hsplit ▸ List.mem_append_right _ (List.mem_cons_of_mem _ he)
    have hto := hpassed e hmem
    obtain ⟨j, hj, hevent⟩ :=
      List.mem_flatMap.1 (hperm.mem_iff.1 (List.mem_append_left ahead hmem))
    have hlt := (Interval.mem_events_iff.1 hevent).1
    have hor := (Interval.mem_events_iff.1 hevent).2
    have hjkind : j.kind = i.kind := by
      rcases hor with rfl | rfl <;> exact hkind
    rcases hdistinct i hi j hj rfl hjkind with ⟨hregion, hextent⟩ | hdetached
    · rcases hor with rfl | rfl
      · exact ⟨rfl, hregion ▸ hindex⟩
      · exact absurd hto (Nat.not_le.2 (hextent ▸ hhi))
    · -- The other interval is over before this one starts, or starts behind the byte.
      have hle := j.extent.start_le_stop
      rcases hor with rfl | rfl <;> dsimp only at hfrom hto <;>
        rcases hdetached with hgap | hgap <;> omega
  have hstays (events : List Event)
      (h : ∀ e ∈ events, e.kind = i.kind → e.edge = .start ∧ e.region = some index) :
      events.foldl (fun current e => if e.kind = i.kind then track current e else current)
        (some index) = some index := by
    induction events with
    | nil => rfl
    | cons e rest ih =>
        have hrest := ih fun a ha => h a (List.mem_cons_of_mem _ ha)
        rw [List.foldl_cons]
        by_cases hkind : e.kind = i.kind
        · obtain ⟨hedge, hregion⟩ := h e List.mem_cons_self hkind
          rw [if_pos hkind, track, hedge, hregion]
          exact hrest
        · rw [if_neg hkind]
          exact hrest
  rw [tracked, hsplit, List.foldl_append, List.foldl_cons, if_pos rfl]
  simp only [track, hindex]
  exact hstays behind hbehind

end Cursor

/-! ### The owner of a gap -/

/-- The owner of a piece can lend it. -/
inductive Piece.Backed (heap : Heap) (intervals : List Interval) (p : Piece) : Prop where
  /-- A region offers it. -/
  | region {r : Region} (hr : r ∈ heap.regions) (h : r.Backs p)
  /-- The firmware lists all of it, and nothing masks it. -/
  | firmware (howner : p.owner = .firmware) (h : ∀ x ∈ p.extent, Lendable intervals x)

namespace Cursor

variable {heap : Heap} {intervals : List Interval} {passed ahead : List Event} {gap : Extent}

/-- The events around a gap: those passed lie at or below it, those ahead at or above its end. -/
structure Around (intervals : List Interval) (gap : Extent) (passed ahead : List Event) :
    Prop where
  perm : (passed ++ ahead).Perm (intervals.flatMap (·.events))
  sorted : (passed ++ ahead).Pairwise fun a b => a.position ≤ b.position
  passed : ∀ e ∈ passed, e.position ≤ gap.start
  ahead : ∀ e ∈ ahead, gap.stop ≤ e.position
  gap : gap.start < gap.stop

/-- An interval that contains the start of a gap contains the gap. -/
theorem Around.covers (h : Around intervals gap passed ahead) {i : Interval} (hi : i ∈ intervals)
    (hx : gap.start ∈ i.extent) : i.extent.covers gap = true := by
  obtain ⟨hlo, hhi⟩ := hx
  have hmem : ⟨i.extent.stop, i.kind, .stop, i.region⟩ ∈ passed ++ ahead :=
    h.perm.mem_iff.2 (List.mem_flatMap.2
      ⟨i, hi, Interval.mem_events_iff.2 ⟨Nat.lt_of_le_of_lt hlo hhi, .inr rfl⟩⟩)
  rcases List.mem_append.1 hmem with hmem | hmem
  · exact absurd (h.passed _ hmem) (Nat.not_le.2 hhi)
  · exact Extent.covers_iff.2 ⟨hlo, h.ahead _ hmem⟩

/-- The depths are right about every byte of a gap. -/
theorem Around.at_depth (h : Around intervals gap passed ahead) {x : Nat} (hx : x ∈ gap) :
    (after passed).depth.At intervals x := by
  rw [depth_after]
  refine Depth.at_passAll h.perm ?_ ?_
  · intro e he
    exact Nat.le_trans (h.passed e he) hx.1
  · intro e he
    exact Nat.not_le.2 (Nat.lt_of_lt_of_le hx.2 (h.ahead e he))

/-- Over a gap with an offer, the cursor has the region of the offer open. -/
theorem Around.exists_offer (h : Around intervals gap passed ahead) (hv : heap.Valid)
    (hshows : Shows intervals heap.regions) {kind : IntervalKind}
    (hkind : kind = .regionHead ∨ kind = .regionBody) (hover : Over intervals kind gap.start) :
    ∃ index r e, tracked kind passed = some index ∧ heap.regions[index]? = some r ∧
      r.Offers kind e ∧ e.covers gap = true := by
  obtain ⟨i, hi, rfl, hx⟩ := hover
  obtain ⟨index, r, hindex, hr, hoffer⟩ := hshows.offers i hi hkind
  refine ⟨index, r, i.extent, ?_, hr, hoffer, h.covers hi hx⟩
  refine tracked_eq h.perm (List.pairwise_append.1 h.sorted).1 h.passed ?_ hi hx
    (hshows.distinct hv hkind) hindex
  intro e he
  exact Nat.lt_of_lt_of_le h.gap (h.ahead e he)

/-- **Every usable gap has an owner** who can lend it. -/
theorem Around.exists_owner (h : Around intervals gap passed ahead) (hv : heap.Valid)
    (hshows : Shows intervals heap.regions) (husable : Usable intervals gap.start) :
    ∃ owner, (after passed).owner? heap.regions gap = some owner ∧
      (⟨gap, owner⟩ : Piece).Backed heap intervals := by
  have hdepth := h.at_depth ⟨Nat.le_refl _, h.gap⟩
  obtain ⟨hclear, hlent⟩ := husable
  have hcollision : ¬ 0 < (after passed).depth.collision := fun hpos =>
    hclear ((hdepth.pos_iff .collision).1 hpos)
  have hhead := hdepth.pos_iff .regionHead
  have hbody := hdepth.pos_iff .regionBody
  simp only [Depth.count] at hhead hbody
  unfold owner?
  rw [if_neg hcollision]
  by_cases hoverHead : Over intervals .regionHead gap.start
  · obtain ⟨index, r, e, htracked, hr, hoffer, hcovers⟩ :=
      h.exists_offer hv hshows (.inl rfl) hoverHead
    refine ⟨r.owner .regionHead gap.start, ?_, .region (List.mem_of_getElem? hr)
      ⟨.regionHead, e, hoffer, hcovers, rfl⟩⟩
    rw [if_pos (hhead.2 hoverHead), head_after, htracked]
    simp [hr, Region.owner]
  rw [if_neg (fun hpos => hoverHead (hhead.1 hpos))]
  by_cases hoverBody : Over intervals .regionBody gap.start
  · obtain ⟨index, r, e, htracked, hr, hoffer, hcovers⟩ :=
      h.exists_offer hv hshows (.inr rfl) hoverBody
    refine ⟨r.owner .regionBody gap.start, ?_, .region (List.mem_of_getElem? hr)
      ⟨.regionBody, e, hoffer, hcovers, rfl⟩⟩
    rw [if_pos (hbody.2 hoverBody), body_after, htracked]
    simp [hr, Region.owner]
  rw [if_neg (fun hpos => hoverBody (hbody.1 hpos))]
  have hlends : (after passed).depth.lendsFirmware = true :=
    hdepth.lendsFirmware_iff.2 ((hlent.resolve_left hoverHead).resolve_left hoverBody)
  refine ⟨.firmware, if_pos hlends, .firmware rfl ?_⟩
  intro x hx
  exact (h.at_depth hx).lendsFirmware_iff.1 hlends

end Cursor

/-! ### The pieces of a placement -/

/-- Pieces that tile what is between two bounds, that their owners can lend, and of which none
continues the one before it. -/
structure Composed (heap : Heap) (intervals : List Interval) (lo hi : Nat) (pieces : List Piece) :
    Prop where
  tile : Extent.Tile lo hi (pieces.map (·.extent))
  backed : ∀ p ∈ pieces, p.Backed heap intervals
  chain : pieces.IsChain fun p q => continues p.owner q.owner = false

namespace Composed

variable {heap : Heap} {intervals : List Interval} {lo mid hi : Nat} {pieces : List Piece}
  {p q : Piece}

/-- Pieces of one owner that touch are one piece of that owner. -/
theorem backed_join (hv : heap.Valid) (hp : p.Backed heap intervals)
    (hq : q.Backed heap intervals) (htouch : p.extent.stop = q.extent.start)
    (hne : q.extent.start < q.extent.stop) (hcont : continues p.owner q.owner = true) :
    ({ p with extent := p.extent.join q.extent htouch } : Piece).Backed heap intervals := by
  cases hp with
  | @region r hr hback =>
      have hid := hback.region?
      cases hq with
      | firmware howner _ =>
          rw [howner] at hcont
          cases hp : p.owner <;> simp [hp, continues] at hcont
          simp [hp, Owner.region?] at hid
      | @region r' hr' hback' =>
          have hid' := hback'.region?
          have hsame : r.id = r'.id := by
            cases hp : p.owner <;> cases hq : q.owner <;>
              simp_all [continues, Owner.region?]
          obtain rfl := hv.eq_of_id_eq hr hr' hsame
          exact .region hr (hback.join hback' (hv.regions r hr) htouch hne).2
  | firmware howner hall =>
      have hfw : q.owner = .firmware := by
        rw [howner] at hcont
        exact (beq_iff_eq.1 hcont).symm
      cases hq with
      | region _ hback' =>
          have hid' := hback'.region?
          simp [hfw, Owner.region?] at hid'
      | firmware _ hall' =>
          refine .firmware howner fun x hx => ?_
          by_cases hlt : x < p.extent.stop
          · exact hall x ⟨hx.1, hlt⟩
          · exact hall' x ⟨htouch ▸ Nat.le_of_not_lt hlt, hx.2⟩

/-- A piece behind the others joins the last of them, or goes to their end. -/
theorem append (hv : heap.Valid) (h : Composed heap intervals lo mid pieces)
    (hq : q.Backed heap intervals) (hmid : q.extent.start = mid)
    (hne : q.extent.start < q.extent.stop) :
    Composed heap intervals lo q.extent.stop (Piece.append pieces q) := by
  unfold Piece.append
  cases hlast : pieces.getLast? with
  | none =>
      cases List.getLast?_eq_none_iff.1 hlast
      have hlo : lo = mid := h.tile
      exact ⟨⟨hmid.trans hlo.symm, hne, rfl⟩, by simpa using hq, .singleton q⟩
  | some last =>
      obtain ⟨init, rfl⟩ := List.getLast?_eq_some_iff.1 hlast
      obtain ⟨htile, hbacked, hchain⟩ := h
      rw [List.map_append, Extent.tile_append] at htile
      obtain ⟨m, hinit, hm, hlt, hstop⟩ := htile
      have htouch : last.extent.stop = q.extent.start := Eq.trans hstop hmid.symm
      obtain ⟨hfront, -, hjoint⟩ := List.isChain_append.1 hchain
      have hback := hbacked last (List.mem_append_right _ List.mem_cons_self)
      dsimp only
      split
      case isTrue hcont =>
        have hgrown : last.extent.start < q.extent.stop := Nat.lt_trans hlt (htouch ▸ hne)
        rw [List.dropLast_concat]
        refine ⟨?_, ?_, List.isChain_append.2 ⟨hfront, .singleton _, ?_⟩⟩
        · rw [List.map_append]
          exact Extent.tile_append.2 ⟨m, hinit, hm, hgrown, rfl⟩
        · intro p hp
          rcases List.mem_append.1 hp with hp | hp
          · exact hbacked p (List.mem_append_left _ hp)
          · cases List.mem_singleton.1 hp
            exact backed_join hv hback hq hcont.1 hne hcont.2
        · -- The joined piece has the owner of the last one.
          intro p hp p' hp'
          cases Option.some.inj hp'
          exact hjoint p hp last rfl
      case isFalse hcont =>
        have hnot : continues last.owner q.owner = false :=
          Bool.eq_false_iff.2 fun hcontinues => hcont ⟨htouch, hcontinues⟩
        refine ⟨?_, ?_, List.isChain_append.2 ⟨hchain, .singleton _, ?_⟩⟩
        · rw [List.map_append, List.map_append, List.append_assoc]
          exact Extent.tile_append.2 ⟨m, hinit, hm, hlt, htouch.symm, hne, rfl⟩
        · intro p hp
          rcases List.mem_append.1 hp with hp | hp
          · exact hbacked p hp
          · cases List.mem_singleton.1 hp
            exact hq
        · intro p hp p' hp'
          rw [List.getLast?_concat] at hp
          cases Option.some.inj hp
          cases Option.some.inj hp'
          exact hnot

/-- The heap can lend the pieces, as far as it is the owner of them. -/
theorem grants (hv : heap.Valid) (h : Composed heap intervals lo hi pieces) :
    ∀ p ∈ pieces, heap.Grants p := by
  intro p hp
  have hne := (h.tile.bounds.2 _ (List.mem_map_of_mem hp)).2.1
  have hbacked := h.backed p hp
  cases hbacked with
  | region hr hback => exact hv.grants hr hback hne
  | firmware howner _ => simp only [Heap.Grants, howner]

/-- A piece of a region has another one behind it only where the region ends. -/
theorem stop_le_of_next (hv : heap.Valid) (hshows : Shows intervals heap.regions) {r : Region}
    (hr : r ∈ heap.regions) (hp : r.Backs p) (hq : q.Backed heap intervals)
    (htouch : p.extent.stop = q.extent.start) (hne : q.extent.start < q.extent.stop)
    (hnot : continues p.owner q.owner = false) : r.stop ≤ p.extent.stop := by
  by_contra hlt
  have hinside := hp.inside (hv.regions r hr)
  have hle := p.extent.start_le_stop
  cases hq with
  | firmware howner hall =>
      -- All of the region is masked.
      have hbyte : p.extent.stop ∈ q.extent := ⟨Nat.le_of_eq htouch.symm, htouch ▸ hne⟩
      refine (hall _ hbyte).2 (hshows.mask r hr _ ?_)
      have hbounds := (hv.regions r hr).extent_bounds
      rw [Extent.mem_iff]
      omega
  | @region r' hr' hback =>
      have hinside' := hback.inside (hv.regions r' hr')
      have hsame : r.id = r'.id := by
        by_contra hid
        have := hv.stop_le_or hr hr' hid
        omega
      obtain rfl := hv.eq_of_id_eq hr hr' hsame
      have hcont := (hp.join hback (hv.regions r hr) htouch hne).1
      rw [hnot] at hcont
      cases hcont

/-- **No region has two pieces** of a placement. -/
theorem distinct (hv : heap.Valid) (hshows : Shows intervals heap.regions)
    (h : Composed heap intervals lo hi pieces) :
    pieces.Pairwise fun p q => ∀ id, p.owner.region? = some id → q.owner.region? ≠ some id := by
  obtain ⟨htile, hbacked, hchain⟩ := h
  induction pieces generalizing lo with
  | nil => exact .nil
  | cons p rest ih =>
      obtain ⟨-, -, hrest⟩ := htile
      refine .cons ?_ (ih hrest (fun q hq => hbacked q (List.mem_cons_of_mem _ hq)) hchain.tail)
      intro q hq id hid hid'
      have hbehind : p.extent.stop ≤ q.extent.start ∧ q.extent.start < q.extent.stop ∧
          q.extent.stop ≤ hi := hrest.bounds.2 q.extent (List.mem_map_of_mem hq)
      have hregion {p : Piece} (hp : p.Backed heap intervals) (hid : p.owner.region? = some id) :
          ∃ r ∈ heap.regions, r.id = id ∧ r.Backs p := by
        cases hp with
        | @region r hr hback => exact ⟨r, hr, Option.some.inj (hback.region?.symm.trans hid), hback⟩
        | firmware howner _ =>
            rw [howner] at hid
            cases hid
      obtain ⟨r, hr, hrid, hback⟩ := hregion (hbacked p List.mem_cons_self) hid
      obtain ⟨r', hr', hrid', hback'⟩ := hregion (hbacked q (List.mem_cons_of_mem _ hq)) hid'
      obtain rfl := hv.eq_of_id_eq hr hr' (hrid.trans hrid'.symm)
      -- The region ends with its first piece, so it has none behind that.
      have hstop : r.stop ≤ p.extent.stop := by
        cases rest with
        | nil => cases hq
        | cons next rest =>
            exact stop_le_of_next hv hshows hr hback (hbacked next (by simp)) hrest.1.symm
              hrest.2.1 (List.isChain_cons_cons.1 hchain).1
      have hinside := hback'.inside (hv.regions r hr)
      omega

end Composed

/-! ### The division of a placement -/

namespace Cursor

variable {heap : Heap} {intervals : List Interval} {target : Extent}

/-- How much of the target lies below a position. -/
def reached (target : Extent) (position : Nat) : Nat := min (max position target.start) target.stop

theorem reached_of_stop_le {position : Nat} (h : target.stop ≤ position) :
    reached target position = target.stop :=
  Nat.min_eq_right (Nat.le_trans h (Nat.le_max_left _ _))

/-- **Gathering goes on to the end** while the last event lies behind the target. -/
theorem gather_complete (hv : heap.Valid) (hshows : Shows intervals heap.regions)
    (husable : ∀ x ∈ target, Usable intervals x) {passed ahead : List Event} {e : Event}
    {pieces : List Piece}
    (hperm : (passed ++ e :: ahead).Perm (intervals.flatMap (·.events)))
    (hsorted : (passed ++ e :: ahead).Pairwise fun a b => a.position ≤ b.position)
    (hlast : ∃ a ∈ e :: ahead, target.stop ≤ a.position)
    (h : Composed heap intervals target.start (reached target e.position) pieces) :
    ∃ pieces', gather heap.regions target (after passed) pieces (e :: ahead) = (pieces', none) ∧
      Composed heap intervals target.start target.stop pieces' := by
  induction ahead generalizing passed e pieces with
  | nil =>
      obtain ⟨a, ha, hstop⟩ := hlast
      cases List.mem_singleton.1 ha
      exact ⟨pieces, rfl, reached_of_stop_le hstop ▸ h⟩
  | cons next rest ih =>
      have hsplit : passed ++ e :: next :: rest = (passed ++ [e]) ++ next :: rest := by simp
      rw [hsplit] at hperm hsorted
      obtain ⟨hpassed, hahead⟩ := around_of_ordered hsorted
      have hle : e.position ≤ next.position :=
        (List.pairwise_append.1 hsorted).2.2 e (by simp) next List.mem_cons_self
      rw [gather]
      dsimp only
      rw [← after_concat]
      by_cases hstop : target.stop ≤ e.position
      · rw [if_pos hstop]
        exact ⟨pieces, rfl, reached_of_stop_le hstop ▸ h⟩
      have hlast' : ∃ a ∈ next :: rest, target.stop ≤ a.position := by
        obtain ⟨a, ha, hbehind⟩ := hlast
        rcases List.mem_cons.1 ha with rfl | ha
        · exact absurd hbehind hstop
        · exact ⟨a, ha, hbehind⟩
      have step {pieces : List Piece} := @ih (passed ++ [e]) next pieces hperm hsorted hlast'
      have htarget := target.start_le_stop
      rw [if_neg hstop]
      by_cases hgap : max e.position target.start < min next.position target.stop
      · -- The next event lies inside the target or behind it, so the gap ends where that is.
        have hlt : min next.position target.stop < Address.limit :=
          Nat.lt_of_le_of_lt (Nat.min_le_right _ _) target.stop_lt
        have hfrom : reached target e.position = max e.position target.start :=
          Nat.min_eq_left (by omega)
        have hto : reached target next.position = min next.position target.stop := by
          rw [reached, Nat.max_eq_left (by omega)]
        rw [Extent.filter_ofBounds?_of_lt hgap hlt]
        have haround : Around intervals ⟨_, _, Nat.le_of_lt hgap, hlt⟩ (passed ++ [e])
            (next :: rest) := by
          refine ⟨hperm, hsorted, ?_, ?_, hgap⟩
          · exact fun a ha => Nat.le_trans (hpassed a ha) (Nat.le_max_left _ _)
          · exact fun a ha => Nat.le_trans (Nat.min_le_left _ _) (hahead a ha)
        obtain ⟨owner, howner, hbacked⟩ := haround.exists_owner hv hshows
          (husable _ ⟨Nat.le_max_right _ _, Nat.lt_of_lt_of_le hgap (Nat.min_le_right _ _)⟩)
        simp only [howner]
        refine step ?_
        rw [hto]
        exact h.append hv hbacked hfrom.symm hgap
      · have hsame : reached target e.position = reached target next.position := by
          simp only [reached]
          omega
        rw [Extent.filter_ofBounds?_of_le (Nat.le_of_not_lt hgap)]
        exact step (hsame ▸ h)

end Cursor

section Division

variable {heap : Heap} {intervals : List Interval} {events : List Event} {target : Extent}

/-- **A placement whose every byte can be borrowed is divided to the end**, into pieces that their
owners can lend. -/
theorem Division.ofEvents_complete (hv : heap.Valid) (hshows : Shows intervals heap.regions)
    (hperm : events.Perm (intervals.flatMap (·.events)))
    (hsorted : events.Pairwise fun a b => a.position ≤ b.position)
    (hne : target.start < target.stop) (husable : ∀ x ∈ target, Usable intervals x) :
    ∃ pieces, ofEvents heap.regions target events = ⟨pieces, .ok ()⟩ ∧
      Composed heap intervals target.start target.stop pieces := by
  obtain ⟨⟨a, ha, hlo⟩, -⟩ :=
    exists_events_of_usable hperm (husable target.start ⟨Nat.le_refl _, hne⟩)
  obtain ⟨-, b, hb, hhi⟩ :=
    exists_events_of_usable hperm (husable (target.stop - 1) ⟨by omega, by omega⟩)
  cases events with
  | nil => cases ha
  | cons e rest =>
      have hfirst : e.position ≤ target.start := by
        rcases List.mem_cons.1 ha with rfl | ha
        · exact hlo
        · exact Nat.le_trans ((List.pairwise_cons.1 hsorted).1 a ha) hlo
      have hreached : Cursor.reached target e.position = target.start := by
        rw [Cursor.reached, Nat.max_eq_right hfirst, Nat.min_eq_left (Nat.le_of_lt hne)]
      obtain ⟨pieces, hgather, hcomposed⟩ :=
        @Cursor.gather_complete heap intervals target hv hshows husable [] rest e [] hperm hsorted
          ⟨b, hb, by omega⟩ ⟨hreached.symm, by simp, .nil⟩
      refine ⟨pieces, ?_, hcomposed⟩
      have hgather' : Cursor.gather heap.regions target {} [] (e :: rest) = (pieces, none) :=
        hgather
      have htotal := hcomposed.tile.total_add
      have hlength : target.length = target.stop - target.start := rfl
      have hlt := target.stop_lt
      have hfits : ¬ Address.limit ≤ target.length := by omega
      have hcovered : Extent.total (pieces.map (·.extent)) = target.length := by omega
      have hhead : pieces.head?.any (fun piece => piece.extent.start == target.start) = true := by
        cases pieces with
        | nil => exact absurd hcomposed.tile (Nat.ne_of_lt hne)
        | cons p rest => simpa using hcomposed.tile.1
      simp only [ofEvents, hgather', hcovered, if_neg hfits, hhead, and_self, if_true]

end Division

end Staging
