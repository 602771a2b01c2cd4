import Staging.Proofs.Heap.Lending
import Staging.Sweep.Basic

/-!
# What a region offers

A region offers its head room and the free spans that the header does not reach (`Region.Offers`),
and shows its offers and a mask over all of itself to a sweep (`mem_intervals_iff`).
Two offers of a region are the same one or have a gap between them (`Offers.same_or_detached`),
since no two free spans of a body touch and the header needs the end of the first.  What lies inside
of an offer can be lent: a part of the head room by advancing the header up to its end
(`advance_of_headRoom`), and a part of a free span by handing it out (`handOut_of_free`).
-/

namespace Staging

/-- There is a gap between the extents, not even their ends touch. -/
def Extent.Detached (a b : Extent) : Prop := a.stop < b.start ∨ b.stop < a.start

/-- No two free spans of a body touch. -/
theorem Span.free_pairwise {lo hi : Nat} {spans : List Span} (htile : Tile lo hi spans)
    (hsep : Separated spans) :
    spans.Pairwise fun s t => s.isFree = true → t.isFree = true → s.stop < t.start := by
  induction spans generalizing lo with
  | nil => exact .nil
  | cons s rest ih =>
      obtain ⟨-, -, hrest⟩ := htile
      refine .cons ?_ (ih hrest hsep.tail)
      intro t ht hs hfree
      -- Between two free spans there is one that is allocated, and not empty.
      cases rest with
      | nil => cases ht
      | cons u rest =>
          obtain ⟨hstart, hlt, hbehind⟩ := hrest
          rcases List.mem_cons.1 ht with rfl | ht
          · exact absurd (hsep.not_free_next hs) (by simp [hfree])
          · exact Nat.lt_of_lt_of_le (hstart ▸ hlt) (hbehind.bounds t ht).1

/-- The region that owns a piece. -/
def Owner.region? : Owner → Option RegionId
  | .regionHead id => some id
  | .regionBody id => some id
  | .firmware => none

namespace Region

variable {r : Region}

/-- The spans of the body that a header does not reach while there is head room. -/
def bodySpans (r : Region) : List Span :=
  match r.headRoom with
  | some _ => r.spans.tail
  | none => r.spans

/-- The memory that a region offers to a search, and as what. -/
inductive Offers (r : Region) : IntervalKind → Extent → Prop where
  | head {room : Extent} (h : r.headRoom = some room) : r.Offers .regionHead room
  | body {s : Span} (hs : s ∈ r.bodySpans) (hfree : s.isFree = true) :
      r.Offers .regionBody s.extent

theorem mem_of_mem_bodySpans {s : Span} (h : s ∈ r.bodySpans) : s ∈ r.spans := by
  unfold bodySpans at h
  split at h
  · exact List.mem_of_mem_tail h
  · exact h

/-- What lies in the head room but behind the header is a part of the first span. -/
theorem covers_of_headRoom {room piece : Extent} (h : r.headRoom = some room)
    (hbehind : r.bodyBase ≤ piece.start) (hcovers : room.covers piece = true) :
    ∃ first ∈ r.spans, first.isFree = true ∧ first.extent.covers piece = true := by
  obtain ⟨-, -, -, first, rest, hspans, hfree, hstart, hfits⟩ := headRoom_bounds h
  obtain ⟨-, hhi⟩ := Extent.covers_iff.1 hcovers
  refine ⟨first, hspans ▸ List.mem_cons_self, hfree, Extent.covers_iff.2 ⟨?_, ?_⟩⟩
  · exact Nat.le_trans (Nat.le_of_eq hstart) hbehind
  · simp only [headerSize, Span.stop] at hfits
    omega

/-! ### The intervals of a region -/

theorem mem_freeSpans_iff {spans : List Span} {kind : IntervalKind} {e : Extent} :
    (kind, e) ∈ intervals.freeSpans spans ↔
      kind = .regionBody ∧ ∃ s ∈ spans, s.isFree = true ∧ s.extent = e := by
  constructor
  · intro hmem
    obtain ⟨s, hs, hpair⟩ := List.mem_map.1 hmem
    cases hpair
    obtain ⟨hs, hfree⟩ := List.mem_filter.1 hs
    exact ⟨rfl, s, hs, hfree, rfl⟩
  · rintro ⟨rfl, s, hs, hfree, rfl⟩
    exact List.mem_map.2 ⟨s, List.mem_filter.2 ⟨hs, hfree⟩, rfl⟩

/-- **The intervals of a region** are its mask and its offers. -/
theorem mem_intervals_iff {index : Nat} {i : Interval} :
    i ∈ r.intervals index ↔ i.region = some index ∧
      (i.kind = .firmwareBlock ∧ i.extent = r.extent ∨ r.Offers i.kind i.extent) := by
  obtain ⟨kind, extent, region⟩ := i
  have hbody : (kind, extent) ∈ intervals.freeSpans r.bodySpans → r.Offers kind extent := by
    intro hmem
    obtain ⟨rfl, s, hs, hfree, rfl⟩ := mem_freeSpans_iff.1 hmem
    exact .body hs hfree
  constructor
  · intro h
    obtain ⟨⟨kind', extent'⟩, hmem, hsame⟩ := List.mem_map.1 h
    cases hsame
    refine ⟨rfl, ?_⟩
    rcases List.mem_cons.1 hmem with hmask | hmem
    · cases hmask
      exact .inl ⟨rfl, rfl⟩
    right
    unfold bodySpans at hbody
    split at hmem
    case h_1 room hroom =>
      rw [hroom] at hbody
      rcases List.mem_cons.1 hmem with hhead | hmem
      · cases hhead
        exact .head hroom
      · exact hbody hmem
    case h_2 hroom =>
      rw [hroom] at hbody
      exact hbody hmem
  · rintro ⟨hregion, ⟨hkind, hextent⟩ | hoffer⟩
    · cases hregion
      cases hkind
      cases hextent
      exact List.mem_map.2 ⟨(.firmwareBlock, r.extent), List.mem_cons_self, rfl⟩
    · cases hregion
      refine List.mem_map.2 ⟨(kind, extent), List.mem_cons_of_mem _ ?_, rfl⟩
      cases hoffer with
      | head hroom =>
          rw [hroom]
          exact List.mem_cons_self
      | @body s hs hfree =>
          have hmem := mem_freeSpans_iff.2 ⟨rfl, s, hs, hfree, rfl⟩
          unfold bodySpans at hmem
          split
          case h_1 room hroom =>
            rw [hroom] at hmem
            exact List.mem_cons_of_mem _ hmem
          case h_2 hroom =>
            rw [hroom] at hmem
            exact hmem

namespace Offers

variable {kind kind' : IntervalKind} {e e' : Extent}

/-- What a region offers has a byte and lies inside of the region. -/
theorem inside (h : r.Offers kind e) (hr : r.Valid) :
    r.base ≤ e.start ∧ e.start < e.stop ∧ e.stop ≤ r.stop := by
  have hbounds := hr.bounds
  cases h with
  | head hroom =>
      obtain ⟨hstart, hlt, -, first, rest, hspans, -, -, hfits⟩ := headRoom_bounds hroom
      have hfirst := hr.tile.bounds first (hspans ▸ List.mem_cons_self)
      omega
  | @body s hs hfree =>
      have hspan := hr.tile.bounds s (mem_of_mem_bodySpans hs)
      simp only [Span.start, Span.stop] at hspan
      omega

/-- The body begins behind the header. -/
theorem body_inside (h : r.Offers .regionBody e) (hr : r.Valid) : r.bodyBase ≤ e.start := by
  cases h with
  | body hs _ => exact (hr.tile.bounds _ (mem_of_mem_bodySpans hs)).1

/-- The head room ends short of the region. -/
theorem head_inside (h : r.Offers .regionHead e) (hr : r.Valid) : e.stop < r.stop := by
  cases h with
  | head hroom =>
      obtain ⟨-, -, -, first, rest, hspans, -, -, hfits⟩ := headRoom_bounds hroom
      have hfirst := hr.tile.bounds first (hspans ▸ List.mem_cons_self)
      simp only [headerSize] at hfits
      omega

/-- The head room is below all other offers. -/
theorem head_lt_body (h : r.Offers .regionHead e) (h' : r.Offers .regionBody e') (hr : r.Valid) :
    e.stop < e'.start := by
  cases h with
  | head hroom =>
      obtain ⟨-, -, -, first, rest, hspans, -, -, hfits⟩ := headRoom_bounds hroom
      cases h' with
      | @body s hs _ =>
          simp only [bodySpans, hroom, hspans, List.tail_cons] at hs
          have htile := hr.tile
          rw [hspans] at htile
          have hstart := (htile.2.2.bounds s hs).1
          simp only [headerSize, Span.start] at hfits hstart
          omega

/-- **Two offers of a region** are the same, or there is a gap between them. -/
theorem same_or_detached (h : r.Offers kind e) (h' : r.Offers kind' e') (hr : r.Valid) :
    kind = kind' ∧ e = e' ∨ e.Detached e' := by
  cases h with
  | head hroom =>
      cases h' with
      | head hroom' => exact .inl ⟨rfl, Option.some.inj (hroom.symm.trans hroom')⟩
      | body hs hfree => exact .inr (.inl (head_lt_body (.head hroom) (.body hs hfree) hr))
  | @body s hs hfree =>
      cases h' with
      | head hroom => exact .inr (.inr (head_lt_body (.head hroom) (.body hs hfree) hr))
      | @body t ht hfree' =>
          have hoff := Span.free_pairwise hr.tile hr.separated
          by_cases hsame : s = t
          · exact .inl ⟨rfl, hsame ▸ rfl⟩
          · have hs := mem_of_mem_bodySpans hs
            have ht := mem_of_mem_bodySpans ht
            rcases rel_or_rel_of_pairwise hoff hs ht hsame with hlt | hlt
            · exact .inr (.inl (hlt hfree hfree'))
            · exact .inr (.inr (hlt hfree' hfree))

end Offers

/-! ### Lending what was offered -/

/-- **A header can advance** to the end of every part of its head room. -/
theorem advance_of_headRoom {room : Extent} {newBase : Nat} (hroom : r.headRoom = some room)
    (hlo : r.base < newBase) (hhi : newBase ≤ room.stop) :
    ∃ m r', r.advance newBase = .ok m r' := by
  obtain ⟨hstart, -, halign, first, rest, hspans, hfree, -, hfits⟩ := headRoom_bounds hroom
  have hlt := first.extent.stop_lt
  simp only [headerAlign, headerSize, Span.stop] at halign hfits
  have hround : Address.ceilTo? headerAlign newBase = some ((newBase + 15) / 16 * 16) :=
    ceilTo?_headerAlign.2 ⟨by omega, rfl⟩
  have hle := newHead_le_of_headRoom hroom hspans hhi hround
  have hword := Nat.lt_of_le_of_lt hle hlt
  have hinside : ¬ (newBase ≤ room.start ∨ room.stop < newBase) := by omega
  have hread : Index.read r.spans 0 = .ok first := by rw [hspans]; rfl
  simp only [advance, hroom, if_neg hinside, hround, dif_pos hword, hread, Outcome.orTrap_ok,
    Extent.ofBounds?_of_le hle hlt]
  rw [hspans]
  split <;> exact ⟨_, _, rfl⟩

/-- **A part of a free span** can be handed out. -/
theorem handOut_of_free {s : Span} {piece : Extent} (hr : r.Valid) (hs : s ∈ r.spans)
    (hfree : s.isFree = true) (hne : piece.start < piece.stop)
    (hcovers : s.extent.covers piece = true) :
    ∃ index t r', r.indexAt? piece.start = some index ∧ r.handOut index piece = .ok t r' := by
  obtain ⟨before, after, hsplit⟩ := List.append_of_mem hs
  have htile := hr.tile
  rw [hsplit] at htile
  obtain ⟨hlo, hhi⟩ := Extent.covers_iff.1 hcovers
  have hindex : r.indexAt? piece.start = some before.length := by
    rw [indexAt?, hsplit]
    exact htile.indexAt? hlo (Nat.lt_of_lt_of_le hne hhi)
  exact ⟨before.length, _, _, hindex, handOut_of_spans hsplit hfree hne hcovers⟩

/-! ### Parts of offers -/

/-- The owner of a part of an offer that begins at this address. -/
def owner (r : Region) (kind : IntervalKind) (start : Nat) : Owner :=
  if kind = .regionHead ∧ start < r.bodyBase then .regionHead r.id else .regionBody r.id

/-- The owner of a part of an offer continues the owner of what lies below it. -/
theorem continues_owner (r : Region) (kind : IntervalKind) {a b : Nat} (h : a ≤ b) :
    Piece.continues (r.owner kind a) (r.owner kind b) = true := by
  rw [owner, owner]
  by_cases hhead : kind = .regionHead ∧ a < r.bodyBase
  · rw [if_pos hhead]
    split <;> simp [Piece.continues]
  · have hbody : ¬ (kind = .regionHead ∧ b < r.bodyBase) := fun hlt => hhead ⟨hlt.1, by omega⟩
    rw [if_neg hhead, if_neg hbody]
    simp [Piece.continues]

/-- The piece is a part of an offer of the region, and has the owner that goes with it. -/
def Backs (r : Region) (p : Piece) : Prop :=
  ∃ kind e, r.Offers kind e ∧ e.covers p.extent = true ∧ p.owner = r.owner kind p.extent.start

namespace Backs

variable {p q : Piece}

theorem region? (h : r.Backs p) : p.owner.region? = some r.id := by
  obtain ⟨kind, e, -, -, howner⟩ := h
  rw [howner, owner]
  split <;> rfl

theorem inside (h : r.Backs p) (hr : r.Valid) :
    r.base ≤ p.extent.start ∧ p.extent.stop ≤ r.stop := by
  obtain ⟨kind, e, hoffer, hcovers, -⟩ := h
  have hinside := hoffer.inside hr
  have hpart := Extent.covers_iff.1 hcovers
  omega

/-- **Touching pieces of one region** are parts of one offer: one continues the other, and together
they are a part as well. -/
theorem join (h : r.Backs p) (h' : r.Backs q) (hr : r.Valid)
    (htouch : p.extent.stop = q.extent.start) (hq : q.extent.start < q.extent.stop) :
    Piece.continues p.owner q.owner = true ∧
      r.Backs { p with extent := p.extent.join q.extent htouch } := by
  obtain ⟨kind, e, hoffer, hcovers, howner⟩ := h
  obtain ⟨kind', e', hoffer', hcovers', howner'⟩ := h'
  have hpart := Extent.covers_iff.1 hcovers
  have hpart' := Extent.covers_iff.1 hcovers'
  have hle := p.extent.start_le_stop
  rcases hoffer.same_or_detached hoffer' hr with ⟨rfl, rfl⟩ | hdetached
  · refine ⟨?_, kind, e, hoffer, Extent.covers_iff.2 ⟨hpart.1, hpart'.2⟩, howner⟩
    rw [howner, howner']
    exact r.continues_owner kind (htouch ▸ hle)
  · rcases hdetached with hgap | hgap <;> omega

end Backs

end Region

namespace Heap

/-- The heap can lend the piece, as far as it is the owner of it. -/
def Grants (heap : Heap) (p : Piece) : Prop :=
  match p.owner with
  | .regionHead id => ∃ m heap', heap.advance id p.extent = .ok m heap'
  | .regionBody id => ∃ s heap', heap.handOut id p.extent = .ok s heap'
  | .firmware => True

/-- **A part of an offer can be lent.** -/
theorem Valid.grants {heap : Heap} (hv : heap.Valid) {r : Region} (hr : r ∈ heap.regions)
    {p : Piece} (h : r.Backs p) (hne : p.extent.start < p.extent.stop) : heap.Grants p := by
  obtain ⟨kind, e, hoffer, hcovers, howner⟩ := h
  have hvalid := hv.regions r hr
  have hfind := hv.region?_id hr
  obtain ⟨hlo, hhi⟩ := Extent.covers_iff.1 hcovers
  have hbody {s : Span} (hs : s ∈ r.spans) (hfree : s.isFree = true)
      (hpart : s.extent.covers p.extent = true) (hid : p.owner = .regionBody r.id) :
      heap.Grants p := by
    obtain ⟨index, t, r', hindex, hout⟩ := Region.handOut_of_free hvalid hs hfree hne hpart
    simp only [Grants, hid]
    refine ⟨t, heap.setRegion r', withRegion_eq_ok_iff.2 ⟨r, r', hfind, ?_, rfl⟩⟩
    rw [hindex]
    exact hout
  cases hoffer with
  | head hroom =>
      obtain ⟨hstart, -, -, -⟩ := Region.headRoom_bounds hroom
      by_cases hbelow : p.extent.start < r.bodyBase
      · have hid : p.owner = .regionHead r.id := by simpa [Region.owner, hbelow] using howner
        have hlt : r.base < p.extent.stop := by omega
        obtain ⟨m, r', hadv⟩ := Region.advance_of_headRoom hroom hlt hhi
        simp only [Grants, hid]
        exact ⟨m, heap.setRegion r', withRegion_eq_ok_iff.2 ⟨r, r', hfind, hadv, rfl⟩⟩
      · have hid : p.owner = .regionBody r.id := by simpa [Region.owner, hbelow] using howner
        obtain ⟨first, hfirst, hfree, hpart⟩ :=
          Region.covers_of_headRoom hroom (Nat.not_lt.1 hbelow) hcovers
        exact hbody hfirst hfree hpart hid
  | @body s hs hfree =>
      have hid : p.owner = .regionBody r.id := by simpa [Region.owner] using howner
      exact hbody (Region.mem_of_mem_bodySpans hs) hfree hcovers hid

/-- What a heap can lend depends on the region of the piece only. -/
theorem Grants.of_region? {heap heap' : Heap} {p : Piece} (h : heap.Grants p)
    (hsame : ∀ id, p.owner.region? = some id → heap'.region? id = heap.region? id) :
    heap'.Grants p := by
  obtain ⟨extent, owner⟩ := p
  cases owner with
  | regionHead id =>
      obtain ⟨m, _, hadv⟩ := h
      obtain ⟨r, r', hfind, hchange, rfl⟩ := withRegion_eq_ok_iff.1 hadv
      exact ⟨m, _, withRegion_eq_ok_iff.2 ⟨r, r', (hsame id rfl).trans hfind, hchange, rfl⟩⟩
  | regionBody id =>
      obtain ⟨s, _, hout⟩ := h
      obtain ⟨r, r', hfind, hchange, rfl⟩ := withRegion_eq_ok_iff.1 hout
      exact ⟨s, _, withRegion_eq_ok_iff.2 ⟨r, r', (hsame id rfl).trans hfind, hchange, rfl⟩⟩
  | firmware => trivial

end Heap

end Staging
