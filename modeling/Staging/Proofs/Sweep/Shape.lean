import Staging.Proofs.Sweep.Owners

/-!
# The shape of a placement

A piece of a body has another one behind it only where its region ends, and there is none behind
the start of a region, since head rooms end short of their regions.  The firmware lends nothing
that a region masks, so behind its memory no body can begin.  So the owners of a placement ascend
from a body over the firmware to the start of a region (`Composed.shape`), and there are three of
them at most.
-/

namespace Staging

open Piece (continues)

/-- The place of an owner in a placement. -/
def Owner.rank : Owner → Nat
  | .regionBody _ => 0
  | .firmware => 1
  | .regionHead _ => 2

/-- The owners of one placement, in address order. -/
structure Owner.Shape (owners : List Owner) : Prop where
  ascending : owners.Pairwise fun a b => a.rank < b.rank
  distinct : owners.Pairwise fun a b => ∀ id, a.region? = some id → b.region? ≠ some id

namespace Region.Backs

variable {r : Region} {p : Piece} {id : RegionId}

/-- What is lent as the start of a region ends short of the region. -/
theorem stop_lt (h : r.Backs p) (hr : r.Valid) (hhead : p.owner = .regionHead id) :
    p.extent.stop < r.stop := by
  obtain ⟨kind, e, hoffer, hcovers, howner⟩ := h
  have hpart := Extent.covers_iff.1 hcovers
  rw [hhead, owner] at howner
  split at howner
  case isTrue hkind =>
    obtain ⟨rfl, -⟩ := hkind
    exact Nat.lt_of_le_of_lt hpart.2 (hoffer.head_inside hr)
  case isFalse => cases howner

/-- What is lent out of a body begins behind the header. -/
theorem bodyBase_le (h : r.Backs p) (hr : r.Valid) (hbody : p.owner = .regionBody id) :
    r.bodyBase ≤ p.extent.start := by
  obtain ⟨kind, e, hoffer, hcovers, howner⟩ := h
  have hpart := Extent.covers_iff.1 hcovers
  rw [hbody, owner] at howner
  split at howner
  case isTrue => cases howner
  case isFalse hnot =>
    cases hoffer with
    | head hroom => exact Nat.not_lt.1 fun hlt => hnot ⟨rfl, hlt⟩
    | body hs hfree => exact Nat.le_trans ((Offers.body hs hfree).body_inside hr) hpart.1

end Region.Backs

namespace Composed

variable {heap : Heap} {intervals : List Interval} {lo hi : Nat} {pieces : List Piece}
  {p q : Piece}

/-- The byte below a piece of a body is in the region as well, since the header is there. -/
theorem exists_region_below (hv : heap.Valid) (hq : q.Backed heap intervals) {id : RegionId}
    (hbody : q.owner = .regionBody id) (hne : q.extent.start < q.extent.stop) :
    ∃ r ∈ heap.regions, r.Backs q ∧ q.extent.start - 1 ∈ r.extent := by
  cases hq with
  | firmware howner _ => cases hbody.symm.trans howner
  | @region r hr hback =>
      have hvalid := hv.regions r hr
      have hstart := hback.bodyBase_le hvalid hbody
      have hinside := hback.inside hvalid
      have hbounds := hvalid.bounds
      have hextent := hvalid.extent_bounds
      refine ⟨r, hr, hback, Extent.mem_iff.2 ?_⟩
      omega

/-- **A piece that does not continue the one below it** has an owner of a higher rank. -/
theorem rank_lt_of_next (hv : heap.Valid) (hshows : Shows intervals heap.regions)
    (hp : p.Backed heap intervals) (hq : q.Backed heap intervals)
    (htouch : p.extent.stop = q.extent.start) (hpne : p.extent.start < p.extent.stop)
    (hqne : q.extent.start < q.extent.stop) (hnot : continues p.owner q.owner = false) :
    p.owner.rank < q.owner.rank := by
  have hbelow : q.extent.start - 1 ∈ p.extent := Extent.mem_iff.2 (by omega)
  cases hp with
  | @region r hr hback =>
      have hvalid := hv.regions r hr
      have hstop := stop_le_of_next hv hshows hr hback hq htouch hqne hnot
      have hid := hback.region?
      have hnotBody : ∀ id, q.owner ≠ .regionBody id := by
        intro id hbody
        obtain ⟨r', hr', hback', hmem⟩ := exists_region_below hv hq hbody hqne
        have hextent := (hv.regions r' hr').extent_bounds
        have hinside := hback.inside hvalid
        have hinside' := hback'.inside (hv.regions r' hr')
        rw [Extent.mem_iff] at hmem
        -- The two regions share the byte below, but the first one ends there.
        by_cases hsame : r.id = r'.id
        · obtain rfl := hv.eq_of_id_eq hr hr' hsame
          omega
        · have := hv.stop_le_or hr hr' hsame
          omega
      cases howner : p.owner with
      | regionBody id =>
          cases howner' : q.owner with
          | regionBody id' => exact absurd howner' (hnotBody id')
          | regionHead id' => exact Nat.zero_lt_two
          | firmware => exact Nat.zero_lt_one
      | regionHead id => exact absurd hstop (Nat.not_le.2 (hback.stop_lt hvalid howner))
      | firmware =>
          rw [howner] at hid
          cases hid
  | firmware howner hall =>
      rw [howner] at hnot ⊢
      cases howner' : q.owner with
      | regionHead id => exact Nat.one_lt_two
      | regionBody id =>
          obtain ⟨r', hr', -, hmem⟩ := exists_region_below hv hq howner' hqne
          exact absurd (hshows.mask r' hr' _ hmem) (hall _ hbelow).2
      | firmware => simp [howner', continues] at hnot

/-- **The owners of a placement have a shape**, and no region occurs twice among them. -/
theorem shape (hv : heap.Valid) (hshows : Shows intervals heap.regions)
    (h : Composed heap intervals lo hi pieces) : Owner.Shape (pieces.map (·.owner)) := by
  refine ⟨List.pairwise_map.2 ?_, List.pairwise_map.2 (h.distinct hv hshows)⟩
  let Below (p q : Piece) : Prop := p.owner.rank < q.owner.rank
  have : Trans Below Below Below := ⟨Nat.lt_trans⟩
  refine List.IsChain.pairwise (R := Below) ?_
  obtain ⟨htile, hbacked, hchain⟩ := h
  induction pieces generalizing lo with
  | nil => exact .nil
  | cons p rest ih =>
      obtain ⟨-, hpne, hrest⟩ := htile
      have hchain' := ih hrest (fun q hq => hbacked q (List.mem_cons_of_mem _ hq)) hchain.tail
      cases rest with
      | nil => exact .singleton p
      | cons q rest =>
          obtain ⟨hqstart, hqne, -⟩ := hrest
          have hlt := rank_lt_of_next hv hshows (hbacked p List.mem_cons_self)
            (hbacked q (by simp)) hqstart.symm hpne hqne (List.isChain_cons_cons.1 hchain).1
          exact .cons_cons hlt hchain'

end Composed

end Staging
