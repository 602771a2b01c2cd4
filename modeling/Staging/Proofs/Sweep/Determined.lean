import Staging.Proofs.Sweep.Owners

/-!
# Placements have one division

The owner of a piece is told by its first byte (`Piece.Backed.owner_eq`), and a piece ends only
where it must: what lies behind its first byte would continue it.  So all divisions of a placement
into pieces that their owners can lend, and of which none continues the one before it, are the same
(`Composed.unique`).
-/

namespace Staging

open Piece (continues)

variable {heap : Heap} {intervals intervals' : List Interval} {lo hi : Nat}

namespace Piece.Backed

variable {p q : Piece}

theorem congr (h : p.Backed heap intervals)
    (hlendable : ∀ x, Lendable intervals x ↔ Lendable intervals' x) : p.Backed heap intervals' := by
  cases h with
  | region hr hback => exact .region hr hback
  | firmware howner hall => exact .firmware howner fun x hx => (hlendable x).1 (hall x hx)

/-- What lies behind the first bytes of a piece has an owner that continues its owner. -/
theorem exists_rest (h : p.Backed heap intervals) {rest : Extent}
    (hinside : p.extent.covers rest = true) :
    ∃ owner, (⟨rest, owner⟩ : Piece).Backed heap intervals ∧ continues p.owner owner = true := by
  obtain ⟨hlo, hhi⟩ := Extent.covers_iff.1 hinside
  cases h with
  | firmware howner hall =>
      exact ⟨.firmware, .firmware rfl fun x hx => hall x (Extent.mem_of_covers hinside hx),
        by rw [howner]; rfl⟩
  | @region r hr hback =>
      obtain ⟨kind, e, hoffer, hcovers, howner⟩ := hback
      obtain ⟨hfrom, hto⟩ := Extent.covers_iff.1 hcovers
      have hpart : e.covers rest = true :=
        Extent.covers_iff.2 ⟨Nat.le_trans hfrom hlo, Nat.le_trans hhi hto⟩
      refine ⟨r.owner kind rest.start, .region hr ⟨kind, e, hoffer, hpart, rfl⟩, ?_⟩
      rw [howner]
      exact r.continues_owner kind hlo

variable (hv : heap.Valid) (hshows : Shows intervals heap.regions)
include hv hshows

/-- The firmware cannot lend what a region offers. -/
theorem not_lendable {r : Region} (hr : r ∈ heap.regions) (hback : r.Backs p)
    (hne : p.extent.start < p.extent.stop) : ¬ Lendable intervals p.extent.start := by
  intro hlendable
  have hinside := hback.inside (hv.regions r hr)
  have hbounds := (hv.regions r hr).extent_bounds
  refine hlendable.2 (hshows.mask r hr _ (Extent.mem_iff.2 ?_))
  omega

/-- **The owner of a piece** is told by its first byte. -/
theorem owner_eq (hp : p.Backed heap intervals) (hq : q.Backed heap intervals)
    (hstart : p.extent.start = q.extent.start) (hpne : p.extent.start < p.extent.stop)
    (hqne : q.extent.start < q.extent.stop) : p.owner = q.owner := by
  cases hp with
  | firmware howner hall =>
      cases hq with
      | firmware howner' _ => rw [howner, howner']
      | region hr hback =>
          have hlent := hall p.extent.start (Extent.mem_iff.2 ⟨Nat.le_refl _, hpne⟩)
          exact absurd (hstart ▸ hlent) (not_lendable hv hshows hr hback hqne)
  | @region r hr hback =>
      cases hq with
      | firmware howner' hall =>
          have hlent := hall q.extent.start (Extent.mem_iff.2 ⟨Nat.le_refl _, hqne⟩)
          exact absurd (hstart ▸ hlent) (not_lendable hv hshows hr hback hpne)
      | @region r' hr' hback' =>
          -- Both regions contain the byte, so they are one, and so are the two offers.
          have hinside := hback.inside (hv.regions r hr)
          have hinside' := hback'.inside (hv.regions r' hr')
          have hid : r.id = r'.id := by
            by_contra hne
            have := hv.stop_le_or hr hr' hne
            omega
          obtain rfl := hv.eq_of_id_eq hr hr' hid
          obtain ⟨kind, e, hoffer, hcovers, howner⟩ := hback
          obtain ⟨kind', e', hoffer', hcovers', howner'⟩ := hback'
          have hpart := Extent.covers_iff.1 hcovers
          have hpart' := Extent.covers_iff.1 hcovers'
          rcases hoffer.same_or_detached hoffer' (hv.regions r hr) with ⟨rfl, -⟩ | hdetached
          · rw [howner, howner', hstart]
          · rcases hdetached with hgap | hgap <;> omega

end Piece.Backed

namespace Composed

variable {p q : Piece} {ps qs : List Piece}

theorem congr (h : Composed heap intervals lo hi ps)
    (hlendable : ∀ x, Lendable intervals x ↔ Lendable intervals' x) :
    Composed heap intervals' lo hi ps :=
  ⟨h.tile, fun p hp => (h.backed p hp).congr hlendable, h.chain⟩

theorem rest (h : Composed heap intervals lo hi (p :: ps)) :
    Composed heap intervals p.extent.stop hi ps :=
  ⟨h.tile.2.2, fun q hq => h.backed q (List.mem_cons_of_mem _ hq), h.chain.tail⟩

variable (hv : heap.Valid) (hshows : Shows intervals heap.regions)
include hv hshows

/-- A piece does not end before another one of the same owner that begins where it does. -/
theorem stop_le (h : Composed heap intervals lo hi (p :: ps))
    (hq : q.Backed heap intervals) (hstart : q.extent.start = lo) (hstop : q.extent.stop ≤ hi)
    (howner : p.owner = q.owner) : q.extent.stop ≤ p.extent.stop := by
  by_contra hlt
  have hlt := Nat.not_le.1 hlt
  have hlo : p.extent.start = lo := h.tile.1
  have hpne : p.extent.start < p.extent.stop := h.tile.2.1
  have htile := h.tile.2.2
  cases ps with
  | nil =>
      have hend : p.extent.stop = hi := htile
      omega
  | cons next ps =>
      obtain ⟨htouch, hnext, -⟩ := htile
      have hnot := (List.isChain_cons_cons.1 h.chain).1
      -- The rest of the longer piece begins where the next one does, so they have one owner.
      let tail : Extent := ⟨p.extent.stop, q.extent.stop, Nat.le_of_lt hlt, q.extent.stop_lt⟩
      have hpart : q.extent.covers tail = true :=
        Extent.covers_iff.2 ⟨show q.extent.start ≤ p.extent.stop by omega, Nat.le_refl _⟩
      obtain ⟨owner, htail, hcont⟩ := hq.exists_rest hpart
      have hsame := (h.backed next (by simp)).owner_eq hv hshows htail htouch hnext hlt
      rw [howner, hsame] at hnot
      cases hnot.symm.trans hcont

/-- **A placement has one division.** -/
theorem unique (h : Composed heap intervals lo hi ps) (h' : Composed heap intervals lo hi qs) :
    ps = qs := by
  induction ps generalizing lo qs with
  | nil =>
      cases qs with
      | nil => rfl
      | cons q qs =>
          have hend : lo = hi := h.tile
          have hinside := h'.tile.bounds.2 q.extent List.mem_cons_self
          omega
  | cons p ps ih =>
      cases qs with
      | nil =>
          have hend : lo = hi := h'.tile
          have hinside := h.tile.bounds.2 p.extent List.mem_cons_self
          omega
      | cons q qs =>
          obtain ⟨hp, hpne, htile⟩ := h.tile
          obtain ⟨hq, hqne, htile'⟩ := h'.tile
          have hback := h.backed p List.mem_cons_self
          have hback' := h'.backed q List.mem_cons_self
          have howner := hback.owner_eq hv hshows hback' (hp.trans hq.symm) hpne hqne
          have hstop : p.extent.stop = q.extent.stop :=
            Nat.le_antisymm (h'.stop_le hv hshows hback hp htile.bounds.1 howner.symm)
              (h.stop_le hv hshows hback' hq htile'.bounds.1 howner)
          obtain rfl : p = q := by
            obtain ⟨extent, owner⟩ := p
            obtain ⟨extent', owner'⟩ := q
            obtain rfl := Extent.ext (hp.trans hq.symm) hstop
            exact congrArg _ howner
          rw [ih h.rest h'.rest]

end Composed

end Staging
