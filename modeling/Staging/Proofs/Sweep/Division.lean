import Staging.Proofs.Sweep.Depth
import Staging.Sweep.Division

/-!
# Pieces of a placement

A division that succeeds tiles the placement with its pieces, and what the pieces say about their
owners is borne out by the intervals of the sweep (`ofEvents_spec`): the piece of a head room does
not begin below it, and all of a piece of the firmware is listed and not masked.  It succeeds only
if every byte of the placement can be borrowed (`usable_of_ofEvents`), and else it names memory that
is not usable (`ofEvents_outcome`).
-/

namespace Staging

namespace Piece

/-- The pieces come in address order between two bounds, and none of them is empty. -/
def Ascending (lo hi : Nat) : List Piece → Prop
  | [] => lo ≤ hi
  | p :: rest => lo ≤ p.extent.start ∧ p.extent.start < p.extent.stop ∧
      Ascending p.extent.stop hi rest

/-- What the owner of a piece has to do with the intervals of a sweep over these regions. -/
def Rightful (regions : List Region) (intervals : List Interval) (piece : Piece) : Prop :=
  match piece.owner with
  | .regionHead id => ∃ i ∈ intervals, i.kind = .regionHead ∧
      i.extent.start ≤ piece.extent.start ∧
        ∃ index region, i.region = some index ∧ regions[index]? = some region ∧ region.id = id
  | .regionBody _ => True
  | .firmware => ∀ x ∈ piece.extent, Lendable intervals x

variable {lo mid hi : Nat} {pieces : List Piece} {piece : Piece}

theorem ascending_append {a b : List Piece} :
    Ascending lo hi (a ++ b) ↔ ∃ mid, Ascending lo mid a ∧ Ascending mid hi b := by
  induction a generalizing lo with
  | nil =>
      constructor
      · exact fun h => ⟨lo, Nat.le_refl lo, h⟩
      · rintro ⟨mid, hle, h⟩
        cases b with
        | nil => exact Nat.le_trans hle h
        | cons p rest => exact ⟨Nat.le_trans hle h.1, h.2⟩
  | cons p rest ih =>
      simp only [List.cons_append, Ascending, ih]
      constructor
      · rintro ⟨hlo, hlt, mid, ha, hb⟩
        exact ⟨mid, ⟨hlo, hlt, ha⟩, hb⟩
      · rintro ⟨mid, ⟨hlo, hlt, ha⟩, hb⟩
        exact ⟨hlo, hlt, mid, ha, hb⟩

/-- Pieces fill at most what is between their bounds, and if they fill it they tile it. -/
theorem Ascending.sum_le (h : Ascending lo hi pieces) :
    Extent.total (pieces.map (·.extent)) + lo ≤ hi ∧
      (Extent.total (pieces.map (·.extent)) + lo = hi →
        Extent.Tile lo hi (pieces.map (·.extent))) := by
  induction pieces generalizing lo with
  | nil => exact ⟨by simpa [Ascending] using h, fun heq => by simpa [Extent.Tile] using heq⟩
  | cons p rest ih =>
      obtain ⟨hlo, hlt, hrest⟩ := h
      obtain ⟨hsum, htile⟩ := ih hrest
      have hlength : p.extent.length = p.extent.stop - p.extent.start := rfl
      simp only [List.map_cons, Extent.total_cons]
      refine ⟨by omega, fun heq => ⟨by omega, hlt, htile (by omega)⟩⟩

/-- A piece behind the others goes to their end, or grows the last of them. -/
theorem ascending_append_piece (h : Ascending lo mid pieces) (hmid : mid ≤ piece.extent.start)
    (hne : piece.extent.start < piece.extent.stop) :
    Ascending lo piece.extent.stop (append pieces piece) := by
  unfold append
  cases hlast : pieces.getLast? with
  | none =>
      cases List.getLast?_eq_none_iff.1 hlast
      exact ⟨Nat.le_trans h hmid, hne, Nat.le_refl _⟩
  | some last =>
      obtain ⟨init, rfl⟩ := List.getLast?_eq_some_iff.1 hlast
      obtain ⟨m, hinit, hlo, hlt, hle⟩ := ascending_append.1 h
      dsimp only
      split
      case isTrue htouch =>
        rw [List.dropLast_concat]
        have hgrown : last.extent.start < piece.extent.stop := by omega
        exact ascending_append.2 ⟨m, hinit, hlo, hgrown, Nat.le_refl _⟩
      case isFalse =>
        exact ascending_append.2 ⟨mid, h, hmid, hne, Nat.le_refl _⟩

/-- What is kept when a piece grows over the one behind it holds of all pieces. -/
theorem forall_mem_append {motive : Piece → Prop} (h : ∀ p ∈ pieces, motive p)
    (hpiece : motive piece)
    (hjoin : ∀ last ∈ pieces, ∀ htouch : last.extent.stop = piece.extent.start,
      continues last.owner piece.owner = true →
        motive { last with extent := last.extent.join piece.extent htouch }) :
    ∀ p ∈ append pieces piece, motive p := by
  unfold append
  cases hlast : pieces.getLast? with
  | none => simpa using hpiece
  | some last =>
      obtain ⟨init, rfl⟩ := List.getLast?_eq_some_iff.1 hlast
      dsimp only
      split
      case isFalse =>
        intro p hp
        rcases List.mem_append.1 hp with hp | hp
        · exact h p hp
        · cases List.mem_singleton.1 hp
          exact hpiece
      case isTrue htouch =>
        rw [List.dropLast_concat]
        intro p hp
        rcases List.mem_append.1 hp with hp | hp
        · exact h p (List.mem_append_left _ hp)
        · cases List.mem_singleton.1 hp
          exact hjoin last (List.mem_append_right _ List.mem_cons_self) htouch.1 htouch.2

/-- A piece that grows over the one behind it has the bytes of both. -/
theorem mem_join {last : Piece} (htouch : last.extent.stop = piece.extent.start) {x : Nat}
    (hx : x ∈ last.extent.join piece.extent htouch) : x ∈ last.extent ∨ x ∈ piece.extent := by
  by_cases hlt : x < last.extent.stop
  · exact .inl ⟨hx.1, hlt⟩
  · exact .inr ⟨htouch ▸ Nat.le_of_not_lt hlt, hx.2⟩

section Rights
variable {regions : List Region} {intervals : List Interval}

/-- A piece that grows over one that continues it keeps its rights. -/
theorem Rightful.join {last : Piece} (h : last.Rightful regions intervals)
    (hpiece : piece.Rightful regions intervals) (htouch : last.extent.stop = piece.extent.start)
    (hcont : continues last.owner piece.owner = true) :
    ({ last with extent := last.extent.join piece.extent htouch } : Piece).Rightful
      regions intervals := by
  obtain ⟨extent, owner⟩ := last
  cases owner with
  | regionHead id => exact h
  | regionBody id => trivial
  | firmware =>
      obtain ⟨extent', owner'⟩ := piece
      obtain rfl : Owner.firmware = owner' := by simpa [continues] using hcont
      intro x hx
      rcases mem_join htouch hx with hx | hx
      · exact h x hx
      · exact hpiece x hx

theorem rightful_append (h : ∀ p ∈ pieces, p.Rightful regions intervals)
    (hpiece : piece.Rightful regions intervals) :
    ∀ p ∈ append pieces piece, p.Rightful regions intervals :=
  forall_mem_append h hpiece fun last hlast htouch hcont => (h last hlast).join hpiece htouch hcont

end Rights

end Piece

/-! ### The owner of a gap -/

namespace Cursor

/-- What a cursor knows after some events. -/
structure Knows (c : Cursor) (passed : List Event) : Prop where
  depth : c.depth = .passAll .ascending {} passed
  /-- The head room that is open was started by one of the events. -/
  head : ∀ index, c.head = some index →
    ∃ e ∈ passed, e.kind = .regionHead ∧ e.edge = .start ∧ e.region = some index

theorem Knows.pass {c : Cursor} {passed : List Event} (h : c.Knows passed) (e : Event) :
    (c.pass e).Knows (passed ++ [e]) where
  depth := by simp [Cursor.pass, Depth.passAll, h.depth]
  head index hindex := by
    have earlier (hold : c.head = some index) : ∃ e' ∈ passed ++ [e],
        e'.kind = .regionHead ∧ e'.edge = .start ∧ e'.region = some index := by
      obtain ⟨e', he', hstart⟩ := h.head index hold
      exact ⟨e', List.mem_append_left _ he', hstart⟩
    simp only [Cursor.pass] at hindex
    split at hindex
    case isFalse => exact earlier hindex
    case isTrue hkind =>
      unfold track at hindex
      split at hindex
      case h_1 => exact earlier hindex
      case h_2 region hedge hregion =>
        cases hindex
        exact ⟨e, List.mem_append_right _ List.mem_cons_self, hkind, hedge, hregion⟩
      case h_3 region hedge hregion =>
        split at hindex
        case isTrue => contradiction
        case isFalse => exact earlier hindex

section Gap
variable {regions : List Region} {intervals : List Interval} {c : Cursor}
  {passed ahead : List Event} {gap : Extent} {owner : Owner}
  (hperm : (passed ++ ahead).Perm (intervals.flatMap (·.events))) (hc : c.Knows passed)
  (hpassed : ∀ e ∈ passed, e.position ≤ gap.start) (hahead : ∀ e ∈ ahead, gap.stop ≤ e.position)
include hperm hc hpassed hahead

theorem Knows.at_depth : ∀ x ∈ gap, c.depth.At intervals x := by
  intro x hx
  rw [Extent.mem_iff] at hx
  rw [hc.depth]
  refine Depth.at_passAll hperm (fun e he => ?_) fun e he => ?_
  · exact Nat.le_trans (hpassed e he) hx.1
  · exact Nat.not_le.2 (Nat.lt_of_lt_of_le hx.2 (hahead e he))

/-- **A gap that has an owner** is usable. -/
theorem usable_of_owner (h : c.owner? regions gap = some owner) :
    ∀ x ∈ gap, Usable intervals x := by
  intro x hx
  have hdepth := hc.at_depth hperm hpassed hahead x hx
  unfold owner? at h
  split at h
  case isTrue => contradiction
  case isFalse hclear =>
    refine ⟨fun hover => hclear ((hdepth.pos_iff .collision).2 hover), ?_⟩
    split at h
    case isTrue hhead => exact .inl ((hdepth.pos_iff .regionHead).1 hhead)
    case isFalse =>
      split at h
      case isTrue hbody => exact .inr (.inl ((hdepth.pos_iff .regionBody).1 hbody))
      case isFalse =>
        split at h
        case isTrue hlends => exact .inr (.inr (hdepth.lendsFirmware_iff.1 hlends))
        case isFalse => contradiction

/-- **The owner of a gap** is borne out by the intervals. -/
theorem rightful_owner (h : c.owner? regions gap = some owner) :
    (⟨gap, owner⟩ : Piece).Rightful regions intervals := by
  have hdepth := hc.at_depth hperm hpassed hahead
  unfold owner? at h
  split at h
  case isTrue => contradiction
  case isFalse =>
    split at h
    case isTrue =>
      obtain ⟨region, hregion, howner⟩ := Option.map_eq_some_iff.1 h
      obtain ⟨index, hhead, hindex⟩ := Option.bind_eq_some_iff.1 hregion
      split at howner
      case isFalse =>
        cases howner
        trivial
      case isTrue =>
        cases howner
        -- The head room that is open begins at or below the gap.
        obtain ⟨e, he, hkind, hedge, hregion⟩ := hc.head index hhead
        have hmem := hperm.mem_iff.1 (List.mem_append_left _ he)
        obtain ⟨i, hi, hevent⟩ := List.mem_flatMap.1 hmem
        have hle := hpassed e he
        rcases (Interval.mem_events_iff.1 hevent).2 with rfl | rfl
        · exact ⟨i, hi, hkind, hle, index, region, hregion, hindex, rfl⟩
        · contradiction
    case isFalse =>
      split at h
      case isTrue =>
        obtain ⟨region, -, howner⟩ := Option.map_eq_some_iff.1 h
        cases howner
        trivial
      case isFalse =>
        split at h
        case isTrue hlends =>
          cases h
          exact fun x hx => (hdepth x hx).lendsFirmware_iff.1 hlends
        case isFalse => contradiction

end Gap

/-! ### The pieces -/

variable {regions : List Region} {intervals : List Interval}

/-- What the pieces have in common that a division gathered before it stopped. -/
structure Gathered (regions : List Region) (intervals : List Interval) (target : Extent)
    (bound : Nat) (pieces : List Piece) : Prop where
  ascending : Piece.Ascending target.start bound pieces
  rightful : ∀ p ∈ pieces, p.Rightful regions intervals
  usable : ∀ p ∈ pieces, ∀ x ∈ p.extent, Usable intervals x

theorem Gathered.append {target gap : Extent} {owner : Owner} {bound : Nat} {pieces : List Piece}
    (h : Gathered regions intervals target bound pieces) (hfrom : bound ≤ gap.start)
    (hne : gap.start < gap.stop) (hright : (⟨gap, owner⟩ : Piece).Rightful regions intervals)
    (husable : ∀ x ∈ gap, Usable intervals x) :
    Gathered regions intervals target gap.stop (Piece.append pieces ⟨gap, owner⟩) where
  ascending := @Piece.ascending_append_piece _ _ _ ⟨gap, owner⟩ h.ascending hfrom hne
  rightful := Piece.rightful_append h.rightful hright
  usable := by
    refine Piece.forall_mem_append h.usable husable fun last hlast htouch _ x hx => ?_
    rcases Piece.mem_join htouch hx with hx | hx
    · exact h.usable last hlast x hx
    · exact husable x hx

/-- Ordered events are in order around the gap between two of them. -/
theorem around_of_ordered {passed rest : List Event} {e next : Event}
    (h : (passed ++ [e] ++ next :: rest).Pairwise fun a b => a.position ≤ b.position) :
    (∀ a ∈ passed ++ [e], a.position ≤ e.position) ∧
      ∀ a ∈ next :: rest, next.position ≤ a.position := by
  obtain ⟨hthrough, hahead, -⟩ := List.pairwise_append.1 h
  constructor
  · intro a ha
    rcases List.mem_append.1 ha with ha | ha
    · exact (List.pairwise_append.1 hthrough).2.2 a ha e List.mem_cons_self
    · cases List.mem_singleton.1 ha
      exact Nat.le_refl _
  · intro a ha
    rcases List.mem_cons.1 ha with rfl | ha
    · exact Nat.le_refl _
    · exact (List.pairwise_cons.1 hahead).1 a ha

/-- The pieces of a division come in address order inside the target, and are borne out by the
intervals. -/
theorem gather_spec {target : Extent} {c : Cursor} {passed ahead : List Event}
    {pieces pieces' : List Piece} {bound : Nat}
    (hperm : (passed ++ ahead).Perm (intervals.flatMap (·.events)))
    (hsorted : (passed ++ ahead).Pairwise fun a b => a.position ≤ b.position)
    (hc : c.Knows passed) (hpieces : Gathered regions intervals target bound pieces)
    (hbound : bound ≤ target.stop)
    (hnext : ∀ e ∈ ahead, bound ≤ max e.position target.start)
    (h : gather regions target c pieces ahead = (pieces', none)) :
    ∃ bound' ≤ target.stop, Gathered regions intervals target bound' pieces' := by
  induction ahead generalizing passed c pieces bound with
  | nil =>
      cases h
      exact ⟨bound, hbound, hpieces⟩
  | cons e rest ih =>
      cases rest with
      | nil =>
          cases h
          exact ⟨bound, hbound, hpieces⟩
      | cons next rest =>
          have hsplit : passed ++ e :: next :: rest = (passed ++ [e]) ++ next :: rest := by simp
          rw [hsplit] at hperm hsorted
          obtain ⟨hpassed, hnext'⟩ := around_of_ordered hsorted
          have step {bound : Nat} {pieces : List Piece} := @ih (c.pass e) (passed ++ [e]) pieces
            bound hperm hsorted (hc.pass e)
          unfold gather at h
          dsimp only at h
          split at h
          case isTrue =>
            cases h
            exact ⟨bound, hbound, hpieces⟩
          case isFalse hinside =>
            split at h
            case h_1 =>
              -- No byte of the target lies between the two events.
              refine step hpieces hbound (fun a ha => ?_) h
              exact hnext a (List.mem_cons_of_mem _ ha)
            case h_2 gap hgap =>
              obtain ⟨hsome, hne⟩ := Option.filter_eq_some_iff.1 hgap
              obtain ⟨hlo, hhi⟩ := Extent.ofBounds?_eq_some_iff.1 hsome
              simp only [Bool.not_eq_true', Extent.isEmpty_eq_false_iff] at hne
              split at h
              case h_1 => cases h
              case h_2 owner howner =>
                -- The gap lies behind all pieces so far, since they end where events are.
                have hbehind := hnext e List.mem_cons_self
                have hbelow : ∀ a ∈ passed ++ [e], a.position ≤ gap.start :=
                  fun a ha => Nat.le_trans (hpassed a ha) (by omega)
                have habove : ∀ a ∈ next :: rest, gap.stop ≤ a.position :=
                  fun a ha => Nat.le_trans (by omega) (hnext' a ha)
                have hgathered := hpieces.append (show bound ≤ gap.start by omega) hne
                  (rightful_owner hperm (hc.pass e) hbelow habove howner)
                  (usable_of_owner hperm (hc.pass e) hbelow habove howner)
                refine step hgathered (by omega) (fun a ha => ?_) h
                have := hnext' a ha
                omega

end Cursor

namespace Division

variable {regions : List Region} {intervals : List Interval} {target : Extent}
  {events : List Event} {pieces : List Piece}
  (hperm : events.Perm (intervals.flatMap (·.events)))
  (hsorted : events.Pairwise fun a b => a.position ≤ b.position)
include hperm hsorted

theorem gathered_of_gather (h : Cursor.gather regions target {} [] events = (pieces, none)) :
    ∃ bound ≤ target.stop, Cursor.Gathered regions intervals target bound pieces :=
  @Cursor.gather_spec regions intervals target {} [] events [] pieces target.start hperm hsorted
    ⟨rfl, by simp⟩ ⟨Nat.le_refl _, by simp, by simp⟩ target.start_le_stop
    (fun _ _ => Nat.le_max_right _ _) h

/-- A division gathers what it divides the target into. -/
theorem gathered_of_ofEvents (h : ofEvents regions target events = ⟨pieces, .ok ()⟩) :
    Cursor.Gathered regions intervals target target.stop pieces ∧
      Extent.Tile target.start target.stop (pieces.map (·.extent)) ∧ pieces ≠ [] := by
  unfold ofEvents at h
  split at h
  case h_1 => cases h
  case h_2 pieces' hgather =>
    obtain ⟨bound, hbound, hgathered⟩ := gathered_of_gather hperm hsorted hgather
    obtain ⟨hsum, htile⟩ := hgathered.ascending.sum_le
    dsimp only at h
    split at h
    case isTrue => cases h
    case isFalse =>
      split at h
      case isFalse => cases h
      case isTrue hcovered =>
        cases h
        have hlength : target.length = target.stop - target.start := rfl
        have hle := target.start_le_stop
        obtain rfl : bound = target.stop := by omega
        refine ⟨hgathered, htile (by omega), ?_⟩
        rintro rfl
        simp at hcovered

/-- **A division that succeeds** tiles the target with its pieces, and what they say about their
owners is borne out by the intervals. -/
theorem ofEvents_spec (h : ofEvents regions target events = ⟨pieces, .ok ()⟩) :
    Extent.Tile target.start target.stop (pieces.map (·.extent)) ∧
      ∀ p ∈ pieces, p.Rightful regions intervals := by
  obtain ⟨hgathered, htile, -⟩ := gathered_of_ofEvents hperm hsorted h
  exact ⟨htile, hgathered.rightful⟩

/-- **A division succeeds** only on a target that has bytes, all of which can be borrowed. -/
theorem usable_of_ofEvents (h : ofEvents regions target events = ⟨pieces, .ok ()⟩) :
    target.start < target.stop ∧ ∀ x ∈ target, Usable intervals x := by
  obtain ⟨hgathered, htile, hne⟩ := gathered_of_ofEvents hperm hsorted h
  refine ⟨?_, fun x hx => ?_⟩
  · cases pieces with
    | nil => contradiction
    | cons p rest =>
        have hinside := htile.bounds.2 p.extent List.mem_cons_self
        omega
  · obtain ⟨e, he, hx⟩ := (htile.exists_mem_iff x).2 hx
    obtain ⟨p, hp, rfl⟩ := List.mem_map.1 he
    exact hgathered.usable p hp x hx

/-- **A division that fails** names memory that is not usable, and never traps. -/
theorem ofEvents_outcome (regions : List Region) (target : Extent) :
    (ofEvents regions target events).outcome = .ok () ∨
      ∃ e, (ofEvents regions target events).outcome = refuse e := by
  unfold ofEvents
  split
  case h_1 pieces gap hgather => exact .inr ⟨gap, rfl⟩
  case h_2 pieces hgather =>
    obtain ⟨bound, hbound, hgathered⟩ := gathered_of_gather hperm hsorted hgather
    have hsum := hgathered.ascending.sum_le.1
    have hlt := target.stop_lt
    have hfits : ¬ Address.limit ≤ Extent.total (pieces.map (·.extent)) := by omega
    rw [if_neg hfits]
    split
    case isTrue => exact .inl rfl
    case isFalse => exact .inr ⟨target, rfl⟩

end Division

end Staging
