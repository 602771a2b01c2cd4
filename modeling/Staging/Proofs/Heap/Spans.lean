import Mathlib.Data.List.Chain
import Staging.Heap.Span
import Staging.Proofs.Extent
import Staging.Proofs.Outcome

/-!
# Tilings by spans

The spans of a body tile it: each starts where the one before it stops, and none is empty
(`Tile`).  No two neighbours are free (`Separated`).  Two such tilings of one body with the same
allocated extents are equal (`eq_of_used_eq`), so what undoes an operation need only restore the
allocated extents.

Carving a piece out of a free span adds it to the allocated extents (`used_carve`), and merging a
free span with its neighbours keeps them (`mergeAt_spec`).
-/

namespace Staging.Span

/-- The spans follow each other from `lo` to `hi`, and none of them is empty. -/
def Tile (lo hi : Nat) : List Span → Prop
  | [] => lo = hi
  | s :: rest => s.start = lo ∧ s.start < s.stop ∧ Tile s.stop hi rest

/-- No two neighbours are free. -/
def Separated (spans : List Span) : Prop :=
  spans.IsChain fun a b => ¬ (a.isFree = true ∧ b.isFree = true)

/-- The extents of the allocated spans. -/
def used (spans : List Span) : List Extent :=
  (spans.filter (!·.isFree)).map (·.extent)

@[simp] theorem isFree_free (e : Extent) : (free e).isFree = true := rfl
@[simp] theorem isFree_allocated (e : Extent) : (allocated e).isFree = false := rfl
@[simp] theorem extent_free (e : Extent) : (free e).extent = e := rfl
@[simp] theorem extent_allocated (e : Extent) : (allocated e).extent = e := rfl

theorem eq_free {s : Span} (h : s.isFree = true) : s = free s.extent := by
  obtain ⟨e, state⟩ := s
  simp only [isFree, beq_iff_eq] at h
  rw [h, free]

theorem eq_allocated {s : Span} (h : s.isFree = false) : s = allocated s.extent := by
  obtain ⟨e, state⟩ := s
  cases state with
  | free => cases h
  | allocated => rfl

@[simp] theorem used_nil : used [] = [] := rfl

theorem used_cons_of_free {s : Span} (h : s.isFree = true) (rest : List Span) :
    used (s :: rest) = used rest := by
  simp [used, h]

theorem used_cons_of_not_free {s : Span} (h : s.isFree = false) (rest : List Span) :
    used (s :: rest) = s.extent :: used rest := by
  simp [used, h]

@[simp] theorem used_append (a b : List Span) : used (a ++ b) = used a ++ used b := by
  simp [used]

theorem mem_used {spans : List Span} {e : Extent} : e ∈ used spans ↔ allocated e ∈ spans := by
  simp only [used, List.mem_map, List.mem_filter, Bool.not_eq_true']
  constructor
  · rintro ⟨s, ⟨hs, hfree⟩, rfl⟩
    exact eq_allocated hfree ▸ hs
  · exact fun h => ⟨allocated e, ⟨h, rfl⟩, rfl⟩

/-! ### Tilings -/

theorem Tile.le {lo hi : Nat} {spans : List Span} (h : Tile lo hi spans) : lo ≤ hi := by
  induction spans generalizing lo with
  | nil => exact Nat.le_of_eq h
  | cons s rest ih =>
      have := ih h.2.2
      obtain ⟨hlo, hlt, -⟩ := h
      omega

theorem Tile.bounds {lo hi : Nat} {spans : List Span} (h : Tile lo hi spans) :
    ∀ s ∈ spans, lo ≤ s.start ∧ s.start < s.stop ∧ s.stop ≤ hi := by
  induction spans generalizing lo with
  | nil => simp
  | cons s rest ih =>
      obtain ⟨hlo, hlt, htile⟩ := h
      have hle := htile.le
      intro t ht
      rcases List.mem_cons.1 ht with rfl | ht
      · omega
      · have := ih htile t ht
        omega

theorem tile_append {lo hi : Nat} {a b : List Span} :
    Tile lo hi (a ++ b) ↔ ∃ mid, Tile lo mid a ∧ Tile mid hi b := by
  induction a generalizing lo with
  | nil => simp [Tile]
  | cons s rest ih =>
      simp only [List.cons_append, Tile, ih]
      constructor
      · rintro ⟨hlo, hlt, mid, ha, hb⟩
        exact ⟨mid, ⟨hlo, hlt, ha⟩, hb⟩
      · rintro ⟨mid, ⟨hlo, hlt, ha⟩, hb⟩
        exact ⟨hlo, hlt, mid, ha, hb⟩

/-- The extents of a tiling are pairwise apart, and in address order. -/
theorem Tile.pairwise {lo hi : Nat} {spans : List Span} (h : Tile lo hi spans) :
    spans.Pairwise fun s t => s.stop ≤ t.start := by
  induction spans generalizing lo with
  | nil => exact .nil
  | cons s rest ih => exact .cons (fun t ht => (h.2.2.bounds t ht).1) (ih h.2.2)

theorem Tile.used_bounds {lo hi : Nat} {spans : List Span} (h : Tile lo hi spans) :
    ∀ e ∈ used spans, lo ≤ e.start ∧ e.start < e.stop ∧ e.stop ≤ hi :=
  fun e he => h.bounds (allocated e) (mem_used.1 he)

theorem Tile.used_pairwise {lo hi : Nat} {spans : List Span} (h : Tile lo hi spans) :
    (used spans).Pairwise fun a b => a.stop ≤ b.start :=
  List.Pairwise.map _ (fun _ _ hst => hst) (h.pairwise.filter _)

/-- Free and allocated bytes are all bytes of a tiling. -/
theorem Tile.freeBytes_add {lo hi : Nat} {spans : List Span} (h : Tile lo hi spans) :
    freeBytes spans + Extent.total (used spans) + lo = hi := by
  induction spans generalizing lo with
  | nil => simpa [freeBytes, used, Tile] using h
  | cons s rest ih =>
      obtain ⟨rfl, hlt, htile⟩ := h
      have hrest := ih htile
      have hlen : s.extent.length = s.stop - s.start := rfl
      cases hfree : s.isFree with
      | true =>
          simp only [freeBytes, used_cons_of_free hfree, List.filter_cons, hfree, if_true,
            List.map_cons, Extent.total_cons] at hrest ⊢
          omega
      | false =>
          simp only [freeBytes, used_cons_of_not_free hfree, List.filter_cons, hfree,
            Bool.false_eq_true, if_false, Extent.total_cons] at hrest ⊢
          omega

/-! ### Separated tilings are determined by what is allocated -/

theorem Separated.not_free_next {s t : Span} {rest : List Span} (h : Separated (s :: t :: rest))
    (hs : s.isFree = true) : t.isFree = false := by
  have := (List.isChain_cons_cons.1 h).1
  simpa [hs] using this

/-- Where the first free span of a tiling stops: at the first allocated one, or at the end. -/
theorem Tile.stop_of_free {lo hi : Nat} {s : Span} {rest : List Span}
    (htile : Tile lo hi (s :: rest)) (hsep : Separated (s :: rest)) (hs : s.isFree = true) :
    s.stop = ((used rest).head?.map (·.start)).getD hi := by
  cases rest with
  | nil => exact htile.2.2
  | cons t rest =>
      rw [used_cons_of_not_free (hsep.not_free_next hs)]
      exact htile.2.2.1.symm

/-- **Separated tilings of one body with the same allocated extents are equal.** -/
theorem eq_of_used_eq {lo hi : Nat} {a b : List Span} (ha : Tile lo hi a) (hb : Tile lo hi b)
    (hsa : Separated a) (hsb : Separated b) (h : used a = used b) : a = b := by
  induction a generalizing lo b with
  | nil =>
      cases b with
      | nil => rfl
      | cons t b =>
          have := hb.bounds t List.mem_cons_self
          simp only [Tile] at ha
          omega
  | cons s a ih =>
      cases b with
      | nil =>
          have := ha.bounds s List.mem_cons_self
          simp only [Tile] at hb
          omega
      | cons t b =>
          -- Once the first spans are equal, so are the rests.
          have tails (hst : s = t) (hused : used a = used b) : s :: a = t :: b := by
            subst hst
            rw [ih ha.2.2 hb.2.2 hsa.tail hsb.tail hused]
          have hstart : s.start = t.start := ha.1.trans hb.1.symm
          cases hs : s.isFree <;> cases ht : t.isFree
          · rw [used_cons_of_not_free hs, used_cons_of_not_free ht] at h
            obtain ⟨he, hused⟩ := List.cons.inj h
            exact tails (by rw [eq_allocated hs, eq_allocated ht, he]) hused
          -- A free span where the other tiling has an allocated one would lie over that.
          · rw [used_cons_of_not_free hs, used_cons_of_free ht] at h
            have := hb.2.2.used_bounds s.extent (h ▸ List.mem_cons_self)
            have := hb.2.1
            simp only [start] at *
            omega
          · rw [used_cons_of_free hs, used_cons_of_not_free ht] at h
            have := ha.2.2.used_bounds t.extent (h ▸ List.mem_cons_self)
            have := ha.2.1
            simp only [start] at *
            omega
          · rw [used_cons_of_free hs, used_cons_of_free ht] at h
            -- Both free spans reach up to the next allocated extent.
            have hstop : s.stop = t.stop := by
              rw [ha.stop_of_free hsa hs, hb.stop_of_free hsb ht, h]
            exact tails (by rw [eq_free hs, eq_free ht, Extent.ext hstart hstop]) h

/-! ### Carving -/

theorem freeBetween_of_lt {start stop : Nat} {e : Extent} (h : e.start = start ∧ e.stop = stop)
    (hlt : start < stop) : freeBetween start stop = [free e] := by
  have : e.isEmpty = false := Extent.isEmpty_eq_false_iff.2 (by omega)
  simp [freeBetween, Extent.ofBounds?_eq_some_iff.2 h, Option.filter, this]

theorem freeBetween_self (start : Nat) : freeBetween start start = [] := by
  unfold freeBetween
  split
  case h_2 => rfl
  case h_1 e he =>
    obtain ⟨hsome, hne⟩ := Option.filter_eq_some_iff.1 he
    have := Extent.ofBounds?_eq_some_iff.1 hsome
    simp only [Bool.not_eq_true', Extent.isEmpty_eq_false_iff] at hne
    omega

/-- A free span between two bounds in order tiles what is between them; it is one span or none. -/
theorem freeBetween_spec {start stop : Nat} (hle : start ≤ stop) (hlt : stop < Address.limit) :
    Tile start stop (freeBetween start stop) ∧ used (freeBetween start stop) = [] ∧
      Separated (freeBetween start stop) := by
  by_cases h : start = stop
  · subst h
    rw [freeBetween_self]
    exact ⟨rfl, rfl, .nil⟩
  · have hbounds := Nat.lt_of_le_of_ne hle h
    rw [@freeBetween_of_lt start stop ⟨start, stop, hle, hlt⟩ ⟨rfl, rfl⟩ hbounds]
    exact ⟨⟨rfl, hbounds, rfl⟩, rfl, .singleton _⟩

section Carve
variable {s : Span} {piece : Extent}

theorem carve_tile (hcover : s.extent.covers piece = true) (hne : piece.start < piece.stop) :
    Tile s.start s.stop (s.carve piece) := by
  obtain ⟨hlo, hhi⟩ := Extent.covers_iff.1 hcover
  have hlt := s.extent.stop_lt
  refine tile_append.2 ⟨piece.start, ?_, rfl, hne, ?_⟩
  · exact (freeBetween_spec hlo (by omega)).1
  · exact (freeBetween_spec hhi hlt).1

theorem used_carve (hcover : s.extent.covers piece = true) (hne : piece.start < piece.stop) :
    used (s.carve piece) = [piece] := by
  obtain ⟨hlo, hhi⟩ := Extent.covers_iff.1 hcover
  have hlt := s.extent.stop_lt
  have hfront := (@freeBetween_spec s.start piece.start hlo (by omega)).2.1
  have hback := (@freeBetween_spec piece.stop s.stop hhi hlt).2.1
  rw [carve, used_append, used_cons_of_not_free rfl, hfront, hback]
  rfl

theorem carve_separated (hcover : s.extent.covers piece = true) : Separated (s.carve piece) := by
  obtain ⟨hlo, hhi⟩ := Extent.covers_iff.1 hcover
  have hlt := s.extent.stop_lt
  have hle := piece.start_le_stop
  have hfront := (@freeBetween_spec s.start piece.start hlo (by omega)).2.2
  have hback := (@freeBetween_spec piece.stop s.stop hhi hlt).2.2
  refine List.isChain_append.2 ⟨hfront, List.isChain_cons.2 ⟨?_, hback⟩, ?_⟩
  · rintro t -
    simp
  · rintro t - u hu
    cases Option.some.inj hu
    simp

end Carve

/-- What separated tilings have in the place of a free span may be any separated spans. -/
theorem Separated.replace {before after mid : List Span} {s : Span}
    (h : Separated (before ++ s :: after)) (hs : s.isFree = true) (hmid : Separated mid) :
    Separated (before ++ (mid ++ after)) := by
  obtain ⟨hbefore, hrest, hlast⟩ := List.isChain_append.1 h
  obtain ⟨hhead, hafter⟩ := List.isChain_cons.1 hrest
  refine List.isChain_append.2 ⟨hbefore, List.isChain_append.2 ⟨hmid, hafter, ?_⟩, ?_⟩
  · intro t _ u hu hfree
    exact hhead u hu ⟨hs, hfree.2⟩
  · intro t ht u _ hfree
    exact hlast t ht s rfl ⟨hfree.1, hs⟩

/-! ### Merging -/

@[simp] theorem isFree_upTo (s : Span) (stop : Nat) : (s.upTo stop).isFree = s.isFree := rfl

theorem upTo_bounds {s t : Span} (h : s.start ≤ t.stop) :
    (s.upTo t.stop).start = s.start ∧ (s.upTo t.stop).stop = t.stop := by
  have hbounds : Extent.ofBounds? s.start t.stop = some ⟨s.start, t.stop, h, t.extent.stop_lt⟩ :=
    dif_pos ⟨h, t.extent.stop_lt⟩
  simp only [upTo, start, stop] at hbounds ⊢
  simp [hbounds]

/-- A round takes in the next span if that is free and touches. -/
theorem mergeBehind_succ (before : List Span) (s next : Span) (rest : List Span) (rounds : Nat) :
    mergeBehind before.length (rounds + 1) (before ++ s :: next :: rest) =
      if next.isFree && s.stop == next.start then
        mergeBehind before.length rounds (before ++ s.upTo next.stop :: rest)
      else
        .ok (before ++ s :: next :: rest) := by
  have hnext : (before ++ s :: next :: rest)[before.length + 1]? = some next := by simp
  have hremove (t : Span) :
      Index.remove (before ++ t :: next :: rest) (before.length + 1) =
        .ok (before ++ t :: rest) := by
    simpa using Index.remove_append (before ++ [t]) next rest
  rw [mergeBehind, hnext]
  dsimp only
  rw [Index.read_append, ok_bind]
  split
  · rw [Index.write_append, ok_bind, hremove, ok_bind]
  · rfl

theorem mergeBehind_last (before : List Span) (s : Span) (rounds : Nat) :
    mergeBehind before.length rounds (before ++ [s]) = .ok (before ++ [s]) := by
  cases rounds with
  | zero => rfl
  | succ rounds => simp [mergeBehind]

/-- Merging with the spans behind finds every entry that it looks for. -/
theorem exists_mergeBehind (before : List Span) (s : Span) (after : List Span) (rounds : Nat) :
    ∃ m rest, mergeBehind before.length rounds (before ++ s :: after) =
      .ok (before ++ m :: rest) := by
  induction after generalizing s rounds with
  | nil => exact ⟨s, [], mergeBehind_last before s rounds⟩
  | cons next rest ih =>
      cases rounds with
      | zero => exact ⟨s, next :: rest, rfl⟩
      | succ rounds =>
          rw [mergeBehind_succ]
          split
          · exact ih _ rounds
          · exact ⟨s, next :: rest, rfl⟩

theorem mergeBefore_zero (m : Span) (rest : List Span) :
    mergeBefore 0 (m :: rest) = .ok (0, m :: rest) := rfl

/-- A span and the one before it become one if they are free and touch. -/
theorem mergeBefore_concat (init : List Span) (last m : Span) (rest : List Span) :
    mergeBefore (init ++ [last]).length (init ++ [last] ++ m :: rest) =
      if last.isFree && last.stop == m.start then
        .ok (init.length, init ++ last.upTo m.stop :: rest)
      else
        .ok ((init ++ [last]).length, init ++ [last] ++ m :: rest) := by
  have hne : (init ++ [last]).length ≠ 0 := by simp
  have hsub : Address.sub (init ++ [last]).length 1 = .ok init.length := by
    simp [Address.sub]
  have hsplit : init ++ [last] ++ m :: rest = init ++ last :: m :: rest := by simp
  have hlast : Index.read (init ++ [last] ++ m :: rest) init.length = .ok last := by
    rw [hsplit, Index.read_append]
  have hwrite (t : Span) :
      Index.write (init ++ [last] ++ m :: rest) init.length t = .ok (init ++ [t] ++ m :: rest) := by
    rw [hsplit, Index.write_append]
    simp
  have hremove (t : Span) :
      Index.remove (init ++ [t] ++ m :: rest) (init ++ [last]).length =
        .ok (init ++ t :: rest) := by
    simpa using Index.remove_append (init ++ [t]) m rest
  rw [mergeBefore, if_neg hne, hsub, ok_bind, hlast, ok_bind, Index.read_append, ok_bind]
  split
  · rw [hwrite, ok_bind, hremove]
    rfl
  · rfl

/-- Merging finds every entry that it looks for. -/
theorem exists_mergeAt (spans : List Span) (index : Nat) :
    ∃ merged, mergeAt spans index = .ok merged := by
  unfold mergeAt
  cases hs : spans[index]? with
  | none => exact ⟨_, rfl⟩
  | some s =>
      obtain ⟨hlt, hget⟩ := List.getElem?_eq_some_iff.1 hs
      have hsplit : spans = spans.take index ++ s :: spans.drop (index + 1) := by
        rw [← hget, List.getElem_cons_drop, List.take_append_drop]
      have hlength : (spans.take index).length = index := by
        rw [List.length_take]
        omega
      obtain ⟨m, rest, hbehind⟩ :=
        exists_mergeBehind (spans.take index) s (spans.drop (index + 1)) spans.length
      rw [← hsplit, hlength] at hbehind
      dsimp only
      split
      case isFalse => exact ⟨_, rfl⟩
      case isTrue =>
        rw [hbehind, ok_bind]
        rcases List.eq_nil_or_concat (spans.take index) with hnil | ⟨init, last, hconcat⟩
        · rw [hnil] at hlength
          rw [hnil, ← hlength]
          exact ⟨_, mergeBefore_zero m rest⟩
        · rw [List.concat_eq_append] at hconcat
          rw [hconcat] at hlength
          rw [hconcat, ← hlength, mergeBefore_concat]
          split <;> exact ⟨_, rfl⟩

theorem mergeBehind_spec {lo hi : Nat} {s : Span} {after : List Span} (before : List Span)
    (hs : s.isFree = true) (htile : Tile lo hi (s :: after)) (hsep : Separated after)
    {rounds : Nat} (hrounds : after.length ≤ rounds) :
    ∃ m rest, mergeBehind before.length rounds (before ++ s :: after) = .ok (before ++ m :: rest) ∧
      m.isFree = true ∧ Tile lo hi (m :: rest) ∧ Separated (m :: rest) ∧
      used rest = used after := by
  induction after generalizing s rounds with
  | nil => exact ⟨s, [], mergeBehind_last before s rounds, hs, htile, .singleton _, rfl⟩
  | cons next rest ih =>
      obtain ⟨hlo, hlt, htouch, hlt', hrest⟩ := htile
      obtain ⟨rounds, rfl⟩ : ∃ n, rounds = n + 1 := ⟨rounds - 1, by simp at hrounds; omega⟩
      rw [mergeBehind_succ]
      cases hnext : next.isFree with
      | true =>
          obtain ⟨hstart, hstop⟩ := @upTo_bounds s next (by omega)
          have hgrown : Tile lo hi (s.upTo next.stop :: rest) :=
            ⟨hstart.trans hlo, by omega, by rwa [hstop]⟩
          have hleft : rest.length ≤ rounds := by simpa using hrounds
          rw [if_pos (by simp [htouch]), used_cons_of_free hnext]
          exact ih (isFree_upTo s next.stop ▸ hs) hgrown hsep.tail hleft
      | false =>
          rw [if_neg (by simp)]
          exact ⟨s, next :: rest, rfl, hs, ⟨hlo, hlt, htouch, hlt', hrest⟩,
            List.isChain_cons_cons.2 ⟨by simp [hnext], hsep⟩, rfl⟩

theorem mergeBefore_spec {lo hi : Nat} {m : Span} {before after : List Span}
    (hm : m.isFree = true) (htile : Tile lo hi (before ++ m :: after))
    (hbefore : Separated before) (hafter : Separated (m :: after)) :
    ∃ index merged, mergeBefore before.length (before ++ m :: after) = .ok (index, merged) ∧
      Tile lo hi merged ∧ Separated merged ∧ used merged = used before ++ used after := by
  rcases List.eq_nil_or_concat before with rfl | ⟨init, last, hconcat⟩
  · exact ⟨0, m :: after, mergeBefore_zero m after, htile, hafter, used_cons_of_free hm after⟩
  · rw [List.concat_eq_append] at hconcat
    subst hconcat
    obtain ⟨hinit, -, hend⟩ := List.isChain_append.1 hbefore
    obtain ⟨hhead, hsafter⟩ := List.isChain_cons.1 hafter
    rw [mergeBefore_concat]
    have htile' := htile
    rw [List.append_assoc] at htile'
    obtain ⟨mid, htinit, hmid, hlt, htouch, hlt', hrest⟩ := tile_append.1 htile'
    cases hfree : last.isFree with
    | true =>
        obtain ⟨hstart, hstop⟩ := @upTo_bounds last m (by omega)
        have hgrown : Tile mid hi (last.upTo m.stop :: after) :=
          ⟨hstart.trans hmid, by omega, by rwa [hstop]⟩
        rw [if_pos (by simp [htouch])]
        refine ⟨_, _, rfl, tile_append.2 ⟨mid, htinit, hgrown⟩,
          List.isChain_append.2 ⟨hinit, List.isChain_cons.2 ⟨?_, hsafter⟩, ?_⟩, ?_⟩
        · intro t ht hboth
          exact hhead t ht ⟨hm, hboth.2⟩
        · intro t ht u _ hboth
          exact hend t ht last rfl ⟨hboth.1, hfree⟩
        · have hgrown : (last.upTo m.stop).isFree = true := hfree
          simp only [used_append, used_cons_of_free hfree, used_cons_of_free hgrown, used_nil,
            List.append_nil]
    | false =>
        rw [if_neg (by simp)]
        refine ⟨_, _, rfl, htile, List.isChain_append.2 ⟨hbefore, hafter, ?_⟩, ?_⟩
        · intro t ht u _ hboth
          rw [List.getLast?_concat] at ht
          cases Option.some.inj ht
          rw [hfree] at hboth
          exact Bool.false_ne_true hboth.1
        · rw [used_append, used_cons_of_free hm]

/-- **Merging a free span with its neighbours** separates the tiling and keeps what is
allocated. -/
theorem mergeAt_spec {lo hi : Nat} {s : Span} {before after : List Span} (hs : s.isFree = true)
    (htile : Tile lo hi (before ++ s :: after)) (hbefore : Separated before)
    (hafter : Separated after) :
    ∃ index merged, mergeAt (before ++ s :: after) before.length = .ok (index, merged) ∧
      Tile lo hi merged ∧ Separated merged ∧ used merged = used before ++ used after := by
  obtain ⟨mid, htbefore, htrest⟩ := tile_append.1 htile
  have hrounds : after.length ≤ (before ++ s :: after).length := by
    simp only [List.length_append, List.length_cons]
    omega
  obtain ⟨m, rest, hbehind, hfree, htmerged, hsmerged, hused⟩ :=
    mergeBehind_spec before hs htrest hafter hrounds
  have hentry : (before ++ s :: after)[before.length]? = some s := by simp
  rw [mergeAt, hentry, ← hused]
  simp only [hs, if_true, hbehind, ok_bind]
  exact mergeBefore_spec hfree (tile_append.2 ⟨mid, htbefore, htmerged⟩) hbefore hsmerged

/-! ### Looking up a span -/

/-- Every byte of a tiling is found in its span. -/
theorem Tile.indexAt? {lo hi : Nat} {before after : List Span} {s : Span}
    (h : Tile lo hi (before ++ s :: after)) {address : Nat} (hlo : s.start ≤ address)
    (hhi : address < s.stop) : indexAt? (before ++ s :: after) address = some before.length := by
  obtain ⟨mid, hbefore, hmid, -⟩ := tile_append.1 h
  have hskip : ∀ t ∈ before, ¬ address < t.stop := by
    intro t ht
    have := (hbefore.bounds t ht).2.2
    omega
  have hfind : (before ++ s :: after).findIdx? (fun t => decide (address < t.stop)) =
      some before.length := by
    rw [List.findIdx?_append, List.findIdx?_eq_none_iff.2 (by simpa using hskip)]
    simp [List.findIdx?_cons, hhi]
  simp only [Span.start, Span.stop] at hlo hhi
  simp [Span.indexAt?, hfind, Extent.contains, hlo, hhi]

end Staging.Span
