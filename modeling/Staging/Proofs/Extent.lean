import Staging.Extent

/-!
# Extents as sets of bytes

The bytes of an extent are the addresses between its bounds.  Two extents are `Apart` if one stops
before the other starts; that is what `Extent.intersects` denies, and for extents that have a byte
it means that they share none (`apart_of_forall_mem`).
-/

namespace Staging.Extent

instance : Membership Nat Extent := ⟨fun e x => e.start ≤ x ∧ x < e.stop⟩

theorem mem_iff {e : Extent} {x : Nat} : x ∈ e ↔ e.start ≤ x ∧ x < e.stop := Iff.rfl

/-- One of the extents stops before the other starts. -/
def Apart (a b : Extent) : Prop := a.stop ≤ b.start ∨ b.stop ≤ a.start

@[simp] theorem intersects_eq_false_iff {a b : Extent} : a.intersects b = false ↔ a.Apart b := by
  simp only [intersects, Apart, Bool.and_eq_false_iff, decide_eq_false_iff_not]
  omega

theorem Apart.of_le {a b : Extent} (h : a.stop ≤ b.start) : a.Apart b := Or.inl h

theorem Apart.symm {a b : Extent} (h : a.Apart b) : b.Apart a := Or.symm h

/-- Parts of extents that are apart are apart. -/
theorem Apart.mono {a b a' b' : Extent} (h : a.Apart b)
    (ha : a.start ≤ a'.start ∧ a'.stop ≤ a.stop) (hb : b.start ≤ b'.start ∧ b'.stop ≤ b.stop) :
    a'.Apart b' := by
  simp only [Apart] at h ⊢
  omega

theorem Apart.not_mem {a b : Extent} (h : a.Apart b) {x : Nat} (hx : x ∈ a) : x ∉ b := by
  simp only [Apart, mem_iff] at h hx ⊢
  omega

theorem apart_of_forall_mem {a b : Extent} (ha : a.start < a.stop) (hb : b.start < b.stop)
    (h : ∀ x, x ∈ a → x ∉ b) : a.Apart b := by
  by_cases hle : a.start ≤ b.start
  · have := h b.start
    simp only [Apart, mem_iff] at this ⊢
    omega
  · have := h a.start
    simp only [Apart, mem_iff] at this ⊢
    omega

theorem not_apart_self {e : Extent} (h : e.start < e.stop) : ¬ e.Apart e := by
  simp only [Apart]
  omega

@[simp] theorem isEmpty_eq_false_iff {e : Extent} : e.isEmpty = false ↔ e.start < e.stop := by
  have := e.start_le_stop
  simp only [isEmpty, beq_eq_false_iff_ne]
  omega

@[simp] theorem isEmpty_iff {e : Extent} : e.isEmpty = true ↔ e.start = e.stop := by
  simp [isEmpty]

theorem covers_iff {e inner : Extent} :
    e.covers inner = true ↔ e.start ≤ inner.start ∧ inner.stop ≤ e.stop := by
  simp [covers]

theorem mem_of_covers {e inner : Extent} (h : e.covers inner = true) {x : Nat} (hx : x ∈ inner) :
    x ∈ e := by
  have := covers_iff.1 h
  simp only [mem_iff] at hx ⊢
  omega

theorem ofBounds?_of_le {start stop : Nat} (h : start ≤ stop) (hlt : stop < Address.limit) :
    ofBounds? start stop = some ⟨start, stop, h, hlt⟩ :=
  dif_pos ⟨h, hlt⟩

theorem ofBounds?_eq_some_iff {start stop : Nat} {e : Extent} :
    ofBounds? start stop = some e ↔ e.start = start ∧ e.stop = stop := by
  refine ⟨ofBounds?_eq_some, ?_⟩
  rintro ⟨rfl, rfl⟩
  exact ofBounds?_of_le e.start_le_stop e.stop_lt

theorem ofBounds?_eq_none_iff {start stop : Nat} :
    ofBounds? start stop = none ↔ ¬ (start ≤ stop ∧ stop < Address.limit) := by
  unfold ofBounds?
  split
  case isTrue h => exact ⟨fun hnone => absurd hnone (Option.some_ne_none _), absurd h⟩
  case isFalse h => exact ⟨fun _ => h, fun _ => rfl⟩

/-- Between bounds that are not in order there is no byte. -/
theorem filter_ofBounds?_of_le {start stop : Nat} (h : stop ≤ start) :
    (ofBounds? start stop).filter (!·.isEmpty) = none := by
  rw [Option.filter_eq_none_iff]
  intro e he hne
  obtain ⟨hstart, hstop⟩ := ofBounds?_eq_some_iff.1 he
  simp only [Bool.not_eq_true', isEmpty_eq_false_iff] at hne
  omega

theorem filter_ofBounds?_of_lt {start stop : Nat} (h : start < stop) (hlt : stop < Address.limit) :
    (ofBounds? start stop).filter (!·.isEmpty) = some ⟨start, stop, Nat.le_of_lt h, hlt⟩ := by
  rw [ofBounds?_of_le (Nat.le_of_lt h) hlt, Option.filter_some, if_pos]
  simp only [Bool.not_eq_true', isEmpty_eq_false_iff]
  exact h

theorem ofLength?_eq_some_iff {start length : Nat} {e : Extent} :
    ofLength? start length = some e ↔ e.start = start ∧ e.stop = start + length :=
  ofBounds?_eq_some_iff

theorem ofBoundsD_bounds {start stop : Nat} (h : start ≤ stop) (hlt : stop < Address.limit) :
    (ofBoundsD start stop).start = start ∧ (ofBoundsD start stop).stop = stop := by
  rw [ofBoundsD, ofBounds?_of_le h hlt]
  exact ⟨rfl, rfl⟩

@[simp] theorem total_nil : total [] = 0 := rfl

@[simp] theorem total_cons (e : Extent) (rest : List Extent) :
    total (e :: rest) = e.length + total rest := rfl

theorem total_append (a b : List Extent) : total (a ++ b) = total a + total b := by
  induction a with
  | nil => exact (Nat.zero_add _).symm
  | cons e rest ih => rw [List.cons_append, total_cons, total_cons, ih, Nat.add_assoc]

theorem total_perm {a b : List Extent} (h : a.Perm b) : total a = total b := by
  induction h with
  | nil => rfl
  | cons e _ ih => rw [total_cons, total_cons, ih]
  | swap e e' rest => exact Nat.add_left_comm _ _ _
  | trans _ _ ih ih' => exact ih.trans ih'

/-- The extents follow each other from `lo` to `hi`, and none of them is empty. -/
def Tile (lo hi : Nat) : List Extent → Prop
  | [] => lo = hi
  | e :: rest => e.start = lo ∧ e.start < e.stop ∧ Tile e.stop hi rest

theorem tile_append {lo hi : Nat} {a b : List Extent} :
    Tile lo hi (a ++ b) ↔ ∃ mid, Tile lo mid a ∧ Tile mid hi b := by
  induction a generalizing lo with
  | nil => simp [Tile]
  | cons e rest ih => simp [Tile, ih, and_assoc]

namespace Tile

variable {lo hi : Nat} {extents : List Extent}

theorem bounds (h : Tile lo hi extents) :
    lo ≤ hi ∧ ∀ e ∈ extents, lo ≤ e.start ∧ e.start < e.stop ∧ e.stop ≤ hi := by
  induction extents generalizing lo with
  | nil => simpa [Tile] using Nat.le_of_eq h
  | cons a rest ih =>
      obtain ⟨hlo, hlt, htile⟩ := h
      obtain ⟨hle, hrest⟩ := ih htile
      refine ⟨by omega, fun e he => ?_⟩
      rcases List.mem_cons.1 he with rfl | he
      · omega
      · have := hrest e he
        omega

/-- A tiling has as many bytes as there are between its bounds. -/
theorem total_add (h : Tile lo hi extents) : total extents + lo = hi := by
  induction extents generalizing lo with
  | nil => exact (Nat.zero_add lo).trans h
  | cons a rest ih =>
      obtain ⟨rfl, hlt, htile⟩ := h
      have hrest := ih htile
      have hlength : a.length = a.stop - a.start := rfl
      rw [total_cons]
      omega

/-- The extents of a tiling come in address order. -/
theorem pairwise (h : Tile lo hi extents) : extents.Pairwise fun a b => a.stop ≤ b.start := by
  induction extents generalizing lo with
  | nil => exact .nil
  | cons a rest ih => exact .cons (fun e he => (h.2.2.bounds.2 e he).1) (ih h.2.2)

/-- The bytes of a tiling are those of its extents. -/
theorem exists_mem_iff (h : Tile lo hi extents) (x : Nat) :
    (∃ e ∈ extents, x ∈ e) ↔ lo ≤ x ∧ x < hi := by
  induction extents generalizing lo with
  | nil =>
      have : lo = hi := h
      simp only [List.not_mem_nil, false_and, exists_false, false_iff]
      omega
  | cons a rest ih =>
      obtain ⟨hlo, hlt, htile⟩ := h
      have hle := htile.bounds.1
      have hsplit : (∃ e ∈ a :: rest, x ∈ e) ↔ x ∈ a ∨ ∃ e ∈ rest, x ∈ e := by simp
      rw [hsplit, ih htile, mem_iff]
      omega

end Tile

end Staging.Extent
