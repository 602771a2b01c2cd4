import Staging.Proofs.Task.Marks

/-!
# Sources in the order of targets

A flexible chunk that is not in place has its target in a window, and other chunks have theirs
below the window or above it.  The limits of its source lie on the same sides of the sources of
those chunks (`inOrder_of_limits`), so a source between the limits keeps the order of the targets.
If there is none, the source is borrowed on top of the ordinary ones, and then it is no ordinary
source (`borrowInPostArea_aside`).  So an ordinary source of a chunk that is moved keeps the order,
in whatever state the chunk is staged (`order_of_stageWithin`).
-/

namespace Staging

/-- A source lies on the side of the source of this chunk on which a window lies of its target. -/
structure Chunk.InOrder (c : Chunk) (low high : Nat) (source : Extent) : Prop where
  below : high ≤ c.target.start → source.stop ≤ c.source.start
  above : c.target.stop ≤ low → c.source.stop ≤ source.start

namespace Task

variable {φ γ : Type} {origin : Heap} {fw : Firmware φ} {gen : Code.Generator γ}
  {gens : Code.Generator γ → Prop}
  {track : φ → List Extent → Prop} {m : Task} {s : Running φ}

/-! ### Limits -/

theorem le_foldl_max {α : Type} {f : α → Nat} {l : List α} {a : α} (ha : a ∈ l) (k : Nat) :
    f a ≤ l.foldl (fun low b => max low (f b)) k := by
  rw [← List.foldl_map, List.foldl_max]
  exact (List.le_max?_getD_of_mem (List.mem_map_of_mem ha)).trans (le_max_right _ _)

theorem foldl_min_le {α : Type} {f : α → Nat} {l : List α} {a : α} (ha : a ∈ l) (k : Nat) :
    l.foldl (fun high b => min high (f b)) k ≤ f a := by
  rw [← List.foldl_map, List.foldl_min]
  exact (min_le_right _ _).trans (List.min?_getD_le_of_mem (List.mem_map_of_mem ha))

/-- **Between its limits** a source is in order with all ordinary chunks. -/
theorem inOrder_of_limits {window source : Extent}
    (hlow : (m.orderLimits window).1 ≤ source.start)
    (hhigh : source.stop ≤ (m.orderLimits window).2) :
    ∀ c ∈ m.chunks, c.source.start < m.postStart → c.InOrder window.start window.stop source := by
  intro c hc hordinary
  have hmem : c ∈ m.chunks.filter fun chunk => chunk.source.start < m.postStart := by
    simp [hc, hordinary]
  constructor
  · intro habove
    have hside : c ∈ (m.chunks.filter fun chunk => chunk.source.start < m.postStart).filter
        fun chunk => window.stop ≤ chunk.target.start := by simp [hc, hordinary, habove]
    exact hhigh.trans (foldl_min_le hside _)
  · intro hbelow
    have hside : c ∈ (m.chunks.filter fun chunk => chunk.source.start < m.postStart).filter
        fun chunk => chunk.target.stop ≤ window.start := by simp [hc, hordinary, hbelow]
    exact (le_foldl_max hside _).trans hlow

/-! ### Borrowing -/

/-- What a source that is borrowed for a chunk to be moved does to the marks: it is in order with
all ordinary chunks, and the marks are as they were, or it lies in the post area. -/
def Ranks (m : Task) (window source : Extent) (s : Running φ) : Prop :=
  (Marked m s ∧ ∀ c ∈ m.chunks, c.source.start < m.postStart →
    c.InOrder window.start window.stop source) ∨ s.task.postStart ≤ source.start

/-- The post area reaches down to a source that is borrowed there. -/
theorem borrowInPostArea_aside (size align : Nat) :
    Post (borrowInPostArea fw size align) (fun outcome s' => ∀ source, outcome = some source →
      s'.task.postStart ≤ source.extent.start) (fun _ => True) s := by
  unfold borrowInPostArea
  rw [post_bind_iff, post_books_iff]
  refine post_within (by simp) fun window => ?_
  refine (post_trivial _).bind fun outcome s' _ => ?_
  cases outcome with
  | none => simp [post_pure_iff]
  | some found =>
      rw [post_bind_iff, post_update_iff, post_bind_iff, post_books_iff, post_bind_iff,
        post_note_iff]
      intro source hsource
      cases hsource
      exact min_le_right _ _

section Borrowing

variable (hv : origin.Valid) (hfw : fw.Tracks track)
include hv hfw

/-- A source between limits lies between them, and leaves the marks alone. -/
theorem borrowBetween_inside {low high size align : Nat}
    (h : Kept origin track m.chunks [] s) (hmarked : Marked m s) :
    Post (within low high fun limits => borrowSource fw ⟨limits, size, align, .ascending⟩)
      (fun outcome s' => ∀ source, outcome = some source →
        Marked m s' ∧ low ≤ source.extent.start ∧ source.extent.stop ≤ high) (fun _ => True) s := by
  unfold within
  split
  case h_1 => simp [post_pure_iff]
  case h_2 limits hlimits =>
    obtain ⟨hlow, hhigh⟩ := Extent.ofBounds?_eq_some hlimits
    refine ((borrowSource_spec hv hfw _ h).and (borrowSource_marked _ hmarked)).mono ?_ (by simp)
    rintro outcome s' ⟨hserves, hmarked', -⟩ source rfl
    obtain ⟨-, hserves⟩ := hserves
    exact ⟨hmarked', hlow ▸ hserves.inside.1, hhigh ▸ hserves.inside.2.2⟩

/-- **The source of a flexible chunk** is its target, or it is in order, or in the post area. -/
theorem borrowForWish_ranks (wish : Wish) (h : Kept origin track m.chunks [] s)
    (hmarked : Marked m s) :
    Post (borrowForWish fw wish) (fun outcome s' => ∀ source target,
      outcome = some (source, target) →
        source.extent = target ∨ Ranks m wish.window source.extent s') (fun _ => True) s := by
  unfold borrowForWish
  refine (((borrowSource_spec hv hfw _ h).and (borrowSource_marked _ hmarked)).mono
    (fun _ _ => id) (by simp)).bind ?_
  rintro outcome s₁ ⟨h₁, hmarked₁, -⟩
  cases outcome with
  | some found =>
      rintro source target hsome
      cases hsome
      exact .inl rfl
  | none =>
      have hram : Post (ramExtents fw) (fun _ => Marked m) (fun _ => True) s₁ := hmarked₁
      refine (((ramExtents_spec hfw h₁ (R := fun _ => True)).and hram).mono (fun _ _ => id)
        fun _ _ => trivial).bind ?_
      rintro ram s₂ ⟨h₂, hmarked₂⟩
      rw [post_bind_iff, post_books_iff]
      split
      case h_1 => simp [post_pure_iff]
      case h_2 target hselect =>
        rw [post_bind_iff, post_note_iff, post_bind_iff, post_books_iff, post_bind_iff,
          post_note_iff, post_bind_iff]
        have hlimits : s₂.task.orderLimits wish.window = m.orderLimits wish.window := by
          rw [← show s₂.task.marks = m from hmarked₂]
          rfl
        dsimp only
        rw [hlimits]
        refine (post_orElse (Q := fun outcome s' => ∀ source, outcome = some source →
          Ranks m wish.window source.extent s') ?_ fun s₃ _ => ?_).mono ?_ fun _ => id
        · refine (borrowBetween_inside hv hfw ((h₂.note _).note _)
            ((hmarked₂.note _).note _)).mono ?_ fun _ => id
          intro outcome s₃ hinside source hsource
          obtain ⟨hmarked₃, hlow, hhigh⟩ := hinside source hsource
          exact .inl ⟨hmarked₃, inOrder_of_limits hlow hhigh⟩
        · refine (borrowInPostArea_aside _ _).mono ?_ fun _ => id
          intro outcome s₄ haside source hsource
          exact .inr (haside source hsource)
        · rintro outcome s₃ hranks source target' hsome
          obtain ⟨source', rfl, hpair⟩ := Option.map_eq_some_iff.1 hsome
          cases hpair
          exact .inr (hranks _ rfl)

end Borrowing

/-! ### Calls -/

/-- What a call for a flexible chunk enters: a chunk in place, or one whose source is in order with
all ordinary chunks, or one in the post area. -/
theorem stageWithin_ranks (hv : origin.Valid) (hfw : fw.Tracks track)
    {low high size align : Nat} {preferred : WindowEnd}
    (h : Kept origin track s.task.chunks [] s) :
    Post (stageWithin fw gen low high size align preferred) (fun addresses s' => ∃ chunk,
      s'.task.chunks = s.task.chunks ++ [chunk] ∧
        addresses = (chunk.source.start, chunk.target.start) ∧
        (chunk.source = chunk.target ∨
          (s'.task.postStart = s.task.postStart ∧ ∀ c ∈ s.task.chunks,
            c.source.start < s.task.postStart → c.InOrder low high chunk.source) ∨
          s'.task.postStart ≤ chunk.source.start)) (fun _ => True) s := by
  unfold stageWithin
  split
  case isTrue => trivial
  case isFalse =>
    split
    case isTrue => trivial
    case isFalse =>
      split
      case h_1 => trivial
      case h_2 window hwindow =>
        obtain ⟨rfl, rfl⟩ := Extent.ofBounds?_eq_some (Option.filter_eq_some_iff.1 hwindow).1
        have hmarked : Marked s.task.marks s := rfl
        have hkept : Kept origin track s.task.marks.chunks [] s := h
        refine (((borrowForWish_ranks hv hfw ⟨window, size, align, preferred⟩ hkept hmarked).and
          (borrowForWish_leaves ⟨window, size, align, preferred⟩ hmarked)).mono (fun _ _ => id)
            fun _ _ => trivial).bind ?_
        rintro outcome s₁ ⟨hranks, hleaves⟩
        split
        case h_1 => trivial
        case h_2 source target =>
          refine enter_exact.bind fun address s₂ ⟨haddress, hmarks⟩ => ?_
          have hlowers : Lowers s.task.marks source.extent s₁.task.marks := hleaves
          have hchunks : s₂.task.marks.chunks =
              s₁.task.marks.chunks ++ [⟨source.extent, target, source.loans⟩] := by
            rw [hmarks]
            rfl
          have hpost : s₂.task.marks.postStart = s₁.task.marks.postStart := by
            rw [hmarks]
            rfl
          refine ⟨⟨source.extent, target, source.loans⟩, hlowers.chunks ▸ hchunks,
            Prod.ext haddress rfl, ?_⟩
          rcases hranks source target rfl with hplace | ⟨hsame, horder⟩ | haside
          · exact .inl hplace
          · have hsame : s₁.task.marks = s.task.marks := hsame
            exact .inr (.inl ⟨hpost.trans (by rw [hsame]; rfl), horder⟩)
          · exact .inr (.inr (Nat.le_trans (Nat.le_of_eq hpost) haside))

/-- **Sources keep the order of targets.**  In every state that is reached, a flexible chunk that is
not in place has an ordinary source only without moving the post area, and this source is below
those of the ordinary chunks with targets above its window, and above those of the ordinary chunks
with targets below its window. -/
theorem order_of_stageWithin {firmware : φ} {s' : Running φ} {low high size align : Nat}
    {preferred : WindowEnd} {source target : Nat} (horigin : origin.Reachable)
    (h : Reach fw gens origin firmware s)
    (hcall : stageWithin fw gen low high size align preferred s = .ok (source, target) s')
    (hmoved : source ≠ target) :
    ∃ chunk, s'.task.chunks = s.task.chunks ++ [chunk] ∧ chunk.source.start = source ∧
      chunk.target.start = target ∧ (chunk.source.start < s'.task.postStart →
        s'.task.postStart = s.task.postStart ∧ ∀ c ∈ s.task.chunks,
          c.source.start < s'.task.postStart → c.InOrder low high chunk.source) := by
  have hv := horigin.valid
  have hkept := (h.staged hv fw.tracks_nothing trivial).kept
  obtain ⟨chunk, hchunks, haddresses, hranks⟩ :=
    (stageWithin_ranks hv fw.tracks_nothing hkept).of_ok hcall
  obtain ⟨rfl, rfl⟩ := Prod.mk.inj haddresses
  refine ⟨chunk, hchunks, rfl, rfl, fun hordinary => ?_⟩
  rcases hranks with hplace | ⟨hpost, horder⟩ | haside
  · exact absurd (congrArg Extent.start hplace) hmoved
  · refine ⟨hpost, fun c hc hbelow => horder c hc ?_⟩
    exact hpost ▸ hbelow
  · exact absurd hordinary (Nat.not_lt.2 haside)

/-- A source between those of two chunks, one with its target below the window and one with its
target above. -/
theorem order_of_stageWithin_between : ∃ (s s' : Running Firmware.Table) (chunk : Chunk),
    smallHeap.Reachable ∧ Reach Firmware.ofTable (· = smallGenerator) smallHeap smallFirmware s ∧
      s.task.chunks.map (fun c => (c.source.start, c.target.start)) =
        [(0x1120, 0x500), (0x40e0, 0x100000)] ∧
      stageWithin Firmware.ofTable smallGenerator 0x4000 0x7000 0x1800 0x100 .high s =
        .ok (0x1200, 0x5800) s' ∧
      s'.task.postStart = Address.top ∧ s'.task.chunks = s.task.chunks ++ [chunk] ∧
      chunk.source.start = 0x1200 ∧ chunk.target.start = 0x5800 ∧
      ∀ c ∈ s.task.chunks, c.source.start < s'.task.postStart →
        c.InOrder 0x4000 0x7000 chunk.source := by
  have hends : (run? Firmware.ofTable smallGenerator
      [.stageAt 0x500 0x40, .stageAt 0x100000 0x1f00]
      { task := Task.start smallHeap smallGenerator, firmware := smallFirmware }).map (fun s =>
        (s.task.chunks.map (fun c => (c.source.start, c.target.start)),
          match stageWithin Firmware.ofTable smallGenerator 0x4000 0x7000 0x1800 0x100 .high s with
          | .ok value s' => some (value, s'.task.postStart)
          | _ => none)) =
      some ([(0x1120, 0x500), (0x40e0, 0x100000)], some ((0x1200, 0x5800), Address.top)) := by
    decide +kernel
  obtain ⟨s, hrun, hend⟩ := Option.map_eq_some_iff.1 hends
  obtain ⟨hchunks, hend⟩ := Prod.ext_iff.1 hend
  dsimp only at hchunks hend
  split at hend
  case h_2 => cases hend
  case h_1 value s' hstage =>
    obtain ⟨rfl, hpost⟩ := Prod.mk.inj (Option.some.inj hend)
    have hreach : Reach Firmware.ofTable (· = smallGenerator) smallHeap smallFirmware s :=
      reach_of_run? hrun
    obtain ⟨chunk, hadds, hsource, htarget, horder⟩ :=
      order_of_stageWithin smallHeap_reachable hreach hstage (by decide)
    have hordinary : chunk.source.start < s'.task.postStart := by
      rw [hsource, hpost]
      decide
    exact ⟨s, s', chunk, smallHeap_reachable, hreach, hchunks, hstage, hpost, hadds, hsource,
      htarget, (horder hordinary).2⟩

end Task

end Staging
