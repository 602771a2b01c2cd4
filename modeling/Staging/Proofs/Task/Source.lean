import Staging.Proofs.Sweep.Basic
import Staging.Proofs.Task.Borrowing
import Staging.Proofs.Task.Room

/-!
# Sources that are borrowed

A task keeps its chunks while it borrows a source, and owes their loans and those of the source
(`Kept`).  What a search finds avoids all targets, and its pieces are ready to be borrowed
(`Placed.ready`): nothing that the heap had or lent, and no block of the firmware, is mistaken for
free memory of the firmware.  So a source that is borrowed consists of its loans, lies inside the
window, and avoids the targets of all chunks (`borrowSource_spec`).
-/

namespace Staging

/-- The next attempt has a part of the window, and is the same otherwise. -/
theorem Request.retry?_spec {r next : Request} {refused : Extent}
    (h : r.retry? refused = some next) :
    r.window.start ≤ next.window.start ∧ next.window.stop ≤ r.window.stop ∧
      next.size = r.size ∧ next.align = r.align := by
  obtain ⟨window, hbeyond, hnext⟩ := Option.bind_eq_some_iff.1 h
  obtain ⟨hlo, hhi⟩ := covers_of_beyond? hbeyond
  split at hnext
  case isFalse => contradiction
  case isTrue =>
    cases hnext
    exact ⟨hlo, hhi, rfl, rfl⟩

namespace Task

variable {φ : Type} {origin : Heap} {fw : Firmware φ} {track : φ → List Extent → Prop}
  {chunks : List Chunk} {pending : List Loan} {s : Running φ}

/-- What the search of a request finds in a heap among other intervals. -/
structure Placed (intervals : List Interval) (heap : Heap) (request : Request) (extent : Extent)
    (pieces : List Piece) : Prop where
  inside : request.window.start ≤ extent.start ∧ 1 ≤ extent.start ∧
    extent.stop ≤ request.window.stop
  size : extent.stop = extent.start + request.size ∧ 0 < request.size
  usable : ∀ x ∈ extent, Usable (intervals ++ heap.intervals) x
  tile : Extent.Tile extent.start extent.stop (pieces.map (·.extent))
  rightful : ∀ p ∈ pieces, p.Rightful heap.regions (intervals ++ heap.intervals)

theorem placed_of_search {heap : Heap} {intervals : List Interval} {request : Request}
    {extent : Extent} {pieces : List Piece}
    (h : heap.search intervals request = .ok (some (extent, pieces))) :
    Placed intervals heap request extent pieces := by
  rw [Heap.search, Sweep.sort_add] at h
  dsimp only at h
  split at h
  case h_1 => cases h
  case h_2 => cases h
  case h_3 found hfind =>
    split at h
    case h_2 => cases h
    case h_1 divided hdivide =>
      cases h
      obtain ⟨hlo, hone, hhi, hstop, hsize, husable⟩ := Sweep.find_spec hfind
      obtain ⟨htile, hrightful⟩ := Sweep.divide_spec hdivide
      exact ⟨⟨hlo, hone, hhi⟩, ⟨hstop, hsize⟩, husable, htile, hrightful⟩

/-- The loans of chunks, newest first. -/
def owed (chunks : List Chunk) : List Loan := chunks.reverse.flatMap (·.loans)

theorem mem_owed_iff {loan : Loan} : loan ∈ owed chunks ↔ ∃ chunk ∈ chunks, loan ∈ chunk.loans := by
  simp [owed]

/-- A running task keeps these chunks, and owes their loans and some that are pending. -/
structure Kept (origin : Heap) (track : φ → List Extent → Prop) (chunks : List Chunk)
    (pending : List Loan) (s : Running φ) : Prop where
  owes : Owes origin track (pending ++ owed chunks) s
  chunks : s.task.chunks = chunks

theorem Kept.note (h : Kept origin track chunks pending s) (n : Notice) :
    Kept origin track chunks pending { s with notices := s.notices.push n } :=
  ⟨h.owes.note n, h.chunks⟩

/-- Which kinds of intervals a search masks or avoids beside those of the heap. -/
theorem mem_intervals_iff {task : Task} {listing : List Extent} {i : Interval} :
    i ∈ task.intervals listing ↔
      (∃ e ∈ listing, i = ⟨.firmwareAvailable, e, none⟩) ∨
      (∃ e ∈ task.blocks, i = ⟨.firmwareBlock, e, none⟩) ∨
      ∃ chunk ∈ task.chunks, i = ⟨.collision, chunk.target, none⟩ ∨
        ∃ loan ∈ chunk.loans, i = ⟨.firmwareBlock, loan.claimed, none⟩ := by
  simp [intervals, eq_comm]

/-- Only the heap adds offers to a search. -/
theorem kind_of_mem_intervals {task : Task} {listing : List Extent} :
    ∀ i ∈ task.intervals listing, i.kind ≠ .regionHead ∧ i.kind ≠ .regionBody := by
  intro i hi
  obtain ⟨e, -, rfl⟩ | ⟨e, -, rfl⟩ | ⟨chunk, -, rfl | ⟨loan, -, rfl⟩⟩ := mem_intervals_iff.1 hi <;>
    simp

/-- The target of a chunk is avoided. -/
theorem Placed.clear {listing : List Extent} {heap : Heap} {request : Request} {extent : Extent}
    {pieces : List Piece} {task : Task}
    (h : Placed (task.intervals listing) heap request extent pieces) :
    ∀ chunk ∈ task.chunks, ∀ x ∈ extent, x ∉ chunk.target := by
  intro chunk hchunk x hx htarget
  refine (h.usable x hx).1 ⟨⟨.collision, chunk.target, none⟩, ?_, rfl, htarget⟩
  exact List.mem_append_left _ (mem_intervals_iff.2 (.inr (.inr ⟨chunk, hchunk, .inl rfl⟩)))

/-- All that a loan took is masked. -/
theorem over_of_claimed {task : Task} {listing : List Extent} {heap : Heap} {loan : Loan}
    (hloan : loan ∈ owed task.chunks) {x : Nat} (hx : x ∈ loan.claimed) :
    Over (task.intervals listing ++ heap.intervals) .firmwareBlock x := by
  obtain ⟨chunk, hchunk, hloan⟩ := mem_owed_iff.1 hloan
  refine ⟨⟨.firmwareBlock, loan.claimed, none⟩, List.mem_append_left _ ?_, rfl, hx⟩
  exact mem_intervals_iff.2 (.inr (.inr ⟨chunk, hchunk, .inr ⟨loan, hloan, rfl⟩⟩))

theorem over_of_region {intervals : List Interval} {heap : Heap} {r : Region}
    (hr : r ∈ heap.regions) {x : Nat} (hx : x ∈ r.extent) :
    Over (intervals ++ heap.intervals) .firmwareBlock x := by
  obtain ⟨i, hi, hkind, hextent⟩ := Heap.mem_intervals_of_region hr
  exact ⟨i, List.mem_append_right _ hi, hkind, hextent ▸ hx⟩

/-- **The pieces of a placement are ready to be borrowed.** -/
theorem Placed.ready (hv : origin.Valid) {task : Task} {listing : List Extent}
    {request : Request} {extent : Extent} {pieces : List Piece}
    (hlent : origin.Lent (owed task.chunks) task.heap)
    (h : Placed (task.intervals listing) task.heap request extent pieces) :
    ∀ p ∈ pieces, Ready origin (owed task.chunks) task.heap p := by
  intro p hp
  have hright := h.rightful p hp
  have hne := (h.tile.bounds.2 _ (List.mem_map_of_mem hp)).2.1
  obtain ⟨extent', owner⟩ := p
  cases owner with
  | regionBody id => trivial
  | regionHead id =>
      -- Only the heap adds head rooms to a search.
      obtain ⟨i, hi, hkind, hle, index, region, hindex, hregion, rfl⟩ := hright
      have hheap : i ∈ task.heap.intervals := by
        rcases List.mem_append.1 hi with hi | hi
        · obtain ⟨e, -, rfl⟩ | ⟨e, -, rfl⟩ | ⟨chunk, -, rfl | ⟨loan, -, rfl⟩⟩ :=
            mem_intervals_iff.1 hi <;> cases hkind
        · exact hi
      intro r hr hid
      obtain rfl := (hlent.valid hv).eq_of_id_eq hr (List.mem_of_getElem? hregion) hid
      exact .inl (Heap.regionHead_of_mem_intervals hheap hkind hindex hregion ▸ hle)
  | firmware =>
      have hunmasked : ∀ x ∈ extent',
          ¬ Over (task.intervals listing ++ task.heap.intervals) .firmwareBlock x :=
        fun x hx => (hright x hx).2
      constructor
      · intro r₀ hr₀
        obtain ⟨r, hr, hacc⟩ := hlent.account_of_mem hv hr₀
        have hvalid := hv.regions r₀ hr₀
        have hregion : r₀.extent.start < r₀.extent.stop := by
          have := hvalid.extent_bounds
          have := hvalid.bounds
          omega
        -- All that a region had at the start is masked: what is left of it, and what it lent.
        refine Extent.apart_of_forall_mem hregion hne fun x hx hx' => hunmasked x hx' ?_
        rcases (hacc.mem_extent_iff hvalid x).1 hx with ⟨loan, hloan, -, hx⟩ | hx
        · exact over_of_claimed hloan hx
        · exact over_of_region hr hx
      · intro other hother
        obtain ⟨loan, hloan, hblock⟩ := List.mem_filterMap.1 hother
        obtain ⟨hfw, rfl⟩ := Loan.block?_eq_some_iff.1 hblock
        obtain ⟨hbyte, -⟩ := hlent.claimed_covers hv hloan
        refine Extent.apart_of_forall_mem hbyte hne fun x hx hx' => hunmasked x hx' ?_
        exact over_of_claimed hloan (Loan.claimed_of_firmware hfw ▸ hx)

/-! ### Searching and borrowing -/

/-- What the source of a request has to be beside the chunks. -/
structure Serves (request : Request) (chunks : List Chunk) (source : Source) : Prop where
  inside : request.window.start ≤ source.extent.start ∧ 1 ≤ source.extent.start ∧
    source.extent.stop ≤ request.window.stop
  size : source.extent.stop = source.extent.start + request.size ∧ 0 < request.size
  tile : Extent.Tile source.extent.start source.extent.stop (source.loans.map (·.extent))
  clear : ∀ chunk ∈ chunks, ∀ x ∈ source.extent, x ∉ chunk.target

/-- What serves the next attempt serves the request. -/
theorem Serves.of_retried {request next : Request} {refused : Extent} {source : Source}
    (h : Serves next chunks source) (hretry : request.retry? refused = some next) :
    Serves request chunks source := by
  obtain ⟨hlo, hhi, hsize, -⟩ := Request.retry?_spec hretry
  obtain ⟨hstart, hone, hstop⟩ := h.inside
  exact ⟨⟨Nat.le_trans hlo hstart, hone, Nat.le_trans hstop hhi⟩, hsize ▸ h.size, h.tile, h.clear⟩

/-- What is collected are the intervals of what the firmware lists. -/
theorem collect_spec (hfw : fw.Tracks track) {R : Running φ → Prop}
    (h : Kept origin track chunks pending s) :
    Post (collect fw) (fun intervals s' => Kept origin track chunks pending s' ∧
      s'.firmware = (fw.available s.firmware).state ∧
      intervals = s'.task.intervals (fw.available s.firmware).value) R s :=
  post_collect ⟨⟨⟨h.owes.heap, h.owes.blocks, hfw.available h.owes.tracked⟩, h.chunks⟩, rfl, rfl⟩

/-- A search leaves the task as it is; the heap is frozen only while it lasts. -/
theorem search_found {intervals : List Interval} {request : Request} :
    Post (search intervals request) (fun found s' => s' = s ∧
      s.task.heap.search intervals request = .ok found) (fun s' => s' = s) s := by
  unfold search
  rw [post_bind_iff, post_books_iff, post_bind_iff]
  refine post_orTrap fun frozen hfreeze => ?_
  obtain ⟨hthawed, rfl⟩ := Heap.freeze_eq_ok_iff.1 hfreeze
  rw [post_bind_iff, post_update_iff]
  have hsame : Heap.thaw { s.task.heap with frozen := true } = s.task.heap := by
    simp [Heap.thaw, ← hthawed]
  rw [hsame]
  split
  case h_1 placement hfound => exact ⟨rfl, hfound⟩
  case h_2 cause hfound => exact post_throw rfl

theorem search_spec {intervals : List Interval} {request : Request} :
    Post (search intervals request) (fun found s' => s' = s ∧
      ∀ extent pieces, found = some (extent, pieces) →
        Placed intervals s.task.heap request extent pieces) (fun s' => s' = s) s := by
  refine search_found.mono (fun found s' ⟨hsame, hfound⟩ => ⟨hsame, ?_⟩) fun _ => id
  intro extent pieces hsome
  exact placed_of_search (hfound.trans (congrArg Except.ok hsome))

theorem attempt_spec (hv : origin.Valid) (hfw : fw.Tracks track) {request : Request}
    (h : Kept origin track chunks [] s) :
    Post (attempt fw request) (fun outcome s' =>
      match outcome with
      | .borrowed source => Kept origin track chunks source.loans s' ∧
          Serves request chunks source
      | _ => Kept origin track chunks [] s') (Kept origin track chunks []) s := by
  unfold attempt
  rw [post_bind_iff, post_note_iff]
  refine (collect_spec hfw (h.note _)).bind fun intervals s₁ ⟨hkept, _, hintervals⟩ => ?_
  subst hintervals
  rw [post_bind_iff]
  refine (search_spec).mono ?_ fun s' hs' => hs' ▸ hkept
  rintro found s' ⟨rfl, hfound⟩
  split
  case h_1 => exact hkept
  case h_2 extent pieces =>
    have hplaced := hfound extent pieces rfl
    obtain ⟨howes, rfl⟩ := hkept
    have hready := hplaced.ready hv howes.heap
    rw [post_bind_iff]
    refine (borrowAll_spec hv hfw howes hplaced.tile hready).mono ?_ fun _ => id
    rintro outcome s₂ ⟨hchunks, houtcome⟩
    split
    case h_1 loans =>
      rw [post_bind_iff, post_note_iff]
      refine ⟨⟨houtcome.1.note _, hchunks⟩, hplaced.inside, hplaced.size, houtcome.2, ?_⟩
      exact hplaced.clear
    case h_2 piece => exact ⟨houtcome, hchunks⟩
    case h_3 cause => exact ⟨houtcome, hchunks⟩

/-- **A source that is borrowed** serves the request.  If nothing is borrowed, nothing is owed. -/
theorem borrowSource_spec (hv : origin.Valid) (hfw : fw.Tracks track) (request : Request)
    (h : Kept origin track chunks [] s) :
    Post (borrowSource fw request) (fun outcome s' =>
      match outcome with
      | some source => Kept origin track chunks source.loans s' ∧ Serves request chunks source
      | none => Kept origin track chunks [] s') (Kept origin track chunks []) s := by
  induction request using borrowSource.induct generalizing s with
  | case1 request ih =>
      rw [borrowSource]
      refine (attempt_spec hv hfw h).bind fun outcome s₁ houtcome => ?_
      cases outcome with
      | exhausted => exact houtcome
      | borrowed source => exact houtcome
      | refused piece =>
          dsimp only at houtcome ⊢
          rw [post_bind_iff, post_note_iff]
          split
          case h_1 => exact houtcome.note _
          case h_2 next hretry =>
            refine (ih piece next hretry (houtcome.note _)).mono ?_ fun _ => id
            intro outcome s₂ hs₂
            cases outcome with
            | none => exact hs₂
            | some source =>
                exact ⟨hs₂.1, hs₂.2.of_retried hretry⟩

end Task

end Staging
