import Staging.Proofs.Task.Shift
import Staging.Proofs.Task.Steady

/-!
# The policy of flexible chunks

A flexible chunk is rejected for its size or its alignment, or it has a target and a source at
multiples of the alignment, with the target inside the window, or there is no memory for it; nothing
else happens, whatever the firmware does (`Honours`).  While the firmware is steady it is in place
at the first slot of the window, and otherwise it has the selected target and the slot that the
order of the searches chooses (`stageWithin_policy`).
-/

namespace Staging

/-- The target is a place for the wish: aligned, inside of its window, and of its size. -/
structure Wish.Suits (w : Wish) (target : Extent) : Prop where
  aligned : w.align ∣ target.start
  fits : w.fits target.start = true
  size : target.stop = target.start + w.size

/-- A selected target is a place for the wish. -/
theorem Wish.suits_of_select? {w : Wish} {ram targets : List Extent} {target : Extent}
    (halign : Address.isPowerOfTwo w.align = true) (h : w.select? ram targets = some target) :
    w.Suits target := by
  obtain ⟨first, -, hnearest, hfits⟩ := (select?_eq_some_iff halign).1 h
  exact ⟨hnearest.free.aligned, hfits, hnearest.free.size⟩

/-- A slot in the window is a place for the wish. -/
theorem Wish.suits_of_places {w : Wish} {heading : Heading} {intervals : List Interval}
    {slot : Extent} (h : Request.Places ⟨w.window, w.size, w.align, heading⟩ intervals slot) :
    w.Suits slot := by
  obtain ⟨hstop, -, hne, haligned, hinside, -⟩ := h
  exact ⟨haligned, fits_iff.2 ⟨hinside.1, Nat.pos_of_ne_zero hne, hinside.2⟩, hstop⟩

/-- A chunk with a target for this call, and an aligned source. -/
structure Chunk.Suits (low high size align : Nat) (chunk : Chunk) : Prop where
  target_aligned : align ∣ chunk.target.start
  target_ne_zero : chunk.target.start ≠ 0
  low_le : low ≤ chunk.target.start
  le_high : chunk.target.start + size ≤ high
  target_size : chunk.target.stop = chunk.target.start + size
  source_aligned : align ∣ chunk.source.start
  source_ne_zero : chunk.source.start ≠ 0

namespace Task

variable {φ γ : Type} {origin : Heap} {fw : Firmware φ} {gen : Code.Generator γ}
  {gens : Code.Generator γ → Prop}
  {chunks : List Chunk} {listing : List Extent} {s : Running φ}

/-! ### Alignment -/

/-- The source begins at a multiple of the alignment, but not at zero. -/
def Source.Aligned (align : Nat) (source : Source) : Prop :=
  align ∣ source.extent.start ∧ source.extent.start ≠ 0

/-- A source is aligned, or nothing is owed. -/
def Seats (origin : Heap) (chunks : List Chunk) (align : Nat) : Option Source → Running φ → Prop
  | none, s => Kept origin (fun _ _ => True) chunks [] s
  | some source, _ => source.Aligned align

section Alignment

variable (hv : origin.Valid)
include hv

theorem borrowSource_seats (request : Request)
    (halign : Address.isPowerOfTwo request.align = true)
    (h : Kept origin (fun _ _ => True) chunks [] s) :
    Post (borrowSource fw request) (Seats origin chunks request.align) (fun _ => False) s := by
  refine ((borrowSource_places hv fw.tracks_nothing halign h).and
    (borrowSource_brings hv fw.tracks_nothing request h)).mono ?_ fun _ hfalse => hfalse.1
  rintro outcome s' ⟨hplaces, hbrings⟩
  cases outcome with
  | none => exact hbrings
  | some source =>
      obtain ⟨intervals, -, hslot⟩ := hplaces source rfl
      exact ⟨hslot.aligned, hslot.ne_zero⟩

theorem borrowInPostArea_seats (size : Nat) {align : Nat}
    (halign : Address.isPowerOfTwo align = true)
    (h : Kept origin (fun _ _ => True) chunks [] s) :
    Post (borrowInPostArea fw size align) (Seats origin chunks align) (fun _ => False) s := by
  unfold borrowInPostArea
  rw [post_bind_iff, post_books_iff]
  refine post_within h fun window => ?_
  refine (borrowSource_seats hv ⟨window, size, align, .descending⟩ halign h).bind ?_
  intro outcome s' houtcome
  cases outcome with
  | none => exact houtcome
  | some source => exact houtcome

/-- **The source and the target of a wish** are aligned, and the target is inside the window. -/
theorem borrowForWish_seats (wish : Wish) (halign : Address.isPowerOfTwo wish.align = true)
    (h : Kept origin (fun _ _ => True) chunks [] s) :
    Post (borrowForWish fw wish) (fun outcome _ => ∀ source target,
      outcome = some (source, target) → source.Aligned wish.align ∧ wish.Suits target)
      (fun _ => False) s := by
  unfold borrowForWish
  refine (((borrowSource_places hv fw.tracks_nothing halign h).and
    (borrowSource_seats hv _ halign h)).mono (fun _ _ => id) fun _ hfalse => hfalse.1).bind ?_
  rintro outcome s₁ ⟨hplaces, hseats⟩
  cases outcome with
  | some source =>
      obtain ⟨intervals, hplaces⟩ := hplaces source rfl
      rintro _ _ ⟨⟩
      exact ⟨hseats, Wish.suits_of_places hplaces⟩
  | none =>
      refine (ramExtents_spec fw.tracks_nothing hseats).bind fun ram s₂ h₂ => ?_
      rw [post_bind_iff, post_books_iff]
      split
      case h_1 => exact fun source target hsome => by cases hsome
      case h_2 target hselect =>
        rw [post_bind_iff, post_note_iff, post_bind_iff, post_books_iff, post_bind_iff,
          post_note_iff, post_bind_iff]
        refine (post_orElse (Q := Seats origin chunks wish.align) (post_within ?_ fun limits => ?_)
          fun s₃ h₃ => borrowInPostArea_seats hv _ halign h₃).mono ?_ fun _ => id
        · exact (h₂.note _).note _
        · exact borrowSource_seats hv ⟨limits, wish.size, wish.align, .ascending⟩ halign
            ((h₂.note _).note _)
        · rintro outcome s₃ h₃ source target' hsome
          obtain ⟨source', rfl, hpair⟩ := Option.map_eq_some_iff.1 hsome
          cases hpair
          exact ⟨h₃, Wish.suits_of_select? halign hselect⟩

end Alignment

/-! ### Rejections -/

/-- Why a flexible chunk is rejected before any search. -/
def rejectsWithin (size align : Nat) : Option Error :=
  if size = 0 then some .invalidSize
  else if !Address.isPowerOfTwo align then some (.invalidAlignment align)
  else none

theorem rejectsWithin_eq_none {size align : Nat} (h : rejectsWithin size align = none) :
    0 < size ∧ Address.isPowerOfTwo align = true := by
  unfold rejectsWithin at h
  split at h
  case isTrue => cases h
  case isFalse hsize =>
    split at h
    case isTrue => cases h
    case isFalse halign => exact ⟨Nat.pos_of_ne_zero hsize, by simpa using halign⟩

/-- Staging a flexible chunk is rejected first; it ends at once if the window has no room for it,
and borrows a source otherwise. -/
theorem stageWithin_eq (low high size align : Nat) (preferred : WindowEnd) :
    (∃ cause, rejectsWithin size align = some cause ∧
      stageWithin fw gen low high size align preferred s = .error (.error cause) s) ∨
    rejectsWithin size align = none ∧
      ((¬ (low ≤ high ∧ high < Address.limit ∧ low + size ≤ high) ∧
        stageWithin fw gen low high size align preferred s = .error (.error .outOfMemory) s) ∨
      ∃ window, Extent.ofBounds? low high = some window ∧
        stageWithin fw gen low high size align preferred s = (do
          match ← borrowForWish fw ⟨window, size, align, preferred⟩ with
          | none => refuse .outOfMemory
          | some (source, target) => return (← enter gen source target, target.start)) s) := by
  unfold stageWithin rejectsWithin
  by_cases hsize : size = 0
  · rw [if_pos hsize, if_pos hsize]
    exact .inl ⟨_, rfl, rfl⟩
  · rw [if_neg hsize, if_neg hsize]
    cases halign : Address.isPowerOfTwo align with
    | false => exact .inl ⟨_, rfl, rfl⟩
    | true =>
        refine .inr ⟨rfl, ?_⟩
        cases hwindow : (Extent.ofBounds? low high).filter (size ≤ ·.length) with
        | none =>
            refine .inl ⟨?_, rfl⟩
            rintro ⟨hle, hlt, hroom⟩
            have hlength : size ≤ high - low := by omega
            exact Option.filter_eq_none_iff.1 hwindow _ (Extent.ofBounds?_of_le hle hlt)
              (decide_eq_true hlength)
        | some window =>
            exact .inr ⟨window, (Option.filter_eq_some_iff.1 hwindow).1, rfl⟩

/-! ### Whatever the firmware does -/

/-- What a call for a flexible chunk does, whatever the firmware does: it has one chunk more that
suits it, or ends with an error and leaves the books alone. -/
structure Honours (fw : Firmware φ) (gen : Code.Generator γ) (low high size align : Nat)
    (s : Running φ) (action : Action φ (Nat × Nat)) : Prop where
  ends : Concludes action (fun value s' => rejectsWithin size align = none ∧
      ∃ chunk, s'.task.chunks = s.task.chunks ++ [chunk] ∧ chunk.Suits low high size align ∧
        value = (chunk.source.start, chunk.target.start))
    (fun cause s' => cause = (rejectsWithin size align).getD .outOfMemory ∧ s'.task = s.task) s
  trap : ∀ cause s', action s = .error (.trap cause) s' →
    rejectsWithin size align = none ∧ ¬ Ample fw gen s

/-- A call for a flexible chunk enters one that suits it, or ends because it is rejected or there is
no memory for it. -/
theorem stageWithin_concludes (hv : origin.Valid) (gen : Code.Generator γ)
    {low high size align : Nat} (preferred : WindowEnd)
    (h : Kept origin (fun _ _ => True) s.task.chunks [] s) :
    Concludes (stageWithin fw gen low high size align preferred)
      (fun value s' => rejectsWithin size align = none ∧
        ∃ chunk, s'.task.chunks = s.task.chunks ++ [chunk] ∧ chunk.Suits low high size align ∧
          value = (chunk.source.start, chunk.target.start))
      (fun cause _ => cause = (rejectsWithin size align).getD .outOfMemory) s := by
  obtain ⟨cause, hrejects, hend⟩ | ⟨hrejects, ⟨-, hend⟩ | ⟨window, hwindow, hend⟩⟩ :=
    @stageWithin_eq φ γ fw gen s low high size align preferred
  · rw [hrejects]
    exact .of_error hend rfl
  · rw [hrejects]
    exact .of_error hend rfl
  · rw [hrejects]
    obtain ⟨hlow, hhigh⟩ := Extent.ofBounds?_eq_some hwindow
    have halign := (rejectsWithin_eq_none hrejects).2
    refine .of_eq hend (concludes_bind
      ((borrowForWish_seats hv ⟨window, size, align, preferred⟩ halign h).and
        (borrowForWish_leaves ⟨window, size, align, preferred⟩ rfl) |>.mono (fun _ _ => id)
          fun _ hfalse => hfalse.1) ?_)
    rintro outcome s₁ ⟨hseats, hleaves⟩
    cases outcome with
    | none => exact rfl
    | some placed =>
        obtain ⟨source, target⟩ := placed
        obtain ⟨hsource, haligned, hfits, hsize⟩ := hseats source target rfl
        obtain ⟨hinside, hpos, hroom⟩ := Wish.fits_iff.1 hfits
        have hchunks : s₁.task.chunks = s.task.chunks := hleaves.chunks
        refine (enter_exact.bind fun address s₂ h₂ => ?_ : Post _ _ _ s₁).concludes
        refine ⟨rfl, ⟨source.extent, target, source.loans⟩, ?_, ?_, ?_⟩
        · show s₂.task.marks.chunks = _
          rw [h₂.2, ← hchunks]
          rfl
        · exact ⟨haligned, Nat.ne_of_gt hpos, hlow ▸ hinside, hhigh ▸ hroom, hsize,
            hsource.1, hsource.2⟩
        · rw [h₂.1]

/-- **Whatever the firmware does**, a flexible chunk is where its call wants it, and aligned. -/
theorem stageWithin_honours (hv : origin.Valid) (hstaged : Staged origin (fun _ _ => True) s)
    (fw : Firmware φ) (gen : Code.Generator γ) (low high size align : Nat) (preferred : WindowEnd) :
    Honours fw gen low high size align s (stageWithin fw gen low high size align preferred) := by
  refine ⟨(stageWithin_concludes hv gen preferred hstaged.kept).and_error fun cause s' hend => ?_,
    fun cause s' htrap => ⟨?_, fun hample => ?_⟩⟩
  · have hfail : perform fw gen (.stageWithin low high size align preferred) s =
        .error (.error cause) s' := bind_of_error hend _
    exact (hstaged.task_of_failure hv fw.tracks_nothing hfail).1
  · obtain ⟨cause', -, hend⟩ | ⟨hnone, -⟩ :=
      @stageWithin_eq φ γ fw gen s low high size align preferred
    · cases hend.symm.trans htrap
    · exact hnone
  · have hends := hample.ends hv hstaged (.stageWithin low high size align preferred)
    exact Ends.not_trap hends htrap

/-! ### While the firmware is steady -/

/-- A window that is not one, or is too small, has no room. -/
theorem ofBoundsD_cramped {low high size : Nat} (hsize : 0 < size)
    (h : ¬ (low ≤ high ∧ high < Address.limit ∧ low + size ≤ high)) :
    (Extent.ofBoundsD low high).stop < (Extent.ofBoundsD low high).start + size := by
  cases hwindow : Extent.ofBounds? low high with
  | none =>
      rw [Extent.ofBoundsD, hwindow]
      exact Nat.lt_add_left 0 hsize
  | some window =>
      rw [ofBoundsD_of_some hwindow]
      obtain ⟨rfl, rfl⟩ := Extent.ofBounds?_eq_some hwindow
      have hle := window.start_le_stop
      have hlt := window.stop_lt
      omega

/-- Nothing is chosen for a wish whose window has no room. -/
theorem forWish_of_cramped {task : Task} {wish : Wish} {inPlace ordered top : Option Extent}
    (halign : Address.isPowerOfTwo wish.align = true)
    (hcramped : wish.window.stop < wish.window.start + wish.size)
    (hplace : (slotInPlace wish).Answered (task.around listing) inPlace) :
    task.forWish listing wish inPlace ordered top = none := by
  obtain rfl : inPlace = none := by
    cases inPlace with
    | none => rfl
    | some slot =>
        have hlow : wish.window.start ≤ slot.start := hplace.2.slot.inside.1
        have hhigh : slot.start + wish.size ≤ wish.window.stop := hplace.2.slot.inside.2
        omega
  unfold forWish
  cases hselect : wish.select? (task.heap.regions.map (·.extent) ++ listing)
      (task.chunks.map (·.target)) with
  | none => rfl
  | some target =>
      obtain ⟨hlow, -, hhigh⟩ := Wish.fits_iff.1 (Wish.suits_of_select? halign hselect).fits
      omega

/-- The wish of a call. -/
def wishFor (low high size align : Nat) (preferred : WindowEnd) : Wish :=
  ⟨.ofBoundsD low high, size, align, preferred⟩

/-- A flexible chunk gets what is chosen for its wish, or is rejected. -/
theorem stageWithin_chooses (hv : origin.Valid) (gen : Code.Generator γ)
    {low high size align : Nat} {preferred : WindowEnd} {inPlace ordered top : Option Extent}
    (h : Poised origin fw listing s.task s) (halign : Address.isPowerOfTwo align = true)
    (hplace : (slotInPlace (wishFor low high size align preferred)).Answered
      (s.task.around listing) inPlace)
    (hordered : (s.task.slotInOrder (.ofBoundsD low high) size align).Answered
      (s.task.around listing) ordered)
    (htop : (s.task.slotOnTop size align).Answered (s.task.around listing) top) :
    Concludes (stageWithin fw gen low high size align preferred) (fun value s' =>
      ∃ chosen target loans,
        verdict (rejectsWithin size align) (s.task.forWish listing
          (wishFor low high size align preferred) inPlace ordered top) = .ok (chosen, target) ∧
        value = (chosen.source.start, target.start) ∧
        s'.task.marks = (chosen.mark s.task.marks).count gen ⟨chosen.source, target, loans⟩)
      (fun cause s' => verdict (rejectsWithin size align) (s.task.forWish listing
        (wishFor low high size align preferred) inPlace ordered top) = .error cause ∧
        s'.task = s.task) s := by
  obtain ⟨cause, hrejects, hend⟩ | ⟨hrejects, ⟨hroom, hend⟩ | ⟨window, hwindow, hend⟩⟩ :=
    @stageWithin_eq φ γ fw gen s low high size align preferred
  · rw [hrejects]
    exact .of_error hend ⟨rfl, rfl⟩
  · -- No search is made, but none would find a slot in this window, and no target would fit it.
    have hcramped := ofBoundsD_cramped (rejectsWithin_eq_none hrejects).1 hroom
    rw [hrejects, forWish_of_cramped halign hcramped hplace]
    exact .of_error hend ⟨rfl, rfl⟩
  · rw [ofBoundsD_of_some hwindow] at hordered
    rw [hrejects]
    unfold wishFor at hplace ⊢
    rw [ofBoundsD_of_some hwindow] at hplace ⊢
    refine .of_eq hend (concludes_bind (borrowForWish_chooses hv halign h hplace hordered htop) ?_)
    intro outcome s₁ h₁
    cases outcome with
    | none => exact ⟨by rw [h₁.1]; rfl, h₁.2.same⟩
    | some placed =>
        obtain ⟨source, target⟩ := placed
        obtain ⟨chosen, hchosen, hsource, hmarks⟩ := h₁
        refine (enter_exact.bind fun address s₂ h₂ => ?_ : Post _ _ _ s₁).concludes
        exact ⟨chosen, target, source.loans, by rw [hchosen]; rfl, by rw [h₂.1, hsource],
          by rw [h₂.2, hmarks, hsource]⟩

/-- **The policy of flexible chunks.**  In every state that is reached, and whatever the firmware
does, a flexible chunk is rejected, or there is no memory for it, or it is inside its window and
aligned, and so is its source.  While the firmware is steady it is in place if it can be; otherwise
it has the selected target and the slot that is chosen between the one in order and the highest one
on top, and runs out of memory only if nothing is chosen. -/
theorem stageWithin_policy (gen : Code.Generator γ) {firmware : φ} (horigin : origin.Reachable)
    (h : Reach fw gens origin firmware s) (low high size align : Nat) (preferred : WindowEnd) :
    Honours fw gen low high size align s (stageWithin fw gen low high size align preferred) ∧
      ∀ listing, fw.Steady listing s.task.blocks s.firmware → Address.isPowerOfTwo align = true →
        ∃ inPlace ordered top,
          (slotInPlace (wishFor low high size align preferred)).Answered
            (s.task.around listing) inPlace ∧
          (s.task.slotInOrder (.ofBoundsD low high) size align).Answered
            (s.task.around listing) ordered ∧
          (s.task.slotOnTop size align).Answered (s.task.around listing) top ∧
          Abides fw gen s (rejectsWithin size align)
            (s.task.forWish listing (wishFor low high size align preferred) inPlace ordered top)
            (fun chosen => (chosen.1.source.start, chosen.2.start))
            (stageWithin fw gen low high size align preferred) := by
  have hv := horigin.valid
  have hstaged := h.staged hv fw.tracks_nothing trivial
  have hhonours := stageWithin_honours hv hstaged fw gen low high size align preferred
  refine ⟨hhonours, fun listing hsteady halign => ?_⟩
  have hpoised : Poised origin fw listing s.task s := ⟨rfl, hstaged.kept, hsteady⟩
  obtain ⟨inPlace, hplace⟩ :=
    exists_answer hv (slotInPlace (wishFor low high size align preferred)) halign hpoised
  obtain ⟨ordered, hordered⟩ :=
    exists_answer hv (s.task.slotInOrder (.ofBoundsD low high) size align) halign hpoised
  obtain ⟨top, htop⟩ := exists_answer hv (s.task.slotOnTop size align) halign hpoised
  exact ⟨inPlace, ordered, top, hplace, hordered, htop,
    stageWithin_chooses hv gen hpoised halign hplace hordered htop, hhonours.trap⟩

/-- The memory of the window is lent, for a source below a target in it.  A flexible chunk has its
target in front of that one, and its source below all others. -/
theorem stageWithin_policy_shifted : ∃ (s s' : Running Firmware.Table)
    (inPlace ordered top : Option Extent) (chosen : Choice) (target : Extent) (chunk : Chunk),
    smallHeap.Reachable ∧ Reach Firmware.ofTable (· = smallGenerator) smallHeap openFirmware s ∧
      Firmware.ofTable.Steady [smallGap] s.task.blocks s.firmware ∧
      s.task.chunks.length = 2 ∧
      stageWithin Firmware.ofTable smallGenerator 0x3000 0x4000 0x300 0x100 .high s =
        .ok (0x1200, 0x3500) s' ∧
      (slotInPlace (wishFor 0x3000 0x4000 0x300 0x100 .high)).Answered
        (s.task.around [smallGap]) inPlace ∧
      (s.task.slotInOrder (.ofBoundsD 0x3000 0x4000) 0x300 0x100).Answered
        (s.task.around [smallGap]) ordered ∧
      (s.task.slotOnTop 0x300 0x100).Answered (s.task.around [smallGap]) top ∧
      verdict (rejectsWithin 0x300 0x100) (s.task.forWish [smallGap]
        (wishFor 0x3000 0x4000 0x300 0x100 .high) inPlace ordered top) = .ok (chosen, target) ∧
      chosen.source.start = 0x1200 ∧ target.start = 0x3500 ∧
      s'.task.chunks = s.task.chunks ++ [chunk] ∧ chunk.Suits 0x3000 0x4000 0x300 0x100 := by
  have hends : (run? Firmware.ofTable smallGenerator
      [.stageAt 0x100000 0x2000, .stageAt 0x3800 0x800]
      { task := Task.start smallHeap smallGenerator, firmware := openFirmware }).map (fun s =>
        (decide (s.firmware.available = [smallGap] ∧ s.firmware.Open s.task.blocks),
          s.task.chunks.length,
          match stageWithin Firmware.ofTable smallGenerator 0x3000 0x4000 0x300 0x100 .high s with
          | .ok value _ => some value
          | _ => none)) = some (true, 2, some (0x1200, 0x3500)) := by
    decide +kernel
  obtain ⟨s, hrun, hend⟩ := Option.map_eq_some_iff.1 hends
  obtain ⟨hfirmware, hend⟩ := Prod.ext_iff.1 hend
  obtain ⟨hchunks, hend⟩ := Prod.ext_iff.1 hend
  dsimp only at hfirmware hchunks hend
  split at hend
  case h_2 => cases hend
  case h_1 value s' hstage =>
    obtain rfl := Option.some.inj hend
    have hreach : Reach Firmware.ofTable (· = smallGenerator) smallHeap openFirmware s :=
      reach_of_run? hrun
    obtain ⟨hlisting, hopen⟩ := of_decide_eq_true hfirmware
    have hsteady : Firmware.ofTable.Steady [smallGap] s.task.blocks s.firmware :=
      hlisting ▸ hopen.steady
    obtain ⟨hhonours, habides⟩ := stageWithin_policy smallGenerator smallHeap_reachable hreach
      0x3000 0x4000 0x300 0x100 .high
    obtain ⟨inPlace, ordered, top, hplace, hordered, htop, habides⟩ :=
      habides [smallGap] hsteady (by decide)
    have hconcludes := habides.ends
    have hsuits := hhonours.ends
    unfold Concludes at hconcludes hsuits
    rw [hstage] at hconcludes hsuits
    obtain ⟨chosen, target, loans, hverdict, hvalue, -⟩ := hconcludes
    obtain ⟨-, chunk, hchunk, hsuits, -⟩ := hsuits
    obtain ⟨hsource, htarget⟩ := Prod.ext_iff.1 hvalue
    exact ⟨s, s', inPlace, ordered, top, chosen, target, chunk, smallHeap_reachable, hreach,
      hsteady, hchunks, hstage, hplace, hordered, htop, hverdict, hsource.symm, htarget.symm,
      hchunk, hsuits⟩

end Task

end Staging
