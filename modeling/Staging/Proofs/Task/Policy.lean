import Staging.Proofs.Task.Source
import Staging.Proofs.Task.Target
import Staging.Task.Policy

/-!
# What the policies borrow

Whichever way a policy goes, it ends with a source of the size that was asked for, or it owes
nothing new (`borrowForTarget_spec`, `borrowForWish_spec`).  The target of a flexible chunk is
apart from all targets, whether the chunk is in place or its target was selected.
-/

namespace Staging.Task

variable {φ α : Type} {origin : Heap} {fw : Firmware φ} {track : φ → List Extent → Prop}
  {chunks : List Chunk} {s : Running φ} {E : Error → Prop}

/-- A source of this size is borrowed, or nothing. -/
def Brings (origin : Heap) (track : φ → List Extent → Prop) (chunks : List Chunk) (size : Nat) :
    Option Source → Running φ → Prop
  | none, s => Kept origin track chunks [] s
  | some source, s => Kept origin track chunks source.loans s ∧
      ∃ request : Request, request.size = size ∧ Serves request chunks source

theorem post_within {low high : Nat} {action : Extent → Action φ (Option α)}
    {Q : Option α → Running φ → Prop} {R : Running φ → Prop} (hnone : Q none s)
    (h : ∀ window, Post (action window) Q R s) : Post (within low high action) Q R s := by
  unfold within
  split
  case h_1 => exact hnone
  case h_2 window _ => exact h window

/-- The second action starts where the first one found nothing. -/
theorem post_orElse {first second : Action φ (Option α)} {Q : Option α → Running φ → Prop}
    {R : Running φ → Prop} (h : Post first Q R s)
    (hsecond : ∀ s', Q none s' → Post second Q R s') : Post (orElse first second) Q R s := by
  unfold orElse
  refine h.bind fun outcome s' houtcome => ?_
  cases outcome with
  | some value => exact houtcome
  | none => exact hsecond s' houtcome

theorem ends_within {low high : Nat} {action : Extent → Action φ (Option α)}
    (h : ∀ window, Ends (action window) E s) : Ends (within low high action) E s := by
  unfold within
  split
  case h_1 => trivial
  case h_2 window _ => exact h window

theorem ends_orElse {first second : Action φ (Option α)} {Q : Option α → Running φ → Prop}
    {R : Running φ → Prop} (h : Ends first E s) (hfirst : Post first Q R s)
    (hsecond : ∀ s', Q none s' → Ends second E s') : Ends (orElse first second) E s := by
  unfold orElse
  refine h.bind hfirst fun outcome s' houtcome => ?_
  cases outcome with
  | some value => trivial
  | none => exact hsecond s' houtcome

section Policies

variable (hv : origin.Valid) (hfw : fw.Tracks track)
include hv hfw

theorem borrowSource_brings (request : Request) (h : Kept origin track chunks [] s) :
    Post (borrowSource fw request) (Brings origin track chunks request.size)
      (Kept origin track chunks []) s := by
  refine (borrowSource_spec hv hfw request h).mono (fun outcome s' houtcome => ?_) fun _ => id
  cases outcome with
  | none => exact houtcome
  | some source => exact ⟨houtcome.1, request, rfl, houtcome.2⟩

theorem borrowInPostArea_spec (size align : Nat) (h : Kept origin track chunks [] s) :
    Post (borrowInPostArea fw size align) (Brings origin track chunks size)
      (Kept origin track chunks []) s := by
  unfold borrowInPostArea
  rw [post_bind_iff, post_books_iff]
  refine post_within h fun window => ?_
  refine (borrowSource_brings hv hfw ⟨window, size, align, .descending⟩ h).bind ?_
  intro outcome s' houtcome
  cases outcome with
  | none => exact houtcome
  | some source =>
      rw [post_bind_iff, post_update_iff, post_bind_iff, post_books_iff, post_bind_iff,
        post_note_iff]
      obtain ⟨hkept, hserves⟩ := houtcome
      exact ⟨⟨⟨hkept.owes.heap, hkept.owes.blocks, hkept.owes.tracked⟩, hkept.chunks⟩, hserves⟩

theorem borrowAbove_spec (target : Extent) (h : Kept origin track chunks [] s) :
    Post (borrowAbove fw target) (Brings origin track chunks target.length)
      (Kept origin track chunks []) s :=
  post_within h fun window =>
    borrowSource_brings hv hfw ⟨window, target.length, 1, .ascending⟩ h

theorem borrowBelow_spec (target : Extent) (h : Kept origin track chunks [] s) :
    Post (borrowBelow fw target) (Brings origin track chunks target.length)
      (Kept origin track chunks []) s :=
  post_within h fun window =>
    borrowSource_brings hv hfw ⟨window, target.length, 1, .descending⟩ h

/-- **The source of a chunk with a fixed target.** -/
theorem borrowForTarget_spec (target : Extent) (h : Kept origin track chunks [] s) :
    Post (borrowForTarget fw target) (Brings origin track chunks target.length)
      (Kept origin track chunks []) s := by
  unfold borrowForTarget
  rw [post_bind_iff, post_books_iff]
  split
  case isTrue =>
    rw [post_bind_iff, post_note_iff]
    exact borrowAbove_spec hv hfw target (h.note _)
  case isFalse =>
    refine post_orElse (borrowAbove_spec hv hfw target h) fun s₁ h₁ => ?_
    refine post_orElse ?_ fun s₂ h₂ => ?_
    · split
      case isTrue => exact borrowInPostArea_spec hv hfw _ _ h₁
      case isFalse => exact h₁
    · exact post_orElse (borrowBelow_spec hv hfw target h₂) fun s₃ h₃ =>
        borrowInPostArea_spec hv hfw _ _ h₃

end Policies

/-! ### Flexible chunks -/

/-- A source that serves a request is apart from the targets. -/
theorem Serves.apart {request : Request} {source : Source} (h : Serves request chunks source)
    (hne : ∀ chunk ∈ chunks, chunk.target.start < chunk.target.stop) :
    ∀ chunk ∈ chunks, chunk.target.Apart source.extent := by
  intro chunk hchunk
  obtain ⟨hstop, hsize⟩ := h.size
  exact Extent.apart_of_forall_mem (hne chunk hchunk) (by omega)
    fun x hx hx' => h.clear chunk hchunk x hx' hx

theorem ramExtents_spec (hfw : fw.Tracks track) {R : Running φ → Prop}
    (h : Kept origin track chunks [] s) :
    Post (ramExtents fw) (fun _ => Kept origin track chunks []) R s := by
  unfold ramExtents
  rw [post_bind_iff, post_books_iff, post_bind_iff, post_call_iff]
  exact ⟨⟨h.owes.heap, h.owes.blocks, hfw.available h.owes.tracked⟩, h.chunks⟩

/-- The source of a flexible chunk that is not in place. -/
theorem borrowOrdered_spec (hv : origin.Valid) (hfw : fw.Tracks track) (wish : Wish)
    (low high : Nat) (h : Kept origin track chunks [] s) :
    Post (orElse
      (within low high fun limits =>
        borrowSource fw ⟨limits, wish.size, wish.align, .ascending⟩)
      (borrowInPostArea fw wish.size wish.align)) (Brings origin track chunks wish.size)
      (Kept origin track chunks []) s := by
  refine post_orElse (post_within h fun limits => ?_) fun s' hs' => ?_
  · exact borrowSource_brings hv hfw ⟨limits, wish.size, wish.align, .ascending⟩ h
  · exact borrowInPostArea_spec hv hfw _ _ hs'

/-- **The source and the target of a flexible chunk.** -/
theorem borrowForWish_spec (hv : origin.Valid) (hfw : fw.Tracks track) (wish : Wish)
    (hne : ∀ chunk ∈ chunks, chunk.target.start < chunk.target.stop)
    (h : Kept origin track chunks [] s) :
    Post (borrowForWish fw wish) (fun outcome s' =>
      match outcome with
      | none => Kept origin track chunks [] s'
      | some (source, target) => Brings origin track chunks wish.size (some source) s' ∧
          target.stop = target.start + wish.size ∧
          ∀ chunk ∈ chunks, chunk.target.Apart target) (Kept origin track chunks []) s := by
  unfold borrowForWish
  refine (borrowSource_brings hv hfw ⟨wish.window, wish.size, wish.align, _⟩ h).bind ?_
  intro outcome s₁ houtcome
  cases outcome with
  | some source =>
      -- In place, the target is clear of the others because the source is.
      obtain ⟨hkept, request, hsize, hserves⟩ := houtcome
      exact ⟨⟨hkept, request, hsize, hserves⟩, by rw [hserves.size.1, hsize], hserves.apart hne⟩
  | none =>
      dsimp only at houtcome ⊢
      refine (ramExtents_spec hfw houtcome).bind fun ram s₂ hs₂ => ?_
      rw [post_bind_iff, post_books_iff]
      split
      case h_1 => exact hs₂
      case h_2 target hselect =>
        obtain ⟨hstop, -, hclear, -⟩ := Wish.select?_spec hselect
        rw [post_bind_iff, post_note_iff, post_bind_iff, post_books_iff, post_bind_iff,
          post_note_iff, post_bind_iff]
        refine (borrowOrdered_spec hv hfw wish _ _ ((hs₂.note _).note _)).mono ?_ fun _ => id
        intro outcome s₃ h₃
        cases outcome with
        | none => exact h₃
        | some source =>
            refine ⟨h₃, hstop, fun chunk hchunk => hclear _ ?_⟩
            rw [hs₂.chunks]
            exact List.mem_map_of_mem hchunk

end Staging.Task
