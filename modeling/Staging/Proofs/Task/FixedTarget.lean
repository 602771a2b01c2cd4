import Staging.Proofs.Task.Steady

/-!
# The policy of fixed targets

A chunk at a fixed target is rejected for its size, its range or a target that is registered, in
this order (`rejectsAt`).  Otherwise it gets the slot that the order of the searches chooses
(`forTarget`), and the post area moves down to that slot if it was found on top (`stageAt_policy`).
-/

namespace Staging.Task

variable {φ γ : Type} {origin : Heap} {fw : Firmware φ} {gen : Code.Generator γ}
  {gens : Code.Generator γ → Prop}
  {listing : List Extent} {s : Running φ}

/-- Why a chunk at a target is rejected before any search. -/
def rejectsAt (task : Task) (target size : Nat) : Option Error :=
  if size = 0 then some .invalidSize
  else if Address.limit ≤ target + size then some (.outOfRange target size)
  else if task.chunks.any fun c => c.target.start < target + size && target < c.target.stop then
    some (.overlap target size)
  else none

/-- What a chunk at a target gets, from the slots above, below and on top. -/
def chosenAt (task : Task) (target size : Nat) (above below top : Option Extent) :
    Option (Choice × Extent) :=
  (task.forTarget target above below top).map (·, .ofBoundsD target (target + size))

/-- Staging at a target is rejected first, and borrows a source otherwise. -/
theorem stageAt_eq (target size : Nat) :
    (∃ cause, s.task.rejectsAt target size = some cause ∧
      stageAt fw gen target size s = .error (.error cause) s) ∨
    s.task.rejectsAt target size = none ∧
      ∃ extent, extent.start = target ∧ extent.stop = target + size ∧
        stageAt fw gen target size s = (do
          match ← borrowForTarget fw extent with
          | none => refuse .outOfMemory
          | some source => enter gen source extent) s := by
  unfold stageAt rejectsAt
  by_cases hsize : size = 0
  · rw [if_pos hsize, if_pos hsize]
    exact .inl ⟨_, rfl, rfl⟩
  · rw [if_neg hsize, if_neg hsize]
    cases hextent : Extent.ofLength? target size with
    | none =>
        have hrange : Address.limit ≤ target + size := by
          have := Extent.ofBounds?_eq_none_iff.1 hextent
          omega
        rw [if_pos hrange]
        exact .inl ⟨_, rfl, rfl⟩
    | some extent =>
        obtain ⟨hstart, hstop⟩ := Extent.ofLength?_eq_some_iff.1 hextent
        have hlt := extent.stop_lt
        rw [if_neg (show ¬ Address.limit ≤ target + size by omega)]
        dsimp only
        rw [bind_of_ok (books_eq s)]
        have htouches : s.task.touchesTarget extent = s.task.chunks.any fun c =>
            c.target.start < target + size && target < c.target.stop := by
          rw [← hstop, ← hstart]
          rfl
        rw [htouches]
        split
        case isTrue => exact .inl ⟨_, rfl, rfl⟩
        case isFalse => exact .inr ⟨rfl, extent, hstart, hstop, rfl⟩

/-- A chunk at a target gets what is chosen for it, or is rejected. -/
theorem stageAt_concludes (hv : origin.Valid) (gen : Code.Generator γ) {target size : Nat}
    {above below top : Option Extent} (h : Poised origin fw listing s.task s)
    (habove : (slotAbove target size).Answered (s.task.around listing) above)
    (hbelow : (slotBelow target size).Answered (s.task.around listing) below)
    (htop : (s.task.slotOnTop size 1).Answered (s.task.around listing) top) :
    Concludes (stageAt fw gen target size) (fun address s' => ∃ chosen target' loans,
      verdict (s.task.rejectsAt target size) (s.task.chosenAt target size above below top) =
          .ok (chosen, target') ∧ address = chosen.source.start ∧
        s'.task.marks = (chosen.mark s.task.marks).count gen ⟨chosen.source, target', loans⟩)
      (fun cause s' => verdict (s.task.rejectsAt target size)
        (s.task.chosenAt target size above below top) = .error cause ∧ s'.task = s.task) s := by
  obtain ⟨cause, hrejects, hend⟩ | ⟨hrejects, extent, rfl, hstop, hend⟩ :=
    @stageAt_eq φ γ fw gen s target size
  · rw [hrejects]
    exact .of_error hend ⟨rfl, rfl⟩
  · rw [hrejects]
    obtain rfl : extent.length = size := by
      simp only [Extent.length]
      omega
    rw [chosenAt, ofBoundsD_of_some (Extent.ofBounds?_eq_some_iff.2 ⟨rfl, hstop⟩)]
    refine .of_eq hend (concludes_bind (borrowForTarget_chooses hv h habove hbelow htop) ?_)
    intro outcome s₁ h₁
    cases outcome with
    | none => exact ⟨by rw [h₁.1]; rfl, h₁.2.same⟩
    | some source =>
        obtain ⟨chosen, hchosen, hsource, hmarks⟩ := h₁
        refine enter_exact.mono (fun address s₂ h₂ => ?_) (fun _ => id) |>.concludes
        exact ⟨chosen, extent, source.loans, by rw [hchosen]; rfl, hsource ▸ h₂.1,
          by rw [h₂.2, hmarks, hsource]⟩

/-- **The policy of fixed targets.**  In every state that is reached, while the firmware is steady,
a chunk at a target is rejected, or gets the slot that is chosen among the lowest one above its
target, the highest one below it and the highest one on top, and runs out of memory only if none is
chosen. -/
theorem stageAt_policy (gen : Code.Generator γ) {firmware : φ} (horigin : origin.Reachable)
    (h : Reach fw gens origin firmware s) (hsteady : fw.Steady listing s.task.blocks s.firmware)
    (target size : Nat) :
    ∃ above below top,
      (slotAbove target size).Answered (s.task.around listing) above ∧
      (slotBelow target size).Answered (s.task.around listing) below ∧
      (s.task.slotOnTop size 1).Answered (s.task.around listing) top ∧
      Abides fw gen s (s.task.rejectsAt target size)
        (s.task.chosenAt target size above below top) (fun chosen => chosen.1.source.start)
        (stageAt fw gen target size) := by
  have hv := horigin.valid
  have hone : Address.isPowerOfTwo 1 = true := by decide
  have hstaged := h.staged hv fw.tracks_nothing trivial
  have hpoised : Poised origin fw listing s.task s := ⟨rfl, hstaged.kept, hsteady⟩
  obtain ⟨above, habove⟩ := exists_answer hv (slotAbove target size) hone hpoised
  obtain ⟨below, hbelow⟩ := exists_answer hv (slotBelow target size) hone hpoised
  obtain ⟨top, htop⟩ := exists_answer hv (s.task.slotOnTop size 1) hone hpoised
  refine ⟨above, below, top, habove, hbelow, htop,
    stageAt_concludes hv gen hpoised habove hbelow htop, fun cause s' htrap => ⟨?_, ?_⟩⟩
  · obtain ⟨cause', -, hend⟩ | ⟨hnone, -⟩ := @stageAt_eq φ γ fw gen s target size
    · cases hend.symm.trans htrap
    · exact hnone
  · intro hample
    have hends := hample.ends hv hstaged (.stageAt target size)
    exact Ends.not_trap hends htrap

/-- A target in low memory has no slot above it.  The slot on top takes memory of the firmware and
the start of a region, and the post area, which has one source already, moves down to it. -/
theorem stageAt_policy_on_top : ∃ (s s' : Running Firmware.Table) (above below top : Option Extent)
    (chosen : Choice) (target : Extent) (loans : List Loan),
    smallHeap.Reachable ∧ Reach Firmware.ofTable (· = smallGenerator) smallHeap openFirmware s ∧
      Firmware.ofTable.Steady [smallGap] s.task.blocks s.firmware ∧
      s.task.chunks.length = 1 ∧ s.task.postStart = 0x5ee0 ∧
      stageAt Firmware.ofTable smallGenerator 0x4000 0x1f80 s = .ok 0x3f40 s' ∧
      (slotAbove 0x4000 0x1f80).Answered (s.task.around [smallGap]) above ∧
      (slotBelow 0x4000 0x1f80).Answered (s.task.around [smallGap]) below ∧
      (s.task.slotOnTop 0x1f80 1).Answered (s.task.around [smallGap]) top ∧
      verdict (s.task.rejectsAt 0x4000 0x1f80) (s.task.chosenAt 0x4000 0x1f80 above below top) =
        .ok (chosen, target) ∧
      chosen.source.start = 0x3f40 ∧
      s'.task.marks = (chosen.mark s.task.marks).count smallGenerator
        ⟨chosen.source, target, loans⟩ ∧
      s'.task.postStart = 0x3f40 := by
  have hends : (run? Firmware.ofTable smallGenerator [.stageAt 0x5f80 0x100]
      { task := Task.start smallHeap smallGenerator, firmware := openFirmware }).map (fun s =>
        (decide (s.firmware.available = [smallGap] ∧ s.firmware.Open s.task.blocks),
          s.task.chunks.length, s.task.postStart,
          match stageAt Firmware.ofTable smallGenerator 0x4000 0x1f80 s with
          | .ok address s' => some (address, s'.task.postStart)
          | _ => none)) = some (true, 1, 0x5ee0, some (0x3f40, 0x3f40)) := by
    decide +kernel
  obtain ⟨s, hrun, hend⟩ := Option.map_eq_some_iff.1 hends
  obtain ⟨hfirmware, hend⟩ := Prod.ext_iff.1 hend
  obtain ⟨hchunks, hend⟩ := Prod.ext_iff.1 hend
  obtain ⟨hpost, hend⟩ := Prod.ext_iff.1 hend
  dsimp only at hfirmware hchunks hpost hend
  split at hend
  case h_2 => cases hend
  case h_1 address s' hstage =>
    obtain ⟨rfl, hpost'⟩ := Prod.ext_iff.1 (Option.some.inj hend)
    have hreach : Reach Firmware.ofTable (· = smallGenerator) smallHeap openFirmware s :=
      reach_of_run? hrun
    obtain ⟨hlisting, hopen⟩ := of_decide_eq_true hfirmware
    have hsteady : Firmware.ofTable.Steady [smallGap] s.task.blocks s.firmware :=
      hlisting ▸ hopen.steady
    obtain ⟨above, below, top, habove, hbelow, htop, habides⟩ :=
      stageAt_policy smallGenerator smallHeap_reachable hreach hsteady 0x4000 0x1f80
    have hconcludes := habides.ends
    unfold Concludes at hconcludes
    rw [hstage] at hconcludes
    obtain ⟨chosen, target, loans, hverdict, haddress, hmarks⟩ := hconcludes
    exact ⟨s, s', above, below, top, chosen, target, loans, smallHeap_reachable, hreach, hsteady,
      hchunks, hpost, hstage, habove, hbelow, htop, hverdict, haddress.symm, hmarks, hpost'⟩

end Staging.Task
