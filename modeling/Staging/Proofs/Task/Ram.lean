import Staging.Proofs.Sweep.Owners
import Staging.Proofs.Task.Following

/-!
# Where flexible chunks end up

Memory that will be RAM at the hand-off is what the regions of the heap had at the start and what
the firmware lists at some time (`Heap.Ram`).  A firmware that keeps a list of all its listings
(`Firmware.listed`) says which that is.

A flexible chunk in place ends up in such memory, and so does one whose target is a candidate that
no registered target is in the way of.  A candidate that moves past a registered target is not
looked at again, and the memory that it moves to need not be RAM (`target_off_ram`).  So the target
of a flexible chunk is RAM, or right past a registered one (`target_of_stageWithin`). -/

namespace Staging

/-- The byte was in a region of the origin, or is in an extent that was listed. -/
def Heap.Ram (origin : Heap) (listed : List Extent) (x : Nat) : Prop :=
  (∃ r ∈ origin.regions, x ∈ r.extent) ∨ ∃ e ∈ listed, x ∈ e

theorem Heap.Ram.mono {origin : Heap} {listed listed' : List Extent} {x : Nat}
    (h : origin.Ram listed x) (hsub : listed ⊆ listed') : origin.Ram listed' x :=
  h.imp id fun ⟨e, he, hx⟩ => ⟨e, hsub he, hx⟩

namespace Firmware

variable {φ : Type}

/-- The firmware with all extents that it listed beside its state. -/
def listed (fw : Firmware φ) : Firmware (φ × List Extent) where
  eventCapacity s := fw.eventCapacity s.1
  available s :=
    let reply := fw.available s.1
    { reply with state := (reply.state, s.2 ++ reply.value) }
  reserve extent s :=
    let reply := fw.reserve extent s.1
    { reply with state := (reply.state, s.2) }
  release extent s :=
    let reply := fw.release extent s.1
    { reply with state := (reply.state, s.2) }

/-- Keeping what was listed changes nothing for a task. -/
theorem listed_follows (fw : Firmware φ) : fw.listed.Follows Prod.fst fw :=
  ⟨fun _ => rfl, fun _ => rfl, fun _ _ => rfl, fun _ _ => rfl⟩

/-- What was listed is kept. -/
theorem listed_tracks (fw : Firmware φ) (known : List Extent) :
    fw.listed.Tracks fun state _ => known ⊆ state.2 where
  available h := fun _ he => List.mem_append_left _ (h he)
  granted h _ := h
  refused h _ := h
  released h _ := h

end Firmware

/-! ### Memory of the origin -/

namespace Heap

variable {origin heap : Heap} {loans : List Loan} {x : Nat}

/-- What a region still owns, the origin owned. -/
theorem Lent.mem_origin (h : origin.Lent loans heap) (hv : origin.Valid) {r : Region}
    (hr : r ∈ heap.regions) (hx : x ∈ r.extent) : ∃ r₀ ∈ origin.regions, x ∈ r₀.extent := by
  obtain ⟨r₀, hr₀, hacc⟩ := exists_of_forall₂_right (h.accounts hv) hr
  exact ⟨r₀, hr₀, (hacc.mem_extent_iff (hv.regions r₀ hr₀) x).2 (.inr hx)⟩

/-- What a region offers, the origin owned. -/
theorem Lent.mem_origin_of_offer (h : origin.Lent loans heap) (hv : origin.Valid) {r : Region}
    (hr : r ∈ heap.regions) {kind : IntervalKind} {e : Extent} (hoffer : r.Offers kind e)
    (hx : x ∈ e) : ∃ r₀ ∈ origin.regions, x ∈ r₀.extent := by
  have hvalid := (h.valid hv).regions r hr
  have hinside := hoffer.inside hvalid
  have hbounds := hvalid.extent_bounds
  rw [Extent.mem_iff] at hx
  refine h.mem_origin hv hr ?_
  rw [Extent.mem_iff]
  omega

end Heap

namespace Task

variable {φ γ : Type} {origin : Heap} {fw : Firmware φ} {gen : Code.Generator γ}
  {gens : Code.Generator γ → Prop}
  {track : φ × List Extent → List Extent → Prop} {chunks : List Chunk}
  {s : Running (φ × List Extent)}

/-- Memory that can be borrowed is RAM. -/
theorem ram_of_usable {task : Task} {listing : List Extent} {loans : List Loan} {x : Nat}
    (hv : origin.Valid) (hlent : origin.Lent loans task.heap)
    (h : Usable (task.intervals listing ++ task.heap.intervals) x) : origin.Ram listing x := by
  have hshows := task.heap.shows (@kind_of_mem_intervals task listing)
  have offered {kind : IntervalKind} (hkind : kind = .regionHead ∨ kind = .regionBody)
      (hover : Over (task.intervals listing ++ task.heap.intervals) kind x) :
      origin.Ram listing x := by
    obtain ⟨i, hi, rfl, hx⟩ := hover
    obtain ⟨index, r, -, hr, hoffer⟩ := hshows.offers i hi hkind
    exact .inl (hlent.mem_origin_of_offer hv (List.mem_of_getElem? hr) hoffer hx)
  rcases h.2 with hhead | hbody | ⟨⟨i, hi, hkind, hx⟩, -⟩
  · exact offered (.inl rfl) hhead
  · exact offered (.inr rfl) hbody
  · rcases List.mem_append.1 hi with hi | hi
    · obtain ⟨e, he, rfl⟩ | ⟨e, -, rfl⟩ | ⟨chunk, -, rfl | ⟨loan, -, rfl⟩⟩ :=
        mem_intervals_iff.1 hi
      · exact .inr ⟨e, he, hx⟩
      all_goals cases hkind
    · -- A heap lists nothing.
      obtain ⟨index, r, -, hi⟩ := Heap.mem_intervals_iff.1 hi
      obtain ⟨-, ⟨hmask, -⟩ | hoffer⟩ := Region.mem_intervals_iff.1 hi
      · cases hkind.symm.trans hmask
      · rw [hkind] at hoffer
        cases hoffer

/-! ### Sources in place -/

section Sources

variable (hv : origin.Valid) (hfw : fw.listed.Tracks track)
include hv hfw

theorem attempt_ram (request : Request) (h : Kept origin track chunks [] s) :
    Post (attempt fw.listed request) (fun outcome s' =>
      ∀ source, outcome = .borrowed source → ∀ x ∈ source.extent, origin.Ram s'.firmware.2 x)
      (fun _ => True) s := by
  unfold attempt
  rw [post_bind_iff, post_note_iff]
  refine (collect_spec hfw (h.note _)).bind ?_
  rintro _ s₁ ⟨⟨howes, rfl⟩, hfirmware, rfl⟩
  rw [post_bind_iff]
  refine search_spec.mono ?_ fun _ _ => trivial
  rintro found s₂ ⟨rfl, hfound⟩
  split
  case h_1 => exact fun source hsource => by cases hsource
  case h_2 extent pieces =>
    have hplaced := hfound extent pieces rfl
    have hlisted : (fw.available s.firmware.1).value ⊆ s₂.firmware.2 := by
      rw [hfirmware]
      exact List.subset_append_right _ _
    have hkeeps : Owes origin (fun state _ => s₂.firmware.2 ⊆ state.2) (owed s₂.task.chunks) s₂ :=
      ⟨howes.heap, howes.blocks, List.Subset.refl _⟩
    refine (borrowAll_spec hv (fw.listed_tracks _) hkeeps hplaced.tile
      (hplaced.ready hv howes.heap)).bind fun outcome s₃ ⟨_, houtcome⟩ => ?_
    split
    case h_1 loans =>
      rw [post_bind_iff, post_note_iff]
      rintro source hsource x hx
      cases hsource
      exact ((ram_of_usable hv howes.heap (hplaced.usable x hx)).mono hlisted).mono
        houtcome.1.tracked
    case h_2 => exact fun source hsource => by cases hsource
    case h_3 => trivial

/-- **A source is in RAM**, however many attempts it takes. -/
theorem borrowSource_ram (request : Request) (h : Kept origin track chunks [] s) :
    Post (borrowSource fw.listed request) (fun outcome s' =>
      ∀ source, outcome = some source → ∀ x ∈ source.extent, origin.Ram s'.firmware.2 x)
      (fun _ => True) s := by
  induction request using borrowSource.induct generalizing s with
  | case1 request ih =>
      rw [borrowSource]
      refine (((attempt_spec hv hfw h).and (attempt_ram hv hfw request h)).mono (fun _ _ => id)
        fun _ _ => trivial).bind ?_
      rintro outcome s₁ ⟨houtcome, hram⟩
      cases outcome with
      | exhausted => exact fun source hsource => by cases hsource
      | borrowed source =>
          intro source' hsource
          cases hsource
          exact hram source rfl
      | refused piece =>
          rw [post_bind_iff, post_note_iff]
          split
          case h_1 => exact fun source hsource => by cases hsource
          case h_2 next hretry => exact ih piece next hretry (Kept.note houtcome _)

/-! ### Flexible chunks -/

/-- Where the target of a flexible chunk lies: inside of the window, and in memory that will be RAM
or right past a registered target. -/
structure Aimed (origin : Heap) (listed : List Extent) (chunks : List Chunk) (wish : Wish)
    (target : Extent) : Prop where
  window : wish.window.covers target = true
  size : target.stop = target.start + wish.size
  ram : (∀ x ∈ target, origin.Ram listed x) ∨
    ∃ c ∈ chunks, wish.past? c.target = some target.start

/-- What is held to be RAM will be RAM. -/
theorem ramExtents_ram (h : Kept origin track chunks [] s) :
    Post (ramExtents fw.listed) (fun ram s' => Kept origin track chunks [] s' ∧
      ∀ e ∈ ram, ∀ x ∈ e, origin.Ram s'.firmware.2 x) (fun _ => True) s := by
  unfold ramExtents
  rw [post_bind_iff, post_books_iff, post_bind_iff, post_call_iff]
  refine ⟨⟨⟨h.owes.heap, h.owes.blocks, hfw.available h.owes.tracked⟩, h.chunks⟩, ?_⟩
  intro e he x hx
  rcases List.mem_append.1 he with he | he
  · obtain ⟨r, hr, rfl⟩ := List.mem_map.1 he
    exact .inl (h.owes.heap.mem_origin hv hr hx)
  · exact .inr ⟨e, List.mem_append_right _ he, hx⟩

theorem borrowForWish_ram (wish : Wish) (h : Kept origin track chunks [] s) :
    Post (borrowForWish fw.listed wish) (fun outcome s' => ∀ source target,
      outcome = some (source, target) → Aimed origin s'.firmware.2 chunks wish target)
      (fun _ => True) s := by
  unfold borrowForWish
  refine (((borrowSource_spec hv hfw _ h).and (borrowSource_ram hv hfw _ h)).mono (fun _ _ => id)
    fun _ _ => trivial).bind ?_
  rintro outcome s₁ ⟨houtcome, hram⟩
  cases outcome with
  | some source =>
      rintro _ _ hpair
      cases hpair
      obtain ⟨-, hserves⟩ := houtcome
      have hinside := hserves.inside
      exact ⟨Extent.covers_iff.2 ⟨hinside.1, hinside.2.2⟩, hserves.size.1, .inl (hram source rfl)⟩
  | none =>
      dsimp only at houtcome ⊢
      refine (ramExtents_ram hv hfw houtcome).bind fun ram s₂ ⟨hkept, hall⟩ => ?_
      rw [post_bind_iff, post_books_iff]
      split
      case h_1 => exact fun source target hpair => by cases hpair
      case h_2 target hselect =>
        rw [post_bind_iff, post_note_iff, post_bind_iff, post_books_iff, post_bind_iff,
          post_note_iff, post_bind_iff]
        obtain ⟨hsize, hwindow, -, hplace⟩ := Wish.select?_spec hselect
        -- What was listed so far stays listed while the source is borrowed.
        have hkeeps : Kept origin (fun state _ => s₂.firmware.2 ⊆ state.2) chunks [] s₂ :=
          ⟨⟨hkept.owes.heap, hkept.owes.blocks, List.Subset.refl _⟩, hkept.chunks⟩
        refine (borrowOrdered_spec hv (fw.listed_tracks _) wish _ _
          ((hkeeps.note _).note _)).mono ?_ fun _ _ => trivial
        intro outcome s₃ h₃
        cases outcome with
        | none => exact fun source target hpair => by cases hpair
        | some source =>
            rintro _ _ hpair
            cases hpair
            refine ⟨hwindow, hsize, hplace.imp ?_ ?_⟩
            · rintro ⟨e, he, hcovers⟩ x hx
              exact (hall e he x (Extent.mem_of_covers hcovers hx)).mono h₃.1.owes.tracked
            · rintro ⟨hit, hhit, hpast⟩
              rw [hkept.chunks] at hhit
              obtain ⟨c, hc, rfl⟩ := List.mem_map.1 hhit
              exact ⟨c, hc, hpast⟩

end Sources

/-- Entering a source does not ask the firmware. -/
theorem enter_firmware {source : Source} {target : Extent} {R : Running (φ × List Extent) → Prop} :
    Post (enter gen source target) (fun _ s' => s'.firmware = s.firmware) R s := by
  unfold enter
  rw [post_bind_iff, post_update_iff, post_bind_iff, post_books_iff, post_bind_iff,
    post_note_iff, post_bind_iff]
  refine post_orTrap fun c _ => ?_
  split
  case h_1 => rfl
  case h_2 =>
    rw [post_bind_iff]
    exact post_orTrap fun codeSize _ => rfl

theorem stageWithin_aimed {low high size align : Nat} {preferred : WindowEnd}
    (hv : origin.Valid) (hfw : fw.listed.Tracks track) (h : Kept origin track chunks [] s) :
    Post (stageWithin fw.listed gen low high size align preferred) (fun addresses s' =>
      ∃ window target : Extent, window.start = low ∧ window.stop = high ∧
        target.start = addresses.2 ∧
        Aimed origin s'.firmware.2 chunks ⟨window, size, align, preferred⟩ target)
      (fun _ => True) s := by
  unfold stageWithin
  split
  case isTrue => trivial
  case isFalse =>
    split
    case isTrue => trivial
    case isFalse =>
      split
      case h_1 => trivial
      case h_2 window hwindow =>
        obtain ⟨hstart, hstop⟩ := Extent.ofBounds?_eq_some (Option.filter_eq_some_iff.1 hwindow).1
        refine (borrowForWish_ram hv hfw ⟨window, size, align, preferred⟩ h).bind ?_
        intro outcome s₁ haimed
        split
        case h_1 => trivial
        case h_2 source target =>
          refine enter_firmware.bind fun address s₂ hsame => ?_
          exact ⟨window, target, hstart, hstop, rfl, hsame ▸ haimed source target rfl⟩

/-! ### States that are reached -/

/-- **A flexible chunk ends up in its window**, and in memory that will be RAM or right past a
registered target.  The listings are those that the firmware would have kept along the same calls.
-/
theorem target_of_stageWithin {s s' : Running φ} {firmware : φ} {low high size align : Nat}
    {preferred : WindowEnd} {addresses : Nat × Nat} (horigin : origin.Reachable)
    (h : Reach fw gens origin firmware s)
    (hcall : stageWithin fw gen low high size align preferred s = .ok addresses s') :
    ∃ (s₁ s₂ : Running (φ × List Extent)) (window target : Extent),
      Reach fw.listed gens origin (firmware, []) s₁ ∧ s₁.map Prod.fst = s ∧
      stageWithin fw.listed gen low high size align preferred s₁ = .ok addresses s₂ ∧
      s₂.map Prod.fst = s' ∧ window.start = low ∧ window.stop = high ∧
      target.start = addresses.2 ∧
      Aimed origin s₂.firmware.2 s.task.chunks ⟨window, size, align, preferred⟩ target := by
  have hv := horigin.valid
  obtain ⟨s₁, hreach, rfl⟩ := Reach.follow fw.listed_follows (firmware, []) h
  obtain ⟨s₂, hlisted, rfl⟩ :=
    (stageWithin_follows fw.listed_follows low high size align preferred).exists_eq_ok hcall
  have hfw := fw.listed.tracks_nothing
  have hkept := (hreach.staged hv hfw trivial).kept
  obtain ⟨window, target, hstart, hstop, haddress, haimed⟩ :=
    (stageWithin_aimed hv hfw hkept).of_ok hlisted
  exact ⟨s₁, s₂, window, target, hreach, rfl, hlisted, rfl, hstart, hstop, haddress, haimed⟩

/-- A heap of two regions with a hole between them. -/
def holedHeap : Heap :=
  (({} : Heap).run [.addRegion ⟨0x1000, 0x2000, by decide, by decide⟩,
    .addRegion ⟨0x10000, 0x20000, by decide, by decide⟩]).1

theorem holedHeap_reachable : holedHeap.Reachable := Heap.Reachable.empty.run _

/-- All of the first region is the target of a chunk.  A flexible chunk that fits into that region
moves past the target, into the hole, where there is no memory. -/
theorem target_off_ram : ∃ (s s' : Running (Unit × List Extent)) (source : Nat),
    run? Firmware.absent.listed smallGenerator [.stageAt 0x1000 0x1000]
        { task := Task.start holedHeap smallGenerator, firmware := ((), []) } = some s ∧
      stageWithin Firmware.absent.listed smallGenerator 0x1000 0x4000 0x1000 0x1000 .low s =
        .ok (source, 0x2000) s' ∧
      ∀ x, 0x2000 ≤ x → x < 0x3000 → ¬ holedHeap.Ram s'.firmware.2 x := by
  have hends : (run? Firmware.absent.listed smallGenerator [.stageAt 0x1000 0x1000]
      { task := Task.start holedHeap smallGenerator, firmware := ((), []) }).map (fun s =>
        match stageWithin Firmware.absent.listed smallGenerator 0x1000 0x4000 0x1000 0x1000
            .low s with
        | .ok (_, target) s' => some (target, s'.firmware.2)
        | .error _ _ => none) = some (some (0x2000, [])) := by
    decide +kernel
  obtain ⟨s, hrun, hend⟩ := Option.map_eq_some_iff.1 hends
  split at hend
  case h_1 source target s' hcall =>
    obtain ⟨rfl, hlisted⟩ := Prod.ext_iff.1 (Option.some.inj hend)
    refine ⟨s, s', source, hrun, hcall, fun x hlo hhi hram => ?_⟩
    rcases hram with ⟨r, hr, hx⟩ | ⟨e, he, -⟩
    · have hclear : ∀ r ∈ holedHeap.regions, r.extent.stop ≤ 0x2000 ∨ 0x3000 ≤ r.extent.start := by
        decide +kernel
      have := hclear r hr
      rw [Extent.mem_iff] at hx
      omega
    · rw [show s'.firmware.2 = [] from hlisted] at he
      cases he
  case h_2 => cases hend

/-- The target in the hole is right past the one that is registered. -/
theorem target_of_stageWithin_holed : ∃ (s s' : Running Unit) (source : Nat)
    (s₂ : Running (Unit × List Extent)) (window target : Extent),
    run? Firmware.absent smallGenerator [.stageAt 0x1000 0x1000]
        { task := Task.start holedHeap smallGenerator, firmware := () } = some s ∧
      stageWithin Firmware.absent smallGenerator 0x1000 0x4000 0x1000 0x1000 .low s =
        .ok (source, 0x2000) s' ∧
      s₂.map Prod.fst = s' ∧ window.start = 0x1000 ∧ window.stop = 0x4000 ∧
      target.start = 0x2000 ∧
      Aimed holedHeap s₂.firmware.2 s.task.chunks ⟨window, 0x1000, 0x1000, .low⟩ target := by
  have hends : (run? Firmware.absent smallGenerator [.stageAt 0x1000 0x1000]
      { task := Task.start holedHeap smallGenerator, firmware := () }).map (fun s =>
        match stageWithin Firmware.absent smallGenerator 0x1000 0x4000 0x1000 0x1000 .low s with
        | .ok (_, target) _ => some target
        | .error _ _ => none) = some (some 0x2000) := by
    decide +kernel
  obtain ⟨s, hrun, hend⟩ := Option.map_eq_some_iff.1 hends
  split at hend
  case h_1 source target s' hcall =>
    obtain rfl := Option.some.inj hend
    obtain ⟨-, s₂, window, target, -, -, -, hsame, hstart, hstop, haddress, haimed⟩ :=
      target_of_stageWithin holedHeap_reachable (reach_of_run? hrun) hcall
    exact ⟨s, s', source, s₂, window, target, hrun, hcall, hsame, hstart, hstop, haddress, haimed⟩
  case h_2 => cases hend

end Task

end Staging
