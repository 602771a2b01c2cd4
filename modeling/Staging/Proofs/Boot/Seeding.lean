import Staging.Boot.Seed
import Staging.Proofs.Boot.Accounting
import Staging.Proofs.Heap.Basic

/-!
# Seeding is all or nothing

A heap is seeded with pages that the boot services find anywhere.  A seeded heap has one more
region, which covers just the run that was allocated.  If the heap refuses the run it is freed, so
every error leaves the heap and all pages as they were (`seed_all_or_nothing`). -/

namespace Staging

/-! ### A region over pages -/

/-- A region can be made where a header fits. -/
theorem Region.exists_create_iff {id : RegionId} {extent : Extent} :
    (∃ r, create id extent = .ok r) ↔
      extent.start + 15 < Address.limit ∧ (extent.start + 15) / 16 * 16 + 32 ≤ extent.stop := by
  unfold create
  cases hhead : Address.ceilTo? headerAlign extent.start with
  | none =>
      constructor
      · rintro ⟨_, h⟩
        cases h
      · intro h
        rw [ceilTo?_headerAlign.2 ⟨h.1, rfl⟩] at hhead
        cases hhead
  | some head =>
      obtain ⟨hlt, rfl⟩ := ceilTo?_headerAlign.1 hhead
      dsimp only
      split
      case isTrue hfits => exact iff_of_true ⟨_, rfl⟩ ⟨hlt, hfits⟩
      case isFalse hfits =>
        constructor
        · rintro ⟨_, h⟩
          cases h
        · intro h
          exact absurd h.2 hfits

namespace Boot

/-- A region over whole pages can be made if there is one. -/
theorem exists_create_pages_iff {id : RegionId} {start count : Nat} {extent : Extent}
    (hdvd : pageSize ∣ start) (hstart : extent.start = start)
    (hstop : extent.stop = start + count * pageSize) :
    (∃ r, Region.create id extent = .ok r) ↔ 0 < count := by
  obtain ⟨page, rfl⟩ := hdvd
  have hword := extent.stop_lt
  rw [Region.exists_create_iff, hstart, hstop]
  rw [hstop] at hword
  simp only [pageSize] at hword ⊢
  omega

/-- **Adding a run** succeeds if it has a page, ends inside the address space, and overlaps no
region, in a heap that is not frozen and has an identity left for the next region. -/
theorem exists_addRun_iff {heap : Heap} {start count : Nat} (hv : heap.Valid)
    (hdvd : pageSize ∣ start) :
    (∃ answer heap', addRun heap start (count * pageSize) = .ok answer heap') ↔
      0 < count ∧ start + count * pageSize < Address.limit ∧ heap.frozen = false ∧
        (∀ r ∈ heap.regions, r.stop ≤ start ∨ start + count * pageSize ≤ r.base) ∧
        heap.nextId.number + 1 < RegionId.limit := by
  unfold addRun
  cases hextent : Extent.ofLength? start (count * pageSize) with
  | none =>
      constructor
      · rintro ⟨_, _, h⟩
        cases h
      · rintro ⟨-, hword, -⟩
        have hsome := Extent.ofBounds?_of_le (Nat.le_add_right start (count * pageSize)) hword
        cases hextent.symm.trans hsome
  | some extent =>
      obtain ⟨hstart, hstop⟩ := Extent.ofLength?_eq_some_iff.1 hextent
      have hword : start + count * pageSize < Address.limit := hstop ▸ extent.stop_lt
      have hcreate := @exists_create_pages_iff heap.nextId start count extent hdvd hstart hstop
      have hoff : (∀ r ∈ heap.regions, r.extent.Apart extent) ↔
          ∀ r ∈ heap.regions, r.stop ≤ start ∨ start + count * pageSize ≤ r.base := by
        refine forall₂_congr fun r hr => ?_
        obtain ⟨hlo, hhi⟩ := (hv.regions r hr).extent_bounds
        rw [Extent.Apart, hlo, hhi, hstart, hstop]
      rw [← hcreate, ← hoff]
      dsimp only
      constructor
      · rintro ⟨answer, heap', h⟩
        split at h
        case h_1 id heap'' hadd =>
          obtain ⟨hlive, hapart, region, nextId, hregion, hnext, -⟩ :=
            Heap.addRegion_eq_ok_iff.1 hadd
          have hlast := RegionId.next_eq_ok_iff.1 hnext
          exact ⟨⟨region, hregion⟩, hword, hlive, hapart, hlast ▸ nextId.number_lt⟩
        case h_2 => cases h
        case h_3 => cases h
      · rintro ⟨⟨region, hregion⟩, -, hlive, hapart, hlast⟩
        have hnext : heap.nextId.next = .ok ⟨heap.nextId.number + 1, hlast⟩ :=
          RegionId.next_eq_ok_iff.2 rfl
        have hadd := Heap.addRegion_eq_ok_iff.2
          ⟨hlive, hapart, region, _, hregion, hnext, rfl, rfl⟩
        rw [hadd]
        exact ⟨_, _, rfl⟩

/-- A run that is refused leaves the heap as it is. -/
theorem addRun_error {heap heap' : Heap} {start length : Nat} {cause : SeedError}
    (h : addRun heap start length = .error cause heap') : heap' = heap := by
  unfold addRun at h
  split at h
  case h_1 =>
    cases h
    rfl
  case h_2 =>
    split at h
    case h_1 => cases h
    case h_2 hadd =>
      cases h
      exact Heap.addRegion_error hadd
    case h_3 => cases h

/-- Only the last identity makes adding a run trap. -/
theorem addRun_trap {heap heap' : Heap} {start length : Nat} {cause : Trap}
    (h : addRun heap start length = .trap cause heap') :
    cause = .addOverflow ∧ heap.nextId.number + 1 = RegionId.limit := by
  unfold addRun at h
  split at h
  case h_1 => cases h
  case h_2 =>
    split at h
    case h_1 => cases h
    case h_2 => cases h
    case h_3 hadd =>
      cases h
      exact Heap.addRegion_trap hadd

/-- What a heap gains: a region of its own over a run of bytes, and nothing else. -/
structure Gains (heap heap' : Heap) (id : RegionId) (start length : Nat) : Prop where
  fresh : ∀ r ∈ heap.regions, r.id ≠ id
  /-- It is the next identity, and will not be the next one again. -/
  next : id = heap.nextId ∧ heap'.nextId.number = id.number + 1
  /-- The other regions stay as they are. -/
  regions : ∃ region before after, heap.regions = before ++ after ∧
    heap'.regions = before ++ region :: after ∧ region.Valid ∧ region.id = id ∧
      region.base = start ∧ region.stop = start + length
  frozen : heap'.frozen = heap.frozen
  valid : heap'.Valid

theorem gains_of_addRun {heap heap' : Heap} {start length : Nat} {answer : RegionId × Extent}
    (hv : heap.Valid) (h : addRun heap start length = .ok answer heap') :
    Gains heap heap' answer.1 start length := by
  unfold addRun at h
  split at h
  case h_1 => cases h
  case h_2 extent hextent =>
    obtain ⟨hstart, hstop⟩ := Extent.ofLength?_eq_some_iff.1 hextent
    split at h
    case h_2 => cases h
    case h_3 => cases h
    case h_1 id' heap'' hadd =>
      cases h
      have hvalid := hv.addRegion hadd
      obtain ⟨-, -, region, nextId, hcreate, hnext, rfl, rfl⟩ := Heap.addRegion_eq_ok_iff.1 hadd
      obtain ⟨hregion, hid, hbase, hend⟩ := Region.create_valid hcreate
      obtain ⟨before, after, hsplit, hinsert⟩ := Heap.exists_insertRegion_eq region heap.regions
      refine ⟨fun r hr hsame => ?_, ⟨rfl, RegionId.next_eq_ok_iff.1 hnext⟩,
        ⟨region, before, after, hsplit, hinsert, hregion, hid, ?_, ?_⟩, rfl, hvalid⟩
      · have := hv.fresh r hr
        rw [hsame] at this
        exact Nat.lt_irrefl _ this
      · exact hbase.trans hstart
      · exact hend.trans hstop

/-! ### Seeding -/

variable {β : Type} {bs : Services β} {types : β → Nat → MemoryType}
  {lent : β → List PageRun → Prop} {heap : Heap} {count : Nat} {s : β}

/-- A run that is freed right after it was allocated leaves no trace. -/
theorem freeRun_back {sites : Site → Prop} (h : bs.Lends types lent sites) {run : PageRun} {s₁ : β}
    (hturns : run.Turns .conventional .loaderData (types s) (types s₁))
    (hkeep : ∀ runs, lent s runs → lent s₁ (run :: runs)) :
    types (freeRun bs run s₁).state = types s ∧
      ∀ runs, lent s runs → lent (freeRun bs run s₁).state runs := by
  rcases hfree : bs.free run.start run.count s₁ with ⟨outcome, s'⟩
  have hstate : (freeRun bs run s₁).state = s' := by
    rw [freeRun, hfree]
    cases outcome <;> rfl
  obtain ⟨hback, hlent⟩ := h.freed_head hkeep hfree
  rw [hstate]
  exact ⟨hturns.back hback, hlent⟩

/-- How seeding ends: before pages were allocated, or as adding them to the heap does.  In the
latter case they are freed after an error. -/
theorem seed_cases (bs : Services β) (heap : Heap) (count : Nat) (s : β) :
    (Address.limit ≤ count * pageSize ∧ (seed bs heap count s).value = .error .pageCount heap ∧
        (seed bs heap count s).state = s) ∨
      count * pageSize < Address.limit ∧
        ((∃ status s₁, bs.allocatePages .anywhere .loaderData count s = (.error status, s₁) ∧
            (seed bs heap count s).value = .error (.allocation status) heap ∧
            (seed bs heap count s).state = s₁) ∨
          ∃ start s₁, bs.allocatePages .anywhere .loaderData count s = (.ok start, s₁) ∧
            (seed bs heap count s).value =
              (addRun heap start (count * pageSize)).map (·.1) ∧
            (seed bs heap count s).state =
              match addRun heap start (count * pageSize) with
              | .error _ _ => (freeRun bs ⟨start, count⟩ s₁).state
              | _ => s₁) := by
  unfold seed
  split
  case isTrue hlimit => exact .inl ⟨hlimit, rfl, rfl⟩
  case isFalse hlimit =>
    refine .inr ⟨Nat.not_le.1 hlimit, ?_⟩
    rcases hallocate : bs.allocatePages .anywhere .loaderData count s with ⟨outcome, s₁⟩
    cases outcome with
    | error status => exact .inl ⟨status, s₁, rfl, rfl, rfl⟩
    | ok start =>
        refine .inr ⟨start, s₁, rfl, ?_⟩
        dsimp only
        cases addRun heap start (count * pageSize) <;> exact ⟨rfl, rfl⟩

/-- Pages that were allocated can be added just if pages can be allocated and added. -/
theorem exists_addRun_of_allocated_iff {start : Nat} {s₁ : β} (hv : heap.Valid)
    (hdvd : pageSize ∣ start)
    (hallocate : bs.allocatePages .anywhere .loaderData count s = (.ok start, s₁)) :
    (∃ answer heap', addRun heap start (count * pageSize) = .ok answer heap') ↔
      0 < count ∧ heap.frozen = false ∧ heap.nextId.number + 1 < RegionId.limit ∧ ∃ start s₁,
        bs.allocatePages .anywhere .loaderData count s = (.ok start, s₁) ∧
          start + count * pageSize < Address.limit ∧
          ∀ r ∈ heap.regions, r.stop ≤ start ∨ start + count * pageSize ≤ r.base := by
  rw [exists_addRun_iff hv hdvd]
  constructor
  · rintro ⟨hpos, hword, hlive, hoff, hlast⟩
    exact ⟨hpos, hlive, hlast, start, s₁, hallocate, hword, hoff⟩
  · rintro ⟨hpos, hlive, hlast, start', s', hallocate', hword, hoff⟩
    cases hallocate.symm.trans hallocate'
    exact ⟨hpos, hword, hlive, hoff, hlast⟩

/-- **Seeding is all or nothing.**  If it succeeds, one run of unused pages now belongs to the
loader and no other page has changed, and the heap has gained one region, with a fresh identity,
over just the bytes of this run.  If it ends with an error, for whatever reason, the heap is what it
was, and so is the type of every page.  It traps only where the heap has no identity left.  It
succeeds exactly if the pages can be allocated, there is at least one, the run ends inside the
address space, and a heap that is not frozen has an identity for it and no region there. -/
theorem seed_all_or_nothing (hbs : bs.Lends types lent (· = .anywhere)) (hv : heap.Valid)
    (count : Nat) (s : β) :
    (∀ id heap', (seed bs heap count s).value = .ok id heap' →
      ∃ start, start ≠ 0 ∧ pageSize ∣ start ∧
        PageRun.Turns ⟨start, count⟩ .conventional .loaderData (types s)
          (types (seed bs heap count s).state) ∧
        Gains heap heap' id start (count * pageSize)) ∧
    (∀ e heap', (seed bs heap count s).value = .error e heap' →
      heap' = heap ∧ types (seed bs heap count s).state = types s ∧
        ∀ runs, lent s runs → lent (seed bs heap count s).state runs) ∧
    (∀ cause heap', (seed bs heap count s).value = .trap cause heap' →
      cause = .addOverflow ∧ heap.nextId.number + 1 = RegionId.limit) ∧
    ((∃ id heap', (seed bs heap count s).value = .ok id heap') ↔
      0 < count ∧ heap.frozen = false ∧ heap.nextId.number + 1 < RegionId.limit ∧ ∃ start s₁,
        bs.allocatePages .anywhere .loaderData count s = (.ok start, s₁) ∧
          start + count * pageSize < Address.limit ∧
          ∀ r ∈ heap.regions, r.stop ≤ start ∨ start + count * pageSize ≤ r.base) := by
  rcases seed_cases bs heap count s with ⟨hlimit, hvalue, hstate⟩ | ⟨hlimit, hend⟩
  · rw [hvalue, hstate]
    refine ⟨nofun, fun e heap' h => ?_, nofun, iff_of_false nofun ?_⟩
    · cases h
      exact ⟨rfl, rfl, fun _ => id⟩
    · rintro ⟨-, -, -, start, -, -, hword, -⟩
      omega
  rcases hend with ⟨status, s₁, hallocate, hvalue, hstate⟩ | ⟨start, s₁, hallocate, hvalue, hstate⟩
  · rw [hvalue, hstate, hallocate]
    refine ⟨nofun, fun e heap' h => ?_, nofun, iff_of_false nofun ?_⟩
    · cases h
      exact ⟨rfl, hbs.refused rfl hallocate⟩
    · rintro ⟨-, -, -, start, _, hok, -⟩
      cases hok
  have hne := hbs.zero rfl hallocate
  obtain ⟨hdvd, hturns, hkeep⟩ := hbs.allocated rfl hallocate
  rw [← exists_addRun_of_allocated_iff hv hdvd hallocate, hvalue, hstate]
  cases hadd : addRun heap start (count * pageSize) with
  | ok answer heap' =>
      refine ⟨fun id heap'' hok => ?_, nofun, nofun, iff_of_true ⟨_, _, rfl⟩ ⟨_, _, rfl⟩⟩
      cases hok
      exact ⟨start, hne, hdvd, hturns, gains_of_addRun hv hadd⟩
  | error cause heap' =>
      refine ⟨nofun, fun e heap'' herror => ?_, nofun, iff_of_false nofun nofun⟩
      cases herror
      exact ⟨addRun_error hadd, freeRun_back hbs hturns hkeep⟩
  | trap cause heap' =>
      refine ⟨nofun, nofun, fun cause' heap'' htrap => ?_, iff_of_false nofun nofun⟩
      cases htrap
      exact addRun_trap hadd

/-! ### A table of pages -/

namespace PageTable

/-- The first page of the lowest run of unused pages.  Unused pages at address zero are held while
the run is looked for, so it shares no page with them. -/
def lowest? (table : PageTable) (mapped count : Nat) : Option Nat :=
  let held := table.set ⟨0, if table.isAll ⟨0, count⟩ .conventional then count else 0⟩ .loaderData
  (List.range (mapped + 1 - count)).find? fun page =>
    page ≠ 0 && held.isAll ⟨page * pageSize, count⟩ .conventional

/-- A page that does not have the type that was given had its type before. -/
theorem types_of_set {table : PageTable} {run : PageRun} {old new : MemoryType} {page : Nat}
    (hne : new ≠ old) (h : (table.set run new).types page = old) : table.types page = old := by
  by_cases hpage : run.Has page
  · exact absurd ((if_pos hpage).symm.trans h) hne
  · exact (if_neg hpage).symm.trans h

theorem lowest?_spec {table : PageTable} {mapped page : Nat}
    (h : table.lowest? mapped count = some page) :
    page ≠ 0 ∧ table.isAll ⟨page * pageSize, count⟩ .conventional = true := by
  have hfound := List.find?_some h
  rw [Bool.and_eq_true, decide_eq_true_eq, isAll_iff] at hfound
  exact ⟨hfound.1, isAll_iff.2 fun number hnumber =>
    types_of_set (by decide) (hfound.2 number hnumber)⟩

/-- Boot services that know nothing but the type of each page, and allocate the lowest ones. -/
def lowest (mapped : Nat) : Services PageTable where
  memoryMap := (services mapped).memoryMap
  allocatePages site type count table :=
    match site with
    | .fixed start => (services mapped).allocatePages (.fixed start) type count table
    | .anywhere =>
        match table.lowest? mapped count with
        | some page => (.ok (page * pageSize), table.set ⟨page * pageSize, count⟩ type)
        | none => (.error .outOfResources, table)
  free := (services mapped).free

theorem lowest_lends (mapped : Nat) :
    (lowest mapped).Lends PageTable.types Lent (· = .anywhere) where
  nothing := (paged mapped).nothing
  fewer := (paged mapped).fewer
  zero {site count table start table'} hsite hallocate := by
    subst hsite
    simp only [lowest] at hallocate
    split at hallocate
    case h_2 => cases hallocate
    case h_1 page hfind =>
      cases hallocate
      exact Nat.mul_ne_zero (lowest?_spec hfind).1 (by decide)
  allocated {site count table start table'} hsite hallocate := by
    subst hsite
    simp only [lowest] at hallocate
    split at hallocate
    case h_2 => cases hallocate
    case h_1 page hfind =>
      cases hallocate
      have hall := (lowest?_spec hfind).2
      exact ⟨Nat.dvd_mul_left _ _, set_turns hall, fun _ h => h.allocate hall⟩
  refused {site count table status table'} hsite hallocate := by
    subst hsite
    simp only [lowest] at hallocate
    split at hallocate
    case h_1 => cases hallocate
    case h_2 =>
      cases hallocate
      exact ⟨rfl, fun _ => id⟩
  freed := (paged mapped).freed

end PageTable

/-- Pages at address zero are given up for others, which become a region.  A heap that has a region
there, and one that is frozen, refuse them, and every page has its type again. -/
theorem seed_all_or_nothing_above_zero : ∃ other frozen : Heap,
    other = (({} : Heap).run [.addRegion (.ofBoundsD 0x3000 0x8000)]).1 ∧
      frozen = (({} : Heap).run [.freeze]).1 ∧
      (∃ id heap' start, (seed (PageTable.lowest 8) {} 2 smallTable).value = .ok id heap' ∧
        heap'.regions.map (fun r => (r.id.number, r.base, r.stop)) = [(0, 0x2000, 0x4000)] ∧
        Gains {} heap' id start 0x2000 ∧
        PageRun.Turns ⟨start, 2⟩ .conventional .loaderData smallTable.types
          (seed (PageTable.lowest 8) {} 2 smallTable).state.types) ∧
      (seed (PageTable.lowest 8) other 2 smallTable).value =
        .error (.heap (.overlap (.ofBoundsD 0x2000 0x4000))) other ∧
      (seed (PageTable.lowest 8) other 2 smallTable).state.types = smallTable.types ∧
      (seed (PageTable.lowest 8) frozen 2 smallTable).value = .error (.heap .frozen) frozen ∧
      (seed (PageTable.lowest 8) frozen 2 smallTable).state.types = smallTable.types := by
  let other : Heap := (({} : Heap).run [.addRegion (.ofBoundsD 0x3000 0x8000)]).1
  let frozen : Heap := (({} : Heap).run [.freeze]).1
  have hbs := PageTable.lowest_lends 8
  have hvalid : other.Valid := Heap.valid_empty.run _
  have hvalid' : frozen.Valid := Heap.valid_empty.run _
  obtain ⟨hseeded, -⟩ := seed_all_or_nothing hbs Heap.valid_empty 2 smallTable
  obtain ⟨-, hother, -⟩ := seed_all_or_nothing hbs hvalid 2 smallTable
  obtain ⟨-, hfrozen, -⟩ := seed_all_or_nothing hbs hvalid' 2 smallTable
  have hregions : (match (seed (PageTable.lowest 8) {} 2 smallTable).value with
      | .ok _ heap' => heap'.regions.map fun r => (r.id.number, r.base, r.stop)
      | _ => []) = [(0, 0x2000, 0x4000)] := by
    decide +kernel
  split at hregions
  case h_2 => cases hregions
  case h_1 id heap' hvalue =>
    obtain ⟨start, -, -, hturns, hgains⟩ := hseeded id heap' hvalue
    have hoverlap : (seed (PageTable.lowest 8) other 2 smallTable).value =
        .error (.heap (.overlap (.ofBoundsD 0x2000 0x4000))) other := by
      decide +kernel
    have hlocked : (seed (PageTable.lowest 8) frozen 2 smallTable).value =
        .error (.heap .frozen) frozen := by
      decide +kernel
    exact ⟨other, frozen, rfl, rfl, ⟨id, heap', start, hvalue, hregions, hgains, hturns⟩,
      hoverlap, (hother _ _ hoverlap).2.1, hlocked, (hfrozen _ _ hlocked).2.1⟩

end Boot

end Staging
