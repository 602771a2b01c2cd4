import Staging.Proofs.Boot.Pages
import Staging.Proofs.Task.Teardown

/-!
# The pages of a task

A task places its sources byte by byte, while boot services allocate whole pages, and the pages to
free are found anew from the extent of a block alone.  They are the pages that were allocated for
it, since no pages at address zero are lent and the cover of an extent never changes.

So the pages that changed their type since a task started are those that cover its blocks, no two
blocks are on one page, and none of these pages is offered again (`pages_of_reach`).  When the task
ends every page has its first type again.
-/

namespace Staging.Boot

open Staging.Task (Reach Running)

variable {β γ : Type} {bs : Services β} {types : β → Nat → MemoryType}
  {lent : β → List PageRun → Prop} {first s : β} {blocks : List Extent} {e : Extent}

/-! ### The covers of the blocks -/

/-- The covers of blocks, one run for each. -/
def covers (blocks : List Extent) : List PageRun := blocks.filterMap PageRun.cover?

theorem covers_cons {run : PageRun} (h : PageRun.cover? e = some run) (blocks : List Extent) :
    covers (e :: blocks) = run :: covers blocks :=
  List.filterMap_cons_some h

theorem perm_covers {blocks' : List Extent} (h : blocks.Perm blocks') :
    (covers blocks).Perm (covers blocks') :=
  h.filterMap _

/-- What the boot services have to do with the blocks that they lent since the state `first`. -/
structure Holds (types : β → Nat → MemoryType) (lent : β → List PageRun → Prop) (first : β)
    (s : β) (blocks : List Extent) : Prop where
  /-- No cover is at address zero, where it would not be freed. -/
  covered : ∀ block ∈ blocks, ∃ run, PageRun.cover? block = some run ∧ run.start ≠ 0
  lent : lent s (covers blocks)
  account : Account (types first) (types s) (covers blocks)

theorem Holds.start (h : bs.Paged types lent) (first : β) : Holds types lent first first [] :=
  ⟨fun _ hmem => absurd hmem List.not_mem_nil, h.nothing first, .nil _⟩

/-- A block is granted with the pages of its cover. -/
theorem Holds.granted (h : bs.Paged types lent) (hs : Holds types lent first s blocks)
    (hgranted : (reserve bs e s).value = true) :
    Holds types lent first (reserve bs e s).state (blocks ++ [e]) := by
  unfold reserve at hgranted ⊢
  split at hgranted
  case h_1 => cases hgranted
  case h_2 run hcover =>
    split at hgranted
    case h_2 => cases hgranted
    case h_1 address s' hallocate =>
      have haligned : Site.Aligned (.fixed run.start) :=
        ⟨run.start, PageRun.dvd_of_cover? hcover, rfl⟩
      have hne := h.zero haligned hallocate
      obtain ⟨rfl, hturns, hkeep⟩ := h.allocated haligned hallocate
      have hperm := perm_covers (List.perm_append_singleton e blocks).symm
      rw [covers_cons hcover] at hperm
      refine ⟨fun block hblock => ?_, ?_, (hs.account.allocate hturns).perm hperm⟩
      · rcases List.mem_append.1 hblock with hblock | hblock
        · exact hs.covered block hblock
        · obtain rfl := List.mem_singleton.1 hblock
          exact ⟨run, hcover, hne⟩
      · exact h.fewer (hkeep _ hs.lent) hperm.symm.subperm

theorem Holds.refused (h : bs.Paged types lent) (hs : Holds types lent first s blocks)
    (hrefused : (reserve bs e s).value = false) :
    Holds types lent first (reserve bs e s).state blocks := by
  unfold reserve at hrefused ⊢
  split at hrefused
  case h_1 => exact hs
  case h_2 run hcover =>
    split at hrefused
    case h_1 => cases hrefused
    case h_2 status s' hallocate =>
      obtain ⟨htypes, hkeep⟩ :=
        h.refused ⟨run.start, PageRun.dvd_of_cover? hcover, rfl⟩ hallocate
      exact ⟨hs.covered, hkeep _ hs.lent, htypes ▸ hs.account⟩

/-- The pages of a block that is released are freed. -/
theorem Holds.released (h : bs.Paged types lent) (hs : Holds types lent first s blocks)
    (he : e ∈ blocks) : Holds types lent first (release bs e s).state (blocks.erase e) := by
  obtain ⟨run, hcover, hne⟩ := hs.covered e he
  have hperm := perm_covers (List.perm_cons_erase he)
  rw [covers_cons hcover] at hperm
  obtain ⟨s', hfree, hturns, hlent⟩ :=
    h.freed (h.fewer hs.lent hperm.symm.subperm) List.mem_cons_self
  have hrun : (PageRun.cover? e).filter (·.start ≠ 0) = some run := by
    rw [hcover, Option.filter_some, if_pos (by simpa using hne)]
  have hstate : (release bs e s).state = s' := by
    unfold release
    rw [hrun]
    dsimp only
    rw [freeRun, hfree]
  rw [List.erase_cons_head] at hlent
  rw [hstate]
  exact ⟨fun block hblock => hs.covered block (List.mem_of_mem_erase hblock), hlent,
    (hs.account.perm hperm).free hturns⟩

/-- Firmware on boot services keeps the account of its pages. -/
theorem tracks_pages (h : bs.Paged types lent) (first : β) :
    (firmware bs).Tracks (Holds types lent first) where
  available hs := by
    simp only [firmware, available]
    split <;> exact hs
  granted hs hgranted := by
    simp only [firmware] at hgranted ⊢
    exact hs.granted h hgranted
  refused hs hrefused := by
    simp only [firmware] at hrefused ⊢
    exact hs.refused h hrefused
  released hs he := by
    simp only [firmware]
    exact hs.released h he

/-- The pages that are offered are unused. -/
theorem conventional_of_available (h : bs.Paged types lent)
    (he : e ∈ (available bs s).value) {x : Nat} (hx : x ∈ e) :
    types s (x / pageSize) = .conventional := by
  unfold available at he
  split at he
  case h_2 => cases he
  case h_1 map hmap =>
    obtain ⟨d, hd, hextent⟩ := List.mem_filterMap.1 he
    obtain ⟨hd, htype⟩ := List.mem_filter.1 hd
    obtain ⟨hstart, hstop⟩ := Extent.ofLength?_eq_some_iff.1 hextent
    rw [← eq_of_beq htype]
    exact h.map hmap d hd x (hstart ▸ hx.1) (hstop ▸ hx.2)

/-- **The pages of a task** are those that cover its blocks, in every state that is reached, and
none of them is offered again.  Whether the task is discarded or closed, every page then has the
type that it had when the task started. -/
theorem pages_of_reach (gen : Code.Generator γ) {gens : Code.Generator γ → Prop} {origin : Heap}
    {s : Running β} (hbs : bs.Paged types lent) (horigin : origin.Reachable)
    (h : Reach (firmware bs) gens origin first s) :
    (∀ block ∈ s.task.blocks, ∃ run, PageRun.cover? block = some run ∧
        ∀ page, run.Has page ↔ ∃ x ∈ block, x / pageSize = page) ∧
      Account (types first) (types s.firmware) (covers s.task.blocks) ∧
      (∀ e ∈ ((firmware bs).available s.firmware).value, ∀ x ∈ e,
        ∀ run ∈ covers s.task.blocks, ¬ run.Has (x / pageSize)) ∧
      (∃ s', Task.discard (firmware bs) gen s = .ok () s' ∧ types s'.firmware = types first) ∧
      ∃ s', Task.close (firmware bs) gen s = .ok () s' ∧ types s'.firmware = types first := by
  have hv := horigin.valid
  have hfw := tracks_pages hbs first
  have hstaged := h.staged hv hfw (.start hbs first)
  have hholds := hstaged.owes.tracked
  have hend {s : Running β} (hs : Task.Staged origin (Holds types lent first) s) :
      ∃ s', Task.discard (firmware bs) gen s = .ok () s' ∧ types s'.firmware = types first := by
    obtain ⟨s', hdiscard, howes, -⟩ := Task.discard_spec gen hv hfw hs
    have hblocks : s'.task.blocks = [] := howes.blocks
    have hlast := howes.tracked.account
    rw [hblocks] at hlast
    exact ⟨s', hdiscard, hlast.eq_of_nil⟩
  refine ⟨fun block hblock => ?_, hholds.account, ?_, hend hstaged, hend hstaged.unloading⟩
  · obtain ⟨run, hcover, -⟩ := hholds.covered block hblock
    rw [hstaged.owes.blocks, List.mem_reverse, List.mem_filterMap] at hblock
    obtain ⟨loan, hloan, hloan'⟩ := hblock
    obtain ⟨-, rfl⟩ := Loan.block?_eq_some_iff.1 hloan'
    have hne := (hstaged.owes.heap.claimed_covers hv hloan).1
    exact ⟨run, hcover, PageRun.has_iff_of_cover? hcover hne⟩
  · intro e he x hx run hrun hpage
    have hfree := hholds.account.of_conventional (conventional_of_available hbs he hx)
    exact hfree.1 ⟨run, hrun, hpage⟩

/-! ### A table of pages -/

/-- The type of each page. -/
structure PageTable where
  types : Nat → MemoryType

namespace PageTable

variable {table : PageTable} {run : PageRun} {old new : MemoryType}

/-- Give the pages of a run another type. -/
def set (table : PageTable) (run : PageRun) (new : MemoryType) : PageTable where
  types page := if run.Has page then new else table.types page

/-- Whether all pages of a run have this type. -/
def isAll (table : PageTable) (run : PageRun) (type : MemoryType) : Bool :=
  (List.range' (run.start / pageSize) run.count).all (table.types · == type)

theorem isAll_iff : table.isAll run old = true ↔ ∀ page, run.Has page → table.types page = old := by
  simp [isAll, PageRun.Has]

theorem set_turns (h : table.isAll run old = true) :
    run.Turns old new table.types (table.set run new).types where
  was := isAll_iff.1 h
  becomes _ hpage := if_pos hpage
  others _ hpage := if_neg hpage

/-- Boot services that know nothing but the type of each page.  So many pages are in their map.
Pages at address zero are refused, since only a second allocation could take their place and there
is none at the same address. -/
def services (mapped : Nat) : Services PageTable where
  memoryMap table :=
    .ok ((List.range mapped).map fun page => ⟨table.types page, page * pageSize, 1⟩)
  allocatePages site type count table :=
    match site with
    | .anywhere => (.error .outOfResources, table)
    | .fixed start =>
        if start ≠ 0 ∧ table.isAll ⟨start, count⟩ .conventional then
          (.ok start, table.set ⟨start, count⟩ type)
        else
          (.error .notFound, table)
  free start count table :=
    if table.isAll ⟨start, count⟩ .loaderData then
      (.ok (), table.set ⟨start, count⟩ .conventional)
    else
      (.error .notFound, table)

/-- Any runs of the loader can be freed, if no two of them share a page. -/
structure Lent (table : PageTable) (runs : List PageRun) : Prop where
  apart : runs.Pairwise PageRun.Apart
  loader : ∀ run ∈ runs, ∀ page, run.Has page → table.types page = .loaderData

namespace Lent

variable {runs runs' : List PageRun}

theorem fewer (h : table.Lent runs) (hsub : runs'.Subperm runs) : table.Lent runs' := by
  obtain ⟨l, hperm, hsublist⟩ := hsub
  have hapart := h.apart.sublist hsublist
  exact ⟨(hperm.pairwise_iff fun hab => PageRun.Apart.symm hab).1 hapart,
    fun run hrun => h.loader run (hsublist.subset (hperm.mem_iff.2 hrun))⟩

theorem allocate (h : table.Lent runs) (hall : table.isAll run .conventional = true) :
    (table.set run .loaderData).Lent (run :: runs) := by
  have hturns := @set_turns table run _ .loaderData hall
  have hother : ∀ other ∈ runs, run.Apart other := fun other hmem page hpage hpage' =>
    absurd ((hturns.was page hpage).symm.trans (h.loader other hmem page hpage')) (by decide)
  refine ⟨.cons hother h.apart, fun other hmem page hpage => ?_⟩
  rcases List.mem_cons.1 hmem with rfl | hmem
  · exact hturns.becomes page hpage
  · exact (hturns.others page fun hpage' => hother other hmem page hpage' hpage).trans
      (h.loader other hmem page hpage)

theorem free (h : table.Lent (run :: runs)) : (table.set run .conventional).Lent runs := by
  obtain ⟨hother, hapart⟩ := List.pairwise_cons.1 h.apart
  refine ⟨hapart, fun other hmem page hpage => ?_⟩
  exact (if_neg fun hpage' => hother other hmem page hpage' hpage).trans
    (h.loader other (List.mem_cons_of_mem _ hmem) page hpage)

end Lent

theorem exists_free (mapped : Nat) {runs : List PageRun} (h : table.Lent runs)
    (hrun : run ∈ runs) :
    ∃ table', (services mapped).free run.start run.count table = (.ok (), table') ∧
      run.Turns .loaderData .conventional table.types table'.types ∧
      table'.Lent (runs.erase run) := by
  have hall : table.isAll run .loaderData = true := isAll_iff.2 (h.loader run hrun)
  have hcons := h.fewer (List.perm_cons_erase hrun).symm.subperm
  exact ⟨table.set run .conventional, if_pos hall, set_turns hall, hcons.free⟩

/-- A table does page by page what boot services promise. -/
theorem paged (mapped : Nat) : (services mapped).Paged PageTable.types Lent where
  map {table map} hmap d hd x hstart hstop := by
    obtain rfl := Except.ok.inj hmap
    obtain ⟨page, -, rfl⟩ := List.mem_map.1 hd
    have hpage : x / pageSize = page := by
      simp only [pageSize] at hstart hstop ⊢
      omega
    exact congrArg table.types hpage
  nothing _ := ⟨.nil, fun _ hmem => absurd hmem List.not_mem_nil⟩
  fewer h := h.fewer
  zero {site count table start table'} hsite hallocate := by
    obtain ⟨address, -, rfl⟩ := hsite
    simp only [services] at hallocate
    split at hallocate
    case isFalse => cases hallocate
    case isTrue hallowed =>
      cases hallocate
      exact hallowed.1
  allocated {site count table start table'} hsite hallocate := by
    obtain ⟨address, -, rfl⟩ := hsite
    simp only [services] at hallocate
    split at hallocate
    case isFalse => cases hallocate
    case isTrue hallowed =>
      cases hallocate
      exact ⟨rfl, set_turns hallowed.2, fun _ h => h.allocate hallowed.2⟩
  refused {site count table status table'} hsite hallocate := by
    obtain ⟨address, -, rfl⟩ := hsite
    simp only [services] at hallocate
    split at hallocate
    case isTrue => cases hallocate
    case isFalse =>
      cases hallocate
      exact ⟨rfl, fun _ => id⟩
  freed := exists_free mapped

end PageTable

/-- A table in which the loader has one page already. -/
def smallTable : PageTable where
  types page := if page = 4 then .loaderData else .conventional

/-- The page at zero is refused twice, and the second block lies on two pages. -/
theorem pages_of_reach_table : ∃ s : Running PageTable,
    Task.run? (firmware (PageTable.services 5)) smallGenerator
        [.stageAt 0xe00 0x100, .stageAt 0x2f80 0x100]
        { task := Task.start {} smallGenerator, firmware := smallTable } = some s ∧
      covers s.task.blocks = [⟨0x1000, 1⟩, ⟨0x2000, 2⟩] ∧
      Account smallTable.types s.firmware.types (covers s.task.blocks) ∧
      ∃ s', Task.close (firmware (PageTable.services 5)) smallGenerator s = .ok () s' ∧
        s'.firmware.types = smallTable.types := by
  have hcovers : (Task.run? (firmware (PageTable.services 5)) smallGenerator
      [.stageAt 0xe00 0x100, .stageAt 0x2f80 0x100]
      { task := Task.start {} smallGenerator, firmware := smallTable }).map
        (fun s => covers s.task.blocks) = some [⟨0x1000, 1⟩, ⟨0x2000, 2⟩] := by
    decide +kernel
  obtain ⟨s, hrun, hruns⟩ := Option.map_eq_some_iff.1 hcovers
  obtain ⟨-, haccount, -, -, hclose⟩ :=
    pages_of_reach smallGenerator (PageTable.paged 5) .empty
      (Task.reach_of_run? hrun)
  exact ⟨s, hrun, hruns, haccount, hclose⟩

end Staging.Boot
