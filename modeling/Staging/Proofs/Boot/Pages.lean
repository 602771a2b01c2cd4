import Mathlib.Data.List.Perm.Subperm
import Mathlib.Tactic.ByContra
import Staging.Boot.Firmware
import Staging.Proofs.Address
import Staging.Proofs.Extent

/-!
# Pages of the boot services

Boot services allocate whole pages, in runs.  An account (`Account`) says which runs were allocated
since the pages had their first types: no page is in two of them, and no other page has changed.
Allocating a run adds it to the account and freeing it takes it off again.

How pages are allocated is up to the boot services.  What the library relies on are the fields of
`Services.Lends`: pages are allocated only where they are unused and never at address zero, a
refusal has no effect, and freeing undoes an allocation.  A memory map that describes the pages is
promised beside them by `Services.Paged`.
-/

namespace Staging.Boot

/-! ### Runs of pages -/

namespace PageRun

/-- The page of this number is in the run. -/
def Has (run : PageRun) (page : Nat) : Prop :=
  run.start / pageSize ≤ page ∧ page < run.start / pageSize + run.count

instance (run : PageRun) (page : Nat) : Decidable (run.Has page) :=
  inferInstanceAs (Decidable (_ ∧ _))

/-- No page is in both runs. -/
def Apart (a b : PageRun) : Prop := ∀ page, a.Has page → ¬ b.Has page

theorem Apart.symm {a b : PageRun} (h : a.Apart b) : b.Apart a := fun page hb ha => h page ha hb

theorem cover?_eq_some {e : Extent} {run : PageRun} (h : cover? e = some run) :
    run.start = e.start / pageSize * pageSize ∧
      run.count = (e.stop + (pageSize - 1)) / pageSize - e.start / pageSize := by
  have hpow : Address.isPowerOfTwo pageSize = true := rfl
  unfold cover? at h
  obtain ⟨stop, hstop, hrun⟩ := Option.bind_eq_some_iff.1 h
  obtain ⟨-, rfl⟩ := (Address.ceilTo?_eq_some_iff hpow).1 hstop
  obtain rfl := Option.some.inj hrun
  dsimp only
  rw [Address.floorTo_eq hpow, ← Nat.sub_mul, Nat.mul_div_cancel _ (by decide)]
  exact ⟨rfl, rfl⟩

theorem dvd_of_cover? {e : Extent} {run : PageRun} (h : cover? e = some run) :
    pageSize ∣ run.start := by
  rw [(cover?_eq_some h).1]
  exact Nat.dvd_mul_left _ _

/-- The cover of an extent that has a byte consists of the pages of its bytes. -/
theorem has_iff_of_cover? {e : Extent} {run : PageRun} (h : cover? e = some run)
    (hne : e.start < e.stop) (page : Nat) : run.Has page ↔ ∃ x ∈ e, x / pageSize = page := by
  obtain ⟨hstart, hcount⟩ := cover?_eq_some h
  simp only [Has, Extent.mem_iff, pageSize] at hstart hcount ⊢
  constructor
  · intro hpage
    exact ⟨max e.start (page * 4096), by omega, by omega⟩
  · rintro ⟨x, hx, rfl⟩
    omega

/-- The pages of a run turn from one type into another, and all others stay as they are. -/
structure Turns (run : PageRun) (old new : MemoryType) (types types' : Nat → MemoryType) :
    Prop where
  was : ∀ page, run.Has page → types page = old
  becomes : ∀ page, run.Has page → types' page = new
  others : ∀ page, ¬ run.Has page → types' page = types page

/-- Pages that turn back have the types that they had. -/
theorem Turns.back {run : PageRun} {old new : MemoryType} {types types' types'' : Nat → MemoryType}
    (h : run.Turns old new types types') (hback : run.Turns new old types' types'') :
    types'' = types := by
  funext page
  by_cases hpage : run.Has page
  · rw [hback.becomes page hpage, h.was page hpage]
  · rw [hback.others page hpage, h.others page hpage]

end PageRun

/-! ### Accounts of pages -/

/-- Runs of pages that were allocated since the pages had their first types. -/
structure Account (first now : Nat → MemoryType) (runs : List PageRun) : Prop where
  apart : runs.Pairwise PageRun.Apart
  /-- The pages of the runs were unused, and belong to the loader now. -/
  taken : ∀ page, (∃ run ∈ runs, run.Has page) ↔
    first page = .conventional ∧ now page = .loaderData
  /-- No other page has another type than at first. -/
  changed : ∀ page, now page ≠ first page → ∃ run ∈ runs, run.Has page

namespace Account

variable {first now now' : Nat → MemoryType} {run : PageRun} {runs runs' : List PageRun}

theorem nil (types : Nat → MemoryType) : Account types types [] where
  apart := .nil
  taken page := by
    refine ⟨fun ⟨_, hmem, _⟩ => absurd hmem List.not_mem_nil, fun ⟨hfirst, hnow⟩ => ?_⟩
    exact absurd (hfirst.symm.trans hnow) (by decide)
  changed page hne := absurd rfl hne

theorem eq_of_nil (h : Account first now []) : now = first := by
  funext page
  by_contra hne
  obtain ⟨_, hmem, -⟩ := h.changed page hne
  exact absurd hmem List.not_mem_nil

theorem perm (h : Account first now runs) (hperm : runs.Perm runs') :
    Account first now runs' where
  apart := (hperm.pairwise_iff fun hab => PageRun.Apart.symm hab).1 h.apart
  taken page := by simpa only [hperm.mem_iff] using h.taken page
  changed page hne := by simpa only [hperm.mem_iff] using h.changed page hne

/-- A page that is unused now is in no run, and was unused at first. -/
theorem of_conventional (h : Account first now runs) {page : Nat}
    (hpage : now page = .conventional) :
    (¬ ∃ run ∈ runs, run.Has page) ∧ first page = .conventional := by
  have hnone : ¬ ∃ run ∈ runs, run.Has page := fun hmem =>
    absurd (hpage.symm.trans ((h.taken page).1 hmem).2) (by decide)
  refine ⟨hnone, ?_⟩
  by_contra hne
  exact hnone (h.changed page fun hsame => hne (hsame ▸ hpage))

/-- An allocated run joins the account. -/
theorem allocate (h : Account first now runs)
    (hturns : run.Turns .conventional .loaderData now now') : Account first now' (run :: runs) where
  apart := by
    refine .cons (fun other hother page hpage hpage' => ?_) h.apart
    exact (h.of_conventional (hturns.was page hpage)).1 ⟨other, hother, hpage'⟩
  taken page := by
    rw [List.exists_mem_cons_iff]
    by_cases hpage : run.Has page
    · have hfirst := (h.of_conventional (hturns.was page hpage)).2
      exact iff_of_true (.inl hpage) ⟨hfirst, hturns.becomes page hpage⟩
    · rw [hturns.others page hpage, ← h.taken page]
      exact or_iff_right hpage
  changed page hne := by
    rw [List.exists_mem_cons_iff]
    by_cases hpage : run.Has page
    · exact .inl hpage
    · exact .inr (h.changed page (hturns.others page hpage ▸ hne))

/-- A run that is freed leaves the account. -/
theorem free (h : Account first now (run :: runs))
    (hturns : run.Turns .loaderData .conventional now now') : Account first now' runs where
  apart := (List.pairwise_cons.1 h.apart).2
  taken page := by
    have htaken := h.taken page
    rw [List.exists_mem_cons_iff] at htaken
    by_cases hpage : run.Has page
    · -- No other run has the page, and it is not the loader's any more.
      refine iff_of_false ?_ fun htypes => ?_
      · rintro ⟨other, hother, hpage'⟩
        exact (List.pairwise_cons.1 h.apart).1 other hother page hpage hpage'
      · exact absurd ((hturns.becomes page hpage).symm.trans htypes.2) (by decide)
    · rw [hturns.others page hpage, ← htaken]
      exact (or_iff_right hpage).symm
  changed page hne := by
    by_cases hpage : run.Has page
    · have hfirst := ((h.taken page).1 ⟨run, List.mem_cons_self, hpage⟩).1
      exact absurd ((hturns.becomes page hpage).trans hfirst.symm) hne
    · rw [hturns.others page hpage] at hne
      exact ((List.exists_mem_cons_iff ..).1 (h.changed page hne)).resolve_left hpage

end Account

/-! ### What boot services promise -/

/-- The pages that are asked for at a site may begin here. -/
def Site.Allows : Site → Nat → Prop
  | .anywhere, start => pageSize ∣ start
  | .fixed address, start => start = address

/-- The site is the address of a page. -/
def Site.Aligned (site : Site) : Prop := ∃ address, pageSize ∣ address ∧ site = .fixed address

variable {β : Type}

/-- What boot services promise about pages that are asked for at some sites.  `lent s runs` says
that these runs, each as often as it is listed, were allocated and can still be freed.  An
allocation may be refused for any reason. -/
structure Services.Lends (bs : Services β) (types : β → Nat → MemoryType)
    (lent : β → List PageRun → Prop) (sites : Site → Prop) : Prop where
  nothing : ∀ s, lent s []
  fewer : ∀ {s} {runs runs' : List PageRun}, lent s runs → runs'.Subperm runs → lent s runs'
  /-- Nothing is allocated at address zero. -/
  zero : ∀ {site count s start s'}, sites site →
    bs.allocatePages site .loaderData count s = (.ok start, s') → start ≠ 0
  /-- Pages are allocated where the site says, and only if all of them are unused. -/
  allocated : ∀ {site count s start s'}, sites site →
    bs.allocatePages site .loaderData count s = (.ok start, s') →
    site.Allows start ∧
      PageRun.Turns ⟨start, count⟩ .conventional .loaderData (types s) (types s') ∧
      ∀ runs, lent s runs → lent s' (⟨start, count⟩ :: runs)
  /-- A refusal has no effect. -/
  refused : ∀ {site count s status s'}, sites site →
    bs.allocatePages site .loaderData count s = (.error status, s') →
    types s' = types s ∧ ∀ runs, lent s runs → lent s' runs
  /-- Freeing undoes an allocation. -/
  freed : ∀ {run : PageRun} {s runs}, lent s runs → run ∈ runs →
    ∃ s', bs.free run.start run.count s = (.ok (), s') ∧
      run.Turns .loaderData .conventional (types s) (types s') ∧ lent s' (runs.erase run)

/-- Boot services that keep a type for every page and describe it, and allocate pages at their
addresses. -/
structure Services.Paged (bs : Services β) (types : β → Nat → MemoryType)
    (lent : β → List PageRun → Prop) : Prop extends bs.Lends types lent Site.Aligned where
  /-- The memory map has the types of now. -/
  map : ∀ {s map}, bs.memoryMap s = .ok map → ∀ d ∈ map, ∀ x, d.start ≤ x →
    x < d.start + d.pages * pageSize → types s (x / pageSize) = d.type

variable {bs : Services β} {types : β → Nat → MemoryType} {lent : β → List PageRun → Prop}
  {sites : Site → Prop} {s s' : β}

/-- A run that can be freed is freed, and what else can be freed still can. -/
theorem Services.Lends.freed_head (h : bs.Lends types lent sites) {run : PageRun} {s₁ : β}
    {outcome : Except Status Unit} (hlent : ∀ runs, lent s runs → lent s₁ (run :: runs))
    (hfree : bs.free run.start run.count s₁ = (outcome, s')) :
    run.Turns .loaderData .conventional (types s₁) (types s') ∧
      ∀ runs, lent s runs → lent s' runs := by
  have hfreed (runs : List PageRun) (hruns : lent s runs) :
      run.Turns .loaderData .conventional (types s₁) (types s') ∧ lent s' runs := by
    obtain ⟨_, hfree', hturns, hlent'⟩ := h.freed (hlent runs hruns) List.mem_cons_self
    cases hfree.symm.trans hfree'
    rw [List.erase_cons_head] at hlent'
    exact ⟨hturns, hlent'⟩
  exact ⟨(hfreed [] (h.nothing s)).1, fun runs hruns => (hfreed runs hruns).2⟩

end Staging.Boot
