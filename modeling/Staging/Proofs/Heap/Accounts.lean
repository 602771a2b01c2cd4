import Staging.Loan
import Staging.Proofs.Heap.Lending

/-!
# Accounts of regions

What loans took from a region is written down in an account (`Region.Account`).  The pieces lent
out of the body joined the allocated extents, and the moves of the header follow each other from
the first base and head to the present ones.  Loans are listed newest first.

* `Account.append`: accounts follow each other.
* `Account.mem_extent_iff`: a region consists of what its header left behind and what it still
  owns.
* `Account.freeBytes`: the free bytes went down by what the loans cost.
-/

namespace Staging

namespace Loan

/-- The piece that a region lent out of its body. -/
def body? (id : RegionId) (loan : Loan) : Option Extent :=
  match loan.lender with
  | .regionBody region => if region = id then some loan.extent else none
  | _ => none

/-- The move that a region lent a piece by. -/
def move? (id : RegionId) (loan : Loan) : Option HeaderMove :=
  match loan.lender with
  | .regionHead region move => if region = id then some move else none
  | _ => none

/-- The block that the firmware lent. -/
def block? (loan : Loan) : Option Extent :=
  match loan.lender with
  | .firmware => some loan.extent
  | _ => none

/-- The region that lent a piece. -/
def region? (loan : Loan) : Option RegionId :=
  match loan.lender with
  | .regionBody region => some region
  | .regionHead region _ => some region
  | .firmware => none

/-- Number of free bytes that a region lost by the loan. -/
def cost (loan : Loan) : Nat :=
  match loan.lender with
  | .regionBody _ => loan.extent.length
  | .regionHead _ move => move.newHead - move.oldHead
  | .firmware => 0

theorem body?_eq_some_iff {id : RegionId} {loan : Loan} {e : Extent} :
    loan.body? id = some e ↔ loan.lender = .regionBody id ∧ loan.extent = e := by
  obtain ⟨lender, extent⟩ := loan
  cases lender <;> simp [body?]

theorem move?_eq_some_iff {id : RegionId} {loan : Loan} {m : HeaderMove} :
    loan.move? id = some m ↔ loan.lender = .regionHead id m := by
  obtain ⟨lender, extent⟩ := loan
  cases lender <;> simp [move?]

theorem block?_eq_some_iff {loan : Loan} {e : Extent} :
    loan.block? = some e ↔ loan.lender = .firmware ∧ loan.extent = e := by
  obtain ⟨lender, extent⟩ := loan
  cases lender <;> simp [block?]

theorem region?_eq_some_iff {id : RegionId} {loan : Loan} :
    loan.region? = some id ↔
      loan.lender = .regionBody id ∨ ∃ m, loan.lender = .regionHead id m := by
  obtain ⟨lender, extent⟩ := loan
  cases lender <;> simp [region?]

theorem region?_eq_none_iff {loan : Loan} : loan.region? = none ↔ loan.lender = .firmware := by
  obtain ⟨lender, extent⟩ := loan
  cases lender <;> simp [region?]

/-- A loan of another region is no entry of the account. -/
theorem no_entry {id : RegionId} {loan : Loan} (h : loan.region? ≠ some id) :
    loan.body? id = none ∧ loan.move? id = none := by
  obtain ⟨lender, extent⟩ := loan
  cases lender <;> simp_all [region?, body?, move?]

theorem claimed_of_regionBody {loan : Loan} {id : RegionId} (h : loan.lender = .regionBody id) :
    loan.claimed = loan.extent := by
  simp [claimed, h]

theorem claimed_of_firmware {loan : Loan} (h : loan.lender = .firmware) :
    loan.claimed = loan.extent := by
  simp [claimed, h]

theorem claimed_of_regionHead {loan : Loan} {id : RegionId} {m : HeaderMove}
    (h : loan.lender = .regionHead id m) (hle : m.oldBase ≤ m.newBase)
    (hlt : m.newBase < Address.limit) :
    loan.claimed.start = m.oldBase ∧ loan.claimed.stop = m.newBase := by
  simp only [claimed, h, Extent.ofBounds?_of_le hle hlt]
  exact ⟨rfl, rfl⟩

end Loan

namespace HeaderMove

/-- Moves, oldest first, that lead a header from one base and head to others. -/
def Chain (base head : Nat) : List HeaderMove → Nat → Nat → Prop
  | [], base', head' => base = base' ∧ head = head'
  | m :: rest, base', head' =>
      m.oldBase = base ∧ m.oldHead = head ∧ m.oldBase < m.newBase ∧ m.oldHead ≤ m.newHead ∧
        Chain m.newBase m.newHead rest base' head'

@[simp] theorem chain_nil {base head base' head' : Nat} :
    Chain base head [] base' head' ↔ base = base' ∧ head = head' := Iff.rfl

@[simp] theorem chain_singleton {m : HeaderMove} {base head base' head' : Nat} :
    Chain base head [m] base' head' ↔
      m.oldBase = base ∧ m.oldHead = head ∧ m.oldBase < m.newBase ∧ m.oldHead ≤ m.newHead ∧
        m.newBase = base' ∧ m.newHead = head' := Iff.rfl

theorem chain_append {a b : List HeaderMove} {base head base' head' : Nat} :
    Chain base head (a ++ b) base' head' ↔
      ∃ mid mid', Chain base head a mid mid' ∧ Chain mid mid' b base' head' := by
  induction a generalizing base head with
  | nil => simp [Chain]
  | cons m rest ih =>
      simp only [List.cons_append, Chain, ih]
      constructor
      · rintro ⟨hbase, hhead, hlt, hle, mid, mid', ha, hb⟩
        exact ⟨mid, mid', ⟨hbase, hhead, hlt, hle, ha⟩, hb⟩
      · rintro ⟨mid, mid', ⟨hbase, hhead, hlt, hle, ha⟩, hb⟩
        exact ⟨hbase, hhead, hlt, hle, mid, mid', ha, hb⟩

namespace Chain

variable {moves : List HeaderMove} {base head base' head' : Nat}

theorem le (h : Chain base head moves base' head') : base ≤ base' ∧ head ≤ head' := by
  induction moves generalizing base head with
  | nil => exact ⟨Nat.le_of_eq h.1, Nat.le_of_eq h.2⟩
  | cons m rest ih =>
      obtain ⟨hbase, hhead, hlt, hle, hrest⟩ := h
      have := ih hrest
      omega

/-- Every move stays between the ends of its chain. -/
theorem bounds (h : Chain base head moves base' head') :
    ∀ m ∈ moves, base ≤ m.oldBase ∧ m.oldBase < m.newBase ∧ m.newBase ≤ base' := by
  induction moves generalizing base head with
  | nil => simp
  | cons m rest ih =>
      obtain ⟨hbase, hhead, hlt, -, hrest⟩ := h
      have hle := hrest.le
      intro m' hm
      rcases List.mem_cons.1 hm with rfl | hm
      · omega
      · have := ih hrest m' hm
        omega

/-- Later moves begin where earlier ones have ended, or above. -/
theorem pairwise (h : Chain base head moves base' head') :
    moves.Pairwise fun a b => a.newBase ≤ b.oldBase := by
  induction moves generalizing base head with
  | nil => exact .nil
  | cons m rest ih =>
      obtain ⟨-, -, -, -, hrest⟩ := h
      exact .cons (fun m' hm => (hrest.bounds m' hm).1) (ih hrest)

/-- The moves of a chain pass over every byte between its ends. -/
theorem exists_move_iff (h : Chain base head moves base' head') (x : Nat) :
    (∃ m ∈ moves, m.oldBase ≤ x ∧ x < m.newBase) ↔ base ≤ x ∧ x < base' := by
  induction moves generalizing base head with
  | nil =>
      have := h.1
      simp only [List.not_mem_nil, false_and, exists_false, false_iff]
      omega
  | cons m rest ih =>
      obtain ⟨rfl, -, hlt, -, hrest⟩ := h
      have hle := hrest.le
      simp only [List.mem_cons, exists_eq_or_imp, ih hrest]
      omega

end Chain

end HeaderMove

namespace Region

open Staging.Span (used)

/-- What loans, newest first, took from one region so that another is left of it. -/
structure Account (loans : List Loan) (r₀ r : Region) : Prop where
  replaces : r.Replaces r₀
  used : (used r.spans).Perm (loans.filterMap (·.body? r₀.id) ++ used r₀.spans)
  chain : HeaderMove.Chain r₀.base r₀.head (loans.reverse.filterMap (·.move? r₀.id)) r.base r.head

namespace Account

variable {loans : List Loan} {r₀ r : Region}

theorem refl (h : r.Valid) : Account [] r r := ⟨h.replaces, .refl _, rfl, rfl⟩

/-- Accounts follow each other. -/
theorem append {later : List Loan} {r' : Region} (h : Account loans r₀ r)
    (h' : Account later r r') : Account (later ++ loans) r₀ r' where
  replaces := h'.replaces.trans h.replaces
  used := by
    have hlater := h'.used
    rw [h.replaces.id] at hlater
    rw [List.filterMap_append, List.append_assoc]
    exact hlater.trans (h.used.append_left _)
  chain := by
    have hlater := h'.chain
    rw [h.replaces.id] at hlater
    rw [List.reverse_append, List.filterMap_append]
    exact HeaderMove.chain_append.2 ⟨_, _, h.chain, hlater⟩

/-- A loan of another region takes nothing. -/
theorem other {loan : Loan} (h : Account loans r₀ r) (hloan : loan.region? ≠ some r₀.id) :
    Account (loan :: loans) r₀ r where
  replaces := h.replaces
  used := by
    rw [List.filterMap_cons_none (Loan.no_entry hloan).1]
    exact h.used
  chain := by
    rw [List.reverse_cons, List.filterMap_append,
      List.filterMap_cons_none (Loan.no_entry hloan).2, List.filterMap_nil, List.append_nil]
    exact h.chain

section Entries
variable (h : Account loans r₀ r) {loan : Loan} (hloan : loan ∈ loans)
include h hloan

/-- A piece lent out of the body is allocated. -/
theorem mem_used (hbody : loan.lender = .regionBody r₀.id) : loan.extent ∈ Span.used r.spans :=
  h.used.mem_iff.2 <| List.mem_append_left _ <|
    List.mem_filterMap.2 ⟨loan, hloan, Loan.body?_eq_some_iff.2 ⟨hbody, rfl⟩⟩

/-- All that a header left behind lies below the present base. -/
theorem claimed_bounds {m : HeaderMove} (hhead : loan.lender = .regionHead r₀.id m) :
    loan.claimed.start = m.oldBase ∧ loan.claimed.stop = m.newBase ∧
      r₀.base ≤ m.oldBase ∧ m.oldBase < m.newBase ∧ m.newBase ≤ r.base := by
  have hmem : m ∈ loans.reverse.filterMap (·.move? r₀.id) :=
    List.mem_filterMap.2 ⟨loan, List.mem_reverse.2 hloan, Loan.move?_eq_some_iff.2 hhead⟩
  have hbounds := h.chain.bounds m hmem
  have hregion := h.replaces.valid.bounds
  have hclaim := Loan.claimed_of_regionHead hhead (by omega) (by omega)
  exact ⟨hclaim.1, hclaim.2, hbounds⟩

/-- A piece lent out of the body was lent from behind the header. -/
theorem base_le_extent (hbody : loan.lender = .regionBody r₀.id) :
    r.base ≤ loan.extent.start ∧ loan.extent.stop ≤ r.stop := by
  have := h.replaces.valid.used_bounds (h.mem_used hloan hbody)
  have := h.replaces.valid.bounds
  omega

/-- What a region lent is inside the region as it was. -/
theorem claimed_inside (hregion : loan.region? = some r₀.id) :
    r₀.base ≤ loan.claimed.start ∧ loan.claimed.stop ≤ r₀.stop := by
  have hbounds := h.replaces.valid.bounds
  have hbase := h.replaces.base
  have hstop := h.replaces.stop
  rcases Loan.region?_eq_some_iff.1 hregion with hbody | ⟨m, hhead⟩
  · have := h.base_le_extent hloan hbody
    rw [Loan.claimed_of_regionBody hbody]
    omega
  · obtain ⟨hlo, hhi, hclaim⟩ := h.claimed_bounds hloan hhead
    omega

end Entries

/-- The pieces lent out of the body are apart, from each other and from what was allocated
before. -/
theorem pieces_apart (h : Account loans r₀ r) :
    (loans.filterMap (·.body? r₀.id) ++ Span.used r₀.spans).Pairwise Extent.Apart := by
  have hpairwise := h.replaces.valid.tile.used_pairwise.imp fun {_ _} hle => Extent.Apart.of_le hle
  exact (h.used.pairwise_iff fun hab => Extent.Apart.symm hab).1 hpairwise

/-- **The newest loan** took nothing that an earlier loan of its region took. -/
theorem claimed_apart {loan other : Loan} (h : Account (loan :: loans) r₀ r)
    (hother : other ∈ loans) (hregion : loan.region? = some r₀.id)
    (hregion' : other.region? = some r₀.id) : loan.claimed.Apart other.claimed := by
  have hmem : loan ∈ loan :: loans := List.mem_cons_self
  have hmem' : other ∈ loan :: loans := List.mem_cons_of_mem _ hother
  rcases Loan.region?_eq_some_iff.1 hregion with hbody | ⟨m, hhead⟩ <;>
    rcases Loan.region?_eq_some_iff.1 hregion' with hbody' | ⟨m', hhead'⟩
  -- Pieces of the body are apart; what the header left behind is below all that is left.
  · have hpieces := h.pieces_apart
    rw [List.filterMap_cons_some (Loan.body?_eq_some_iff.2 ⟨hbody, rfl⟩),
      List.cons_append] at hpieces
    rw [Loan.claimed_of_regionBody hbody, Loan.claimed_of_regionBody hbody']
    refine (List.pairwise_cons.1 hpieces).1 _ (List.mem_append_left _ ?_)
    exact List.mem_filterMap.2 ⟨other, hother, Loan.body?_eq_some_iff.2 ⟨hbody', rfl⟩⟩
  · have hlo := (h.base_le_extent hmem hbody).1
    obtain ⟨-, hhi, -, -, hle⟩ := h.claimed_bounds hmem' hhead'
    rw [Loan.claimed_of_regionBody hbody]
    exact .inr (by omega)
  · have hlo := (h.base_le_extent hmem' hbody').1
    obtain ⟨-, hhi, -, -, hle⟩ := h.claimed_bounds hmem hhead
    rw [Loan.claimed_of_regionBody hbody']
    exact .inl (by omega)
  · have hchain := h.chain.pairwise
    rw [List.reverse_cons, List.filterMap_append, List.pairwise_append] at hchain
    have hle : m'.newBase ≤ m.oldBase := by
      refine hchain.2.2 m' ?_ m ?_
      · exact List.mem_filterMap.2
          ⟨other, List.mem_reverse.2 hother, Loan.move?_eq_some_iff.2 hhead'⟩
      · simp [Loan.move?_eq_some_iff.2 hhead]
    obtain ⟨hlo, -⟩ := h.claimed_bounds hmem hhead
    obtain ⟨-, hhi, -⟩ := h.claimed_bounds hmem' hhead'
    exact .inr (by omega)

/-- **A region consists** of all that its header left behind and of what it still owns. -/
theorem mem_extent_iff (h : Account loans r₀ r) (h₀ : r₀.Valid) (x : Nat) :
    x ∈ r₀.extent ↔
      (∃ loan ∈ loans, (∃ m, loan.lender = .regionHead r₀.id m) ∧ x ∈ loan.claimed) ∨
        x ∈ r.extent := by
  have hcovered := h.chain.exists_move_iff x
  have hle := h.replaces.base
  have hbounds := h.replaces.valid.bounds
  have hclaims : (∃ loan ∈ loans, (∃ m, loan.lender = .regionHead r₀.id m) ∧ x ∈ loan.claimed) ↔
      r₀.base ≤ x ∧ x < r.base := by
    rw [← hcovered]
    constructor
    · rintro ⟨loan, hloan, ⟨m, hhead⟩, hx⟩
      obtain ⟨hlo, hhi, -⟩ := h.claimed_bounds hloan hhead
      rw [Extent.mem_iff, hlo, hhi] at hx
      have hmem := List.mem_reverse.2 hloan
      exact ⟨m, List.mem_filterMap.2 ⟨loan, hmem, Loan.move?_eq_some_iff.2 hhead⟩, hx⟩
    · rintro ⟨m, hm, hx⟩
      obtain ⟨loan, hloan, hmove⟩ := List.mem_filterMap.1 hm
      have hhead := Loan.move?_eq_some_iff.1 hmove
      have hmem := List.mem_reverse.1 hloan
      obtain ⟨hlo, hhi, -⟩ := h.claimed_bounds hmem hhead
      refine ⟨loan, hmem, ⟨m, hhead⟩, ?_⟩
      rwa [Extent.mem_iff, hlo, hhi]
  obtain ⟨hlo, hhi⟩ := h₀.extent_bounds
  obtain ⟨hlo', hhi'⟩ := h.replaces.valid.extent_bounds
  have hstop := h.replaces.stop
  rw [hclaims, Extent.mem_iff, Extent.mem_iff, hlo, hhi, hlo', hhi', hstop]
  omega

/-- The free bytes of a region went down by what was lent out of its body and what its header
passed over. -/
theorem freeBytes (h : Account loans r₀ r) (h₀ : r₀.Valid) :
    r.freeBytes + Extent.total (loans.filterMap (·.body? r₀.id)) + (r.head - r₀.head) =
      r₀.freeBytes := by
  have hsum := h.replaces.valid.tile.freeBytes_add
  have hsum₀ := h₀.tile.freeBytes_add
  have hused := Extent.total_perm h.used
  have hle := h.chain.le.2
  have hstop := h.replaces.stop
  rw [Extent.total_append] at hused
  simp only [Region.freeBytes, bodyBase] at hsum hsum₀ ⊢
  omega

end Account

end Region

end Staging
