import Mathlib.Data.Nat.Basic
import Staging.Proofs.Address
import Staging.Proofs.Code.Format

/-!
# Reading x86-64 stubs

A decoder that reads movers up to the jumper that ends the code (`program?`), and knows nothing but
the formats of the stubs.  Forward and backward movers begin with the same loads; the bytes behind
the operands tell them apart, and so how many bytes a stub has.  The last bytes of a backward mover
are turned back into its first ones.

What is read from stubs is what they were made for (`program?_eq_some`), so no two rows of stubs
have the same bytes (`program_inj`).
-/

namespace Staging

/-- The operands of a move are words. -/
structure Move.Encodable (m : Move) : Prop where
  source : m.source < Address.limit
  target : m.target < Address.limit
  size : m.size < Address.limit

namespace Code.X86

/-! ### The decoder -/

/-- The number that bytes hold, lowest byte first. -/
def value : List UInt8 → Nat
  | [] => 0
  | byte :: rest => byte.toNat + 256 * value rest

/-- Read bytes that are known; what is behind them. -/
def skip? (bytes input : List UInt8) : Option (List UInt8) :=
  if input.take bytes.length = bytes then some (input.drop bytes.length) else none

/-- Read the load of a word into a register; the word, and what is behind the load. -/
def load? (register : UInt8) (input : List UInt8) : Option (Nat × List UInt8) := do
  let rest ← skip? [0x48, register] input
  if rest.length < 8 then none else some (value (rest.take 8), rest.drop 8)

/-- Read a mover. -/
def mover? (input : List UInt8) : Option (Move × List UInt8) := do
  let (source, input) ← load? 0xbe input
  let (target, input) ← load? 0xbf input
  let (size, input) ← load? 0xb9 input
  match skip? [0xfc, 0xf3, 0xa4] input with
  | some rest => some (⟨source, target, size, .forward⟩, rest)
  | none =>
      let rest ← skip? [0xfd, 0xf3, 0xa4, 0xfc] input
      let firstSource ← Address.sub? source (size - 1)
      let firstTarget ← Address.sub? target (size - 1)
      some (⟨firstSource, firstTarget, size, .backward⟩, rest)

/-- Read a jumper. -/
def jumper? (input : List UInt8) : Option (Nat × List UInt8) := do
  let (entry, input) ← load? 0xb8 input
  let rest ← skip? [0xff, 0xe0] input
  some (entry, rest)

theorem length_of_skip? {bytes input rest : List UInt8} (h : skip? bytes input = some rest) :
    rest.length + bytes.length = input.length := by
  unfold skip? at h
  split at h
  case isTrue htake =>
    cases h
    have hle := congrArg List.length htake
    rw [List.length_take] at hle
    rw [List.length_drop]
    omega
  case isFalse => contradiction

theorem length_of_load? {register : UInt8} {input rest : List UInt8} {n : Nat}
    (h : load? register input = some (n, rest)) : rest.length + 10 = input.length := by
  obtain ⟨behind, hskip, h⟩ := Option.bind_eq_some_iff.1 h
  have hlength := length_of_skip? hskip
  split at h
  case isTrue => contradiction
  case isFalse hroom =>
    cases h
    simp only [List.length_cons, List.length_nil, List.length_drop] at hlength ⊢
    omega

/-- A mover has bytes. -/
theorem length_of_mover? {input rest : List UInt8} {m : Move} (h : mover? input = some (m, rest)) :
    rest.length < input.length := by
  obtain ⟨⟨source, input₁⟩, hsource, h⟩ := Option.bind_eq_some_iff.1 h
  obtain ⟨⟨target, input₂⟩, htarget, h⟩ := Option.bind_eq_some_iff.1 h
  obtain ⟨⟨size, input₃⟩, hsize, h⟩ := Option.bind_eq_some_iff.1 h
  have hlength := length_of_load? hsource
  have hlength' := length_of_load? htarget
  have hlength'' := length_of_load? hsize
  dsimp only at h
  split at h
  case h_1 rest' hskip =>
    cases h
    have := length_of_skip? hskip
    omega
  case h_2 =>
    obtain ⟨rest', hskip, h⟩ := Option.bind_eq_some_iff.1 h
    obtain ⟨_, -, h⟩ := Option.bind_eq_some_iff.1 h
    obtain ⟨_, -, h⟩ := Option.bind_eq_some_iff.1 h
    cases h
    have := length_of_skip? hskip
    omega

/-- Read movers up to a jumper with nothing behind it. -/
def program? (input : List UInt8) : Option (List Move × Nat) :=
  match jumper? input with
  | some (entry, rest) => if rest = [] then some ([], entry) else none
  | none =>
      match _h : mover? input with
      | none => none
      | some (m, rest) => (program? rest).map fun (moves, entry) => (m :: moves, entry)
termination_by input.length
decreasing_by exact length_of_mover? _h

/-! ### Words -/

theorem value_map_range (k n : Nat) :
    value ((List.range k).map fun i => UInt8.ofNat (n >>> (8 * i))) = n % 256 ^ k := by
  induction k generalizing n with
  | zero => simp [value, Nat.mod_one]
  | succ k ih =>
      have hshift (i : Nat) : n >>> (8 * (i + 1)) = (n / 256) >>> (8 * i) := by
        rw [Nat.mul_succ, Nat.add_comm, Nat.shiftRight_add, Nat.shiftRight_eq_div_pow n 8]
      have hbehind : (List.range k).map (fun i => UInt8.ofNat (n >>> (8 * (i + 1)))) =
          (List.range k).map fun i => UInt8.ofNat ((n / 256) >>> (8 * i)) :=
        List.map_congr_left fun i _ => by rw [hshift]
      rw [List.range_succ_eq_map, List.map_cons, List.map_map, value]
      refine (congrArg _ (congrArg (256 * value ·) hbehind)).trans ?_
      rw [ih, Nat.pow_succ', Nat.mod_mul]
      simp

/-- The bytes of a word hold that word. -/
theorem value_word {n : Nat} (h : n < Address.limit) : value (word n) = n := by
  rw [word, value_map_range]
  exact Nat.mod_eq_of_lt h

/-! ### Stubs -/

theorem skip?_append (bytes rest : List UInt8) : skip? bytes (bytes ++ rest) = some rest := by
  simp [skip?]

/-- Known bytes of the same length that differ are not read. -/
theorem skip?_of_ne {bytes bytes' : List UInt8} (h : bytes ≠ bytes')
    (hlength : bytes.length = bytes'.length) (rest : List UInt8) :
    skip? bytes (bytes' ++ rest) = none := by
  have htake : (bytes' ++ rest).take bytes.length = bytes' := by
    rw [hlength, List.take_left]
  exact if_neg fun heq => h (htake ▸ heq).symm

theorem load?_append {n : Nat} (h : n < Address.limit) (register : UInt8) (rest : List UInt8) :
    load? register (load register n ++ rest) = some (n, rest) := by
  have hbytes : load register n ++ rest = [0x48, register] ++ (word n ++ rest) := rfl
  have hroom : ¬ (word n ++ rest).length < 8 := by
    rw [List.length_append, length_word]
    omega
  have htake : (word n ++ rest).take 8 = word n := List.take_left' (length_word n)
  have hdrop : (word n ++ rest).drop 8 = rest := List.drop_left' (length_word n)
  unfold load?
  rw [hbytes, skip?_append, Option.bind_eq_bind, Option.bind_some, if_neg hroom, htake, hdrop,
    value_word h]

/-- Another register is not read. -/
theorem load?_of_ne {register register' : UInt8} (h : register ≠ register') (n : Nat)
    (rest : List UInt8) : load? register (load register' n ++ rest) = none := by
  have hbytes : load register' n ++ rest = [0x48, register'] ++ (word n ++ rest) := rfl
  have hne : [0x48, register] ≠ [0x48, register'] := by simpa using h
  unfold load?
  rw [hbytes, skip?_of_ne hne rfl]
  rfl

/-- **A jumper is read** as its entry point. -/
theorem jumper?_append {entry : Nat} (h : entry < Address.limit) (rest : List UInt8) :
    jumper? (jumper entry ++ rest) = some (entry, rest) := by
  unfold jumper?
  rw [jumper, List.append_assoc, load?_append h, Option.bind_eq_bind, Option.bind_some]
  dsimp only
  rw [skip?_append, Option.bind_eq_bind, Option.bind_some]

/-- **A mover is read** as its move, whichever direction it has. -/
theorem mover?_append {m : Move} (h : m.Encodable) {stub : List UInt8} (hstub : mover m = .ok stub)
    (rest : List UInt8) : mover? (stub ++ rest) = some (m, rest) := by
  obtain ⟨source, target, size, direction⟩ := m
  rcases mover_eq_ok hstub with ⟨rfl, rfl⟩ | ⟨rfl, hsource, htarget, rfl⟩
  · unfold mover?
    simp only [forward, operands, List.append_assoc, load?_append h.source, load?_append h.target,
      load?_append h.size, Option.bind_eq_bind, Option.bind_some, skip?_append]
  · have hnot : skip? [0xfc, 0xf3, 0xa4] ([0xfd, 0xf3, 0xa4, 0xfc] ++ rest) = none :=
      if_neg (by simp)
    have hfirst (address : Nat) :
        Address.sub? (address + (size - 1)) (size - 1) = some address :=
      Address.sub?_eq_some_iff.2 ⟨Nat.le_add_left _ _, (Nat.add_sub_cancel _ _).symm⟩
    unfold mover?
    simp only [backward, operands, List.append_assoc, load?_append hsource, load?_append htarget,
      load?_append h.size, Option.bind_eq_bind, Option.bind_some, hnot, skip?_append, hfirst]

/-- A mover does not begin like a jumper. -/
theorem jumper?_of_mover {m : Move} {stub : List UInt8} (hstub : mover m = .ok stub)
    (rest : List UInt8) : jumper? (stub ++ rest) = none := by
  have hload (n : Nat) (behind : List UInt8) : jumper? (load 0xbe n ++ behind) = none := by
    unfold jumper?
    rw [load?_of_ne (by decide)]
    rfl
  rcases mover_eq_ok hstub with ⟨-, rfl⟩ | ⟨-, -, -, rfl⟩
  · simp only [forward, operands, List.append_assoc, hload]
  · simp only [backward, operands, List.append_assoc, hload]

/-! ### Rows of stubs -/

/-- The bytes of movers in their order, and of a jumper behind them. -/
def program : List Move → Nat → Except Error (List UInt8)
  | [], entry => .ok (jumper entry)
  | m :: rest, entry => do
      let stub ← mover m
      let behind ← program rest entry
      return stub ++ behind

theorem program_cons_eq_ok {m : Move} {rest : List Move} {entry : Nat} {bytes : List UInt8}
    (h : program (m :: rest) entry = .ok bytes) :
    ∃ stub behind, mover m = .ok stub ∧ program rest entry = .ok behind ∧
      bytes = stub ++ behind := by
  cases hstub : mover m with
  | error cause =>
      rw [program, hstub] at h
      cases h
  | ok stub =>
      cases hbehind : program rest entry with
      | error cause =>
          rw [program, hstub, hbehind] at h
          cases h
      | ok behind =>
          rw [program, hstub, hbehind] at h
          cases h
          exact ⟨stub, behind, rfl, rfl, rfl⟩

/-- **What is read** is what the stubs were made for. -/
theorem program?_eq_some {moves : List Move} {entry : Nat} {bytes : List UInt8}
    (hmoves : ∀ m ∈ moves, m.Encodable) (hentry : entry < Address.limit)
    (h : program moves entry = .ok bytes) : program? bytes = some (moves, entry) := by
  induction moves generalizing bytes with
  | nil =>
      cases h
      have hjumper := jumper?_append hentry []
      rw [List.append_nil] at hjumper
      rw [program?, hjumper]
      rfl
  | cons m rest ih =>
      obtain ⟨hm, hrest⟩ := List.forall_mem_cons.1 hmoves
      obtain ⟨stub, behind, hstub, hbehind, rfl⟩ := program_cons_eq_ok h
      have hread := mover?_append hm hstub behind
      rw [program?, jumper?_of_mover hstub]
      dsimp only
      split
      case h_1 hnone => cases hnone.symm.trans hread
      case h_2 m' rest' hsome =>
        cases hsome.symm.trans hread
        rw [ih hrest hbehind]
        rfl

/-- **No two rows of stubs have the same bytes.** -/
theorem program_inj {moves moves' : List Move} {entry entry' : Nat} {bytes : List UInt8}
    (hmoves : ∀ m ∈ moves, m.Encodable) (hentry : entry < Address.limit)
    (hmoves' : ∀ m ∈ moves', m.Encodable) (hentry' : entry' < Address.limit)
    (h : program moves entry = .ok bytes) (h' : program moves' entry' = .ok bytes) :
    moves' = moves ∧ entry' = entry := by
  have hread := (program?_eq_some hmoves' hentry' h').symm.trans (program?_eq_some hmoves hentry h)
  exact Prod.mk.inj (Option.some.inj hread)

end Code.X86

end Staging
