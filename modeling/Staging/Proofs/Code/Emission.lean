import Staging.Code.Emission
import Staging.Proofs.Code.Moves

/-!
# The movers of an emission

An emission that succeeds has called the generator for one mover for each chunk that moves, in the
order of the chunks (`Emission.moves_run`).  However an emission ends, its buffer has the length
that it had, its stubs stay inside of it (`Emission.within_run`), and it does not trap
(`Emission.run_ne_trap`). -/

namespace Staging

/-- The move of a chunk; none if it is in place. -/
def Chunk.move? (c : Chunk) : Option Move :=
  c.direction.map fun direction => ⟨c.source.start, c.target.start, c.size, direction⟩

/-- The move of a chunk fits its source and its target. -/
theorem Chunk.fits_of_move? {c : Chunk} {m : Move} (h : c.move? = some m) : m.Fits := by
  obtain ⟨direction, hdirection, rfl⟩ := Option.map_eq_some_iff.1 h
  unfold Chunk.direction CopyDirection.between at hdirection
  split at hdirection
  case isTrue hlt =>
    cases hdirection
    exact Nat.le_of_lt hlt
  case isFalse =>
    split at hdirection
    case isTrue hlt =>
      cases hdirection
      exact Nat.le_of_lt hlt
    case isFalse => contradiction

/-- A chunk without a move is in place. -/
theorem Chunk.start_eq_of_move? {c : Chunk} (h : c.move? = none) :
    c.source.start = c.target.start := by
  have hdirection : c.direction = none := by simpa [Chunk.move?] using h
  unfold Chunk.direction CopyDirection.between at hdirection
  grind

namespace Code

/-- The move that a call emits a mover for. -/
def Call.move? : Call → Option Move
  | mover m _ => some m
  | _ => none

/-- The movers among calls, in their order. -/
def movesOf (calls : List Call) : List Move := calls.filterMap (·.move?)

theorem movesOf_concat (calls : List Call) (call : Call) :
    movesOf (calls ++ [call]) = movesOf calls ++ call.move?.toList := by
  unfold movesOf
  rw [List.filterMap_append]
  cases hmove : call.move? <;> simp [hmove]

namespace Emission

variable {γ α β : Type} {gen : Generator γ} {s s' : Emission γ}

theorem bind_eq_ok_iff {x : Action γ α} {f : α → Action γ β} {b : β} :
    (x >>= f) s = .ok b s' ↔ ∃ a s₁, x s = .ok a s₁ ∧ f a s₁ = .ok b s' := by
  simp only [bind, EStateM.bind]
  cases x s <;> simp

theorem eq_of_check {outcome : Except Error Unit} {a : Unit} (h : check outcome s = .ok a s') :
    s' = s := by
  cases outcome with
  | ok =>
      cases h
      rfl
  | error => cases h

theorem eq_of_orTrap {x : Except Trap α} {a : α} (h : orTrap x s = .ok a s') :
    x = .ok a ∧ s' = s := by
  cases x with
  | ok =>
      cases h
      exact ⟨rfl, rfl⟩
  | error => cases h

/-- A stub that is emitted makes one call. -/
theorem moves_stub {size : Nat} (call : Nat → Call) {emit : List UInt8 → γ → Emitted γ}
    (move : Option Move) (hcall : ∀ room, (call room).move? = move)
    (h : stub size call emit s = .ok () s') :
    movesOf s'.calls = movesOf s.calls ++ move.toList := by
  obtain ⟨s₁, _, hget, h⟩ := bind_eq_ok_iff.1 h
  cases hget
  dsimp only at h
  split at h
  case isTrue => cases h
  case isFalse =>
    obtain ⟨rest, s₁, htail, h⟩ := bind_eq_ok_iff.1 h
    obtain ⟨-, rfl⟩ := eq_of_orTrap htail
    obtain ⟨_, s₂, hset, h⟩ := bind_eq_ok_iff.1 h
    cases hset
    obtain ⟨_, s₃, hcheck, h⟩ := bind_eq_ok_iff.1 h
    cases eq_of_check hcheck
    obtain ⟨offset, s₄, hadd, h⟩ := bind_eq_ok_iff.1 h
    obtain ⟨-, rfl⟩ := eq_of_orTrap hadd
    cases h
    rw [movesOf_concat, hcall]

theorem moves_mover {m : Move} (h : mover gen m s = .ok () s') :
    movesOf s'.calls = movesOf s.calls ++ [m] :=
  moves_stub (.mover m) (some m) (fun _ => rfl) h

theorem moves_jumper {entry : Nat} (h : jumper gen entry s = .ok () s') :
    movesOf s'.calls = movesOf s.calls := by
  rw [moves_stub (.jumper entry) none (fun _ => rfl) h]
  exact List.append_nil _

/-- Synchronizing memory moves nothing. -/
theorem moves_sync {address size : Nat} (h : sync gen address size s = .ok () s') :
    movesOf s'.calls = movesOf s.calls := by
  obtain ⟨s₁, _, hget, h⟩ := bind_eq_ok_iff.1 h
  cases hget
  obtain ⟨_, s₂, hset, hcheck⟩ := bind_eq_ok_iff.1 h
  cases hset
  cases eq_of_check hcheck
  exact (movesOf_concat _ _).trans (List.append_nil _)

/-- A chunk has one mover, unless it is in place. -/
theorem moves_chunk {c : Chunk} (h : chunk gen c s = .ok () s') :
    movesOf s'.calls = movesOf s.calls ++ c.move?.toList := by
  obtain ⟨_, s₁, hnote, h⟩ := bind_eq_ok_iff.1 h
  cases hnote
  cases hdirection : c.direction with
  | none =>
      simp only [hdirection] at h
      simpa [Chunk.move?, hdirection] using moves_sync h
  | some direction =>
      simp only [hdirection] at h
      simpa only [Chunk.move?, hdirection, Option.map_some, Option.toList_some] using moves_mover h

/-- Chunks have their movers in their order. -/
theorem moves_forM {chunks : List Chunk} (h : chunks.forM (chunk gen) s = .ok () s') :
    movesOf s'.calls = movesOf s.calls ++ chunks.filterMap (·.move?) := by
  induction chunks generalizing s with
  | nil =>
      cases h
      exact (List.append_nil _).symm
  | cons c rest ih =>
      obtain ⟨_, s₁, hchunk, hrest⟩ := bind_eq_ok_iff.1 h
      rw [ih hrest, moves_chunk hchunk, List.append_assoc]
      cases hmove : c.move? <;> simp [hmove]

/-- **An emission that succeeds** has one mover for each chunk that is not in place. -/
theorem moves_run {chunks : List Chunk} {entry : Nat} {place : Extent} {buffer : List UInt8}
    {state : γ} {emission : Emission γ}
    (h : run gen chunks entry place buffer state = (.ok (), emission)) :
    movesOf emission.calls = chunks.filterMap (·.move?) := by
  unfold run at h
  split at h
  case h_1 s hcode =>
    cases h
    obtain ⟨_, s₁, hchunks, hcode⟩ := bind_eq_ok_iff.1 hcode
    obtain ⟨_, s₂, hjumper, hcode⟩ := bind_eq_ok_iff.1 hcode
    obtain ⟨_, s₃, hsync, hnote⟩ := bind_eq_ok_iff.1 hcode
    cases hnote
    calc movesOf s₃.calls = movesOf s₂.calls := moves_sync hsync
      _ = movesOf s₁.calls := moves_jumper hjumper
      _ = chunks.filterMap (·.move?) := moves_forM hchunks
  case h_2 => cases h

/-! ### The buffer -/

/-- The buffer has `n` bytes, and the stubs so far are inside of it. -/
structure Within (n : Nat) (s : Emission γ) : Prop where
  length : s.buffer.length = n
  offset : s.offset ≤ n

/-- The action stays within a buffer of `n` bytes, and ends with a value or an error. -/
def Stays (n : Nat) (x : Action γ α) (s : Emission γ) : Prop :=
  match x s with
  | .ok _ s' => Within n s'
  | .error (.error _) s' => Within n s'
  | .error (.trap _) _ => False

variable {n : Nat}

theorem stays_bind_of_ok {x : Action γ α} {f : α → Action γ β} {a : α} (h : x s = .ok a s') :
    Stays n (x >>= f) s ↔ Stays n (f a) s' := by
  simp only [Stays, bind, EStateM.bind, h]

theorem Stays.bind {x : Action γ α} {f : α → Action γ β} (hx : Stays n x s)
    (hf : ∀ a s', Within n s' → Stays n (f a) s') : Stays n (x >>= f) s := by
  unfold Stays at hx
  cases hend : x s with
  | ok a s' =>
      rw [hend] at hx
      exact (stays_bind_of_ok hend).2 (hf a s' hx)
  | error cause s' =>
      rw [hend] at hx
      cases cause with
      | error => simpa only [Stays, Bind.bind, EStateM.bind, hend] using hx
      | trap => exact hx.elim

theorem stays_check (outcome : Except Error Unit) (h : Within n s) :
    Stays n (check outcome) s := by
  cases outcome <;> exact h

/-- A stub is emitted where there is room for it, and leaves the length of the buffer alone. -/
theorem stays_stub (hn : n < Address.limit) {size : Nat} {call : Nat → Call}
    {emit : List UInt8 → γ → Emitted γ}
    (hemit : ∀ buffer state, (emit buffer state).buffer.length = buffer.length)
    (h : Within n s) : Stays n (stub size call emit) s := by
  obtain ⟨hlength, hoffset⟩ := h
  have hrest : (s.buffer.drop s.offset).length = n - s.offset := by
    rw [List.length_drop, hlength]
  have hbuffer : (s.buffer.take s.offset ++
      (emit (s.buffer.drop s.offset) s.state).buffer).length = n := by
    rw [List.length_append, List.length_take, hemit, hrest]
    omega
  unfold stub
  refine (stays_bind_of_ok rfl).2 ?_
  dsimp only
  split
  case isTrue => exact ⟨hlength, hoffset⟩
  case isFalse hroom =>
    rw [Index.tail_eq_ok (hlength ▸ hoffset)]
    refine (stays_bind_of_ok rfl).2 ((stays_bind_of_ok rfl).2 ?_)
    cases (emit (s.buffer.drop s.offset) s.state).outcome with
    | ok =>
        have hend : s.offset + size ≤ n := by omega
        refine (stays_bind_of_ok rfl).2 ?_
        rw [Address.add, if_pos (Nat.lt_of_le_of_lt hend hn)]
        exact ⟨hbuffer, hend⟩
    | error cause => exact ⟨hbuffer, hoffset⟩

theorem stays_sync {address size : Nat} (h : Within n s) : Stays n (sync gen address size) s := by
  unfold sync
  refine (stays_bind_of_ok rfl).2 ((stays_bind_of_ok rfl).2 ?_)
  exact stays_check _ ⟨h.length, h.offset⟩

theorem stays_chunk (hn : n < Address.limit) (c : Chunk) (h : Within n s) :
    Stays n (chunk gen c) s := by
  unfold chunk
  refine (stays_bind_of_ok rfl).2 ?_
  have hnoted : Within n { s with
      notices := s.notices ++ [.relocating c.source.start c.target.start c.size c.direction] } :=
    ⟨h.length, h.offset⟩
  split
  case h_1 => exact stays_sync hnoted
  case h_2 direction _ => exact stays_stub hn (fun _ _ => gen.length_writeMover _ _ _) hnoted

theorem stays_forM (hn : n < Address.limit) (chunks : List Chunk) (h : Within n s) :
    Stays n (chunks.forM (chunk gen)) s := by
  induction chunks generalizing s with
  | nil => exact h
  | cons c rest ih => exact (stays_chunk hn c h).bind fun _ s' hs' => ih hs'

section Run

variable (chunks : List Chunk) (entry : Nat) (place : Extent) {buffer : List UInt8} (state : γ)
  (hbuffer : buffer.length < Address.limit)
include hbuffer

theorem stays_code : Stays buffer.length (code gen chunks entry place) { buffer, state } := by
  have hstart : Within buffer.length ({ buffer, state } : Emission γ) := ⟨rfl, Nat.zero_le _⟩
  refine (stays_forM hbuffer chunks hstart).bind fun _ s₁ h₁ => ?_
  refine (stays_stub hbuffer (fun _ _ => gen.length_writeJumper _ _ _) h₁).bind fun _ s₂ h₂ => ?_
  exact (stays_sync h₂).bind fun _ s₃ h₃ => ⟨h₃.length, h₃.offset⟩

/-- **An emission does not trap**: what is left of the buffer begins inside of it, and the offset
behind a stub is a word. -/
theorem run_ne_trap (cause : Trap) :
    (run gen chunks entry place buffer state).1 ≠ .error (.trap cause) := by
  have hcode := @stays_code _ gen chunks entry place _ state hbuffer
  unfold run
  intro htrap
  split at htrap
  case h_1 => cases htrap
  case h_2 hend =>
    cases htrap
    simp only [Stays, hend] at hcode

end Run

end Emission

end Code

end Staging
