import Mathlib.Algebra.GroupWithZero.Nat
import Staging.Proofs.Code.Emission

/-!
# The calls of an emission

The calls that an emission is to make are known before it starts: one for each chunk, the jumper,
and one for the code itself (`plan`).  A call has as much room as the stubs before it leave of the
buffer.  An emission makes these calls up to the first one that fails (`play`).  If the buffer has
just the size of all stubs, it does nothing else, so only the generator can make it fail
(`Emission.run_eq_play`).
-/

namespace Staging

open Code (Call Emission Error Emitted Generator)

variable {γ : Type}

/-- Number of bytes of the stub of a chunk; a chunk in place has none. -/
def Chunk.stubSize (gen : Generator γ) (c : Chunk) : Nat :=
  (c.direction.map gen.moverSize).getD 0

/-- The call for a chunk, with some room for its stub. -/
def Chunk.call (c : Chunk) (room : Nat) : Call :=
  if c.source.start = c.target.start then
    .sync c.source.start c.size
  else
    .mover ⟨c.source.start, c.target.start, c.size,
      if c.source.start < c.target.start then .backward else .forward⟩ room

/-- A chunk that moves is one mover. -/
theorem Chunk.call_of_some {c : Chunk} {direction : CopyDirection}
    (h : c.direction = some direction) (room : Nat) :
    c.call room = .mover ⟨c.source.start, c.target.start, c.size, direction⟩ room := by
  unfold Chunk.direction CopyDirection.between at h
  unfold call
  split at h
  case isTrue hlt =>
    cases h
    rw [if_neg (Nat.ne_of_lt hlt), if_pos hlt]
  case isFalse hnot =>
    split at h
    case isTrue hlt =>
      cases h
      rw [if_neg (Nat.ne_of_gt hlt), if_neg hnot]
    case isFalse => contradiction

/-- A chunk in place is synchronized. -/
theorem Chunk.call_of_none {c : Chunk} (h : c.direction = none) (room : Nat) :
    c.call room = .sync c.source.start c.size :=
  if_pos (start_eq_of_move? (by rw [move?, h, Option.map_none]))

/-- Number of bytes of all code for chunks. -/
def Code.size (gen : Generator γ) (chunks : List Chunk) : Nat :=
  gen.jumperSize + (chunks.map (·.stubSize gen)).sum

/-- The calls for chunks in their order, behind the stubs that are in the code already.  The jumper
is at the end of the code. -/
def Code.plan (gen : Generator γ) (entry : Nat) (place : Extent) (offset : Nat) :
    List Chunk → List Call
  | [] => [.jumper entry gen.jumperSize, .sync place.start place.length]
  | c :: rest =>
      c.call (place.length - offset) :: plan gen entry place (offset + c.stubSize gen) rest

namespace Code

/-- Make one call.  A stub is emitted into the bytes at the end of the buffer that the call has room
for. -/
def Call.make (gen : Generator γ) (call : Call) (buffer : List UInt8) (state : γ) : Emitted γ :=
  match call with
  | .mover m room =>
      let offset := buffer.length - room
      let emitted := gen.writeMover (buffer.drop offset) m state
      { emitted with buffer := buffer.take offset ++ emitted.buffer }
  | .jumper entry room =>
      let offset := buffer.length - room
      let emitted := gen.writeJumper (buffer.drop offset) entry state
      { emitted with buffer := buffer.take offset ++ emitted.buffer }
  | .sync address size =>
      let (outcome, state) := gen.makeCoherent address size state
      { buffer, state, outcome }

/-- What calls leave behind that were made one after the other. -/
structure Played (γ : Type) where
  calls : List Call
  buffer : List UInt8
  state : γ
  outcome : Except Error Unit

/-- Make calls up to the first one that fails, and keep its error. -/
def play (gen : Generator γ) : List Call → List UInt8 → γ → Played γ
  | [], buffer, state => ⟨[], buffer, state, .ok ()⟩
  | call :: rest, buffer, state =>
      let emitted := call.make gen buffer state
      match emitted.outcome with
      | .ok () =>
          let played := play gen rest emitted.buffer emitted.state
          { played with calls := call :: played.calls }
      | .error cause => ⟨[call], emitted.buffer, emitted.state, .error cause⟩

variable {gen : Generator γ}

/-- A call leaves the length of the buffer alone. -/
theorem Call.length_make (call : Call) (buffer : List UInt8) (state : γ) :
    (call.make gen buffer state).buffer.length = buffer.length := by
  cases call with
  | mover m room =>
      simp only [make, List.length_append, gen.length_writeMover, List.length_take,
        List.length_drop]
      omega
  | jumper entry room =>
      simp only [make, List.length_append, gen.length_writeJumper, List.length_take,
        List.length_drop]
      omega
  | sync address size => rfl

theorem play_cons_of_ok {call : Call} {rest : List Call} {buffer : List UInt8} {state : γ}
    (h : (call.make gen buffer state).outcome = .ok ()) :
    play gen (call :: rest) buffer state =
      { play gen rest (call.make gen buffer state).buffer (call.make gen buffer state).state with
        calls := call :: (play gen rest (call.make gen buffer state).buffer
          (call.make gen buffer state).state).calls } := by
  simp only [play, h]

theorem play_cons_of_make {call : Call} {rest : List Call} {buffer buffer' : List UInt8}
    {state state' : γ} {notices : List Notice}
    (h : call.make gen buffer state = ⟨buffer', state', .ok (), notices⟩) :
    play gen (call :: rest) buffer state =
      { play gen rest buffer' state' with
        calls := call :: (play gen rest buffer' state').calls } := by
  rw [play_cons_of_ok (by rw [h]), h]

theorem play_cons_of_error {call : Call} {rest : List Call} {buffer : List UInt8} {state : γ}
    {cause : Error} (h : (call.make gen buffer state).outcome = .error cause) :
    play gen (call :: rest) buffer state =
      ⟨[call], (call.make gen buffer state).buffer, (call.make gen buffer state).state,
        .error cause⟩ := by
  simp only [play, h]

theorem length_play (calls : List Call) (buffer : List UInt8) (state : γ) :
    (play gen calls buffer state).buffer.length = buffer.length := by
  induction calls generalizing buffer state with
  | nil => rfl
  | cons call rest ih =>
      cases hmade : (call.make gen buffer state).outcome with
      | ok =>
          rw [play_cons_of_ok hmade]
          exact (ih _ _).trans (call.length_make buffer state)
      | error cause =>
          rw [play_cons_of_error hmade]
          exact call.length_make buffer state

/-- **All calls are made** if none of them fails. -/
theorem calls_of_play_ok {calls : List Call} {buffer : List UInt8} {state : γ}
    (h : (play gen calls buffer state).outcome = .ok ()) :
    (play gen calls buffer state).calls = calls := by
  induction calls generalizing buffer state with
  | nil => rfl
  | cons call rest ih =>
      cases hmade : (call.make gen buffer state).outcome with
      | ok =>
          rw [play_cons_of_ok hmade] at h ⊢
          exact congrArg (call :: ·) (ih h)
      | error cause =>
          rw [play_cons_of_error hmade] at h
          cases h

/-- **The last call is the one that failed**, and its error is the one that is kept. -/
theorem calls_of_play_error {calls : List Call} {buffer : List UInt8} {state : γ} {cause : Error}
    (h : (play gen calls buffer state).outcome = .error cause) :
    ∃ (done rest : List Call) (call : Call) (buffer' : List UInt8) (state' : γ),
      calls = done ++ call :: rest ∧ (play gen calls buffer state).calls = done ++ [call] ∧
        (call.make gen buffer' state').outcome = .error cause := by
  induction calls generalizing buffer state with
  | nil => cases h
  | cons call rest ih =>
      cases hmade : (call.make gen buffer state).outcome with
      | ok =>
          rw [play_cons_of_ok hmade] at h ⊢
          obtain ⟨done, behind, failed, buffer', state', hsplit, hcalls, hfailed⟩ := ih h
          refine ⟨call :: done, behind, failed, buffer', state', ?_, ?_, hfailed⟩
          · rw [hsplit, List.cons_append]
          · exact congrArg (call :: ·) hcalls
      | error cause' =>
          rw [play_cons_of_error hmade] at h ⊢
          cases h
          exact ⟨[], rest, call, buffer, state, rfl, rfl, hmade⟩

/-! ### Emissions -/

namespace Emission

variable {s : Emission γ} {call : Call} {advance : Nat} {x y : Action γ Unit}

/-- The action makes one call of the generator, and the offset advances behind it. -/
def Makes (gen : Generator γ) (call : Call) (advance : Nat) (x : Action γ Unit)
    (s : Emission γ) : Prop :=
  let made := call.make gen s.buffer s.state
  match x s with
  | .ok () s' => made.outcome = .ok () ∧ s'.buffer = made.buffer ∧ s'.state = made.state ∧
      s'.calls = s.calls ++ [call] ∧ s'.offset = s.offset + advance
  | .error (.error cause) s' => made.outcome = .error cause ∧ s'.buffer = made.buffer ∧
      s'.state = made.state ∧ s'.calls = s.calls ++ [call]
  | .error (.trap _) _ => False

/-- The action makes calls up to the first one that fails, and does nothing else. -/
def Plays (gen : Generator γ) (calls : List Call) (x : Action γ Unit) (s : Emission γ) : Prop :=
  let played := play gen calls s.buffer s.state
  match x s with
  | .ok () s' => played.outcome = .ok () ∧ s'.buffer = played.buffer ∧ s'.state = played.state ∧
      s'.calls = s.calls ++ played.calls
  | .error (.error cause) s' => played.outcome = .error cause ∧ s'.buffer = played.buffer ∧
      s'.state = played.state ∧ s'.calls = s.calls ++ played.calls
  | .error (.trap _) _ => False

/-- One call, and the calls behind it. -/
theorem Makes.bind {calls : List Call} (h : Makes gen call advance x s)
    (hy : ∀ s', s'.offset = s.offset + advance → s'.buffer.length = s.buffer.length →
      Plays gen calls y s') : Plays gen (call :: calls) (x >>= fun _ => y) s := by
  unfold Makes at h
  unfold Plays
  simp only [Bind.bind, EStateM.bind]
  cases hx : x s with
  | ok a s' =>
      simp only [hx] at h ⊢
      obtain ⟨hmade, hbuffer, hstate, hcalls, hoffset⟩ := h
      have hrest := hy s' hoffset (hbuffer ▸ call.length_make s.buffer s.state)
      unfold Plays at hrest
      rw [play_cons_of_ok hmade, ← hbuffer, ← hstate]
      cases hend : y s' with
      | ok a s'' =>
          simp only [hend, hcalls, List.append_assoc] at hrest ⊢
          exact hrest
      | error cause s'' =>
          cases cause <;> simp only [hend, hcalls, List.append_assoc] at hrest ⊢
          exact hrest
  | error cause s' =>
      cases cause <;> simp only [hx] at h ⊢
      obtain ⟨hmade, hbuffer, hstate, hcalls⟩ := h
      rw [play_cons_of_error hmade]
      exact ⟨rfl, hbuffer, hstate, hcalls⟩

theorem makes_bind_of_ok {α : Type} {x : Action γ α} {f : α → Action γ Unit} {a : α}
    (h : x s = .ok a s) :
    Makes gen call advance (x >>= f) s ↔ Makes gen call advance (f a) s := by
  simp only [Makes, Bind.bind, EStateM.bind, h]

/-- **A stub that there is room for** is one call, with the room behind the stubs so far. -/
theorem makes_stub {size : Nat} {call : Nat → Call} {emit : List UInt8 → γ → Emitted γ}
    (hmake : ∀ room buffer state, (call room).make gen buffer state =
      { emit (buffer.drop (buffer.length - room)) state with
        buffer := buffer.take (buffer.length - room) ++
          (emit (buffer.drop (buffer.length - room)) state).buffer })
    (hlimit : s.buffer.length < Address.limit) (hroom : s.offset + size ≤ s.buffer.length) :
    Makes gen (call (s.buffer.length - s.offset)) size (stub size call emit) s := by
  have hoffset : s.buffer.length - (s.buffer.length - s.offset) = s.offset := by omega
  have hfits : ¬ s.buffer.length - s.offset < size := by omega
  have hmade := hmake (s.buffer.length - s.offset) s.buffer s.state
  rw [hoffset] at hmade
  unfold stub
  refine (makes_bind_of_ok rfl).2 ?_
  have htail : Index.tail s.buffer s.offset = .ok (s.buffer.drop s.offset) :=
    Index.tail_eq_ok (by omega)
  have hsum : Address.add s.offset size = .ok (s.offset + size) :=
    if_pos (Nat.lt_of_le_of_lt hroom hlimit)
  dsimp only
  rw [if_neg hfits, htail, hsum]
  refine (makes_bind_of_ok rfl).2 ?_
  rw [Makes, hmade, ← List.length_drop]
  cases (emit (s.buffer.drop s.offset) s.state).outcome with
  | ok => exact ⟨rfl, rfl, rfl, rfl, rfl⟩
  | error cause => exact ⟨rfl, rfl, rfl, rfl⟩

theorem makes_sync (address size : Nat) :
    Makes gen (.sync address size) 0 (sync gen address size) s := by
  change Makes gen (.sync address size) 0
    (do
      set { s with
        calls := s.calls ++ [Call.sync address size]
        state := (gen.makeCoherent address size s.state).2 }
      check (gen.makeCoherent address size s.state).1) s
  rw [Makes, Call.make]
  obtain ⟨outcome, state⟩ := gen.makeCoherent address size s.state
  cases outcome with
  | ok => exact ⟨rfl, rfl, rfl, rfl, rfl⟩
  | error cause => exact ⟨rfl, rfl, rfl, rfl⟩

/-- A notice in front makes no call. -/
theorem makes_note (n : Notice)
    (h : Makes gen call advance x { s with notices := s.notices ++ [n] }) :
    Makes gen call advance (note n >>= fun _ => x) s := h

/-- **A chunk is one call**, whether it is in place or moves. -/
theorem makes_chunk {c : Chunk} (hlimit : s.buffer.length < Address.limit)
    (hroom : s.offset + c.stubSize gen ≤ s.buffer.length) :
    Makes gen (c.call (s.buffer.length - s.offset)) (c.stubSize gen) (chunk gen c) s := by
  cases hdirection : c.direction with
  | none =>
      rw [Chunk.call_of_none hdirection, Chunk.stubSize, hdirection]
      simp only [chunk, hdirection]
      exact makes_note _ (makes_sync _ _)
  | some direction =>
      rw [Chunk.stubSize, hdirection] at hroom
      rw [Chunk.call_of_some hdirection, Chunk.stubSize, hdirection]
      simp only [chunk, hdirection]
      exact makes_note _ (makes_stub (fun _ _ _ => rfl) hlimit hroom)

/-- **The code for chunks** makes the calls of its plan, if the stubs fill the buffer. -/
theorem plays_code {chunks : List Chunk} {entry : Nat} {place : Extent}
    (hlength : s.buffer.length = place.length)
    (hsize : s.offset + size gen chunks = place.length) :
    Plays gen (plan gen entry place s.offset chunks) (code gen chunks entry place) s := by
  have hlimit : place.length < Address.limit :=
    Nat.lt_of_le_of_lt (Nat.sub_le _ _) place.stop_lt
  induction chunks generalizing s with
  | nil =>
      simp only [size, List.map_nil, List.sum_nil] at hsize
      have hroom : s.buffer.length - s.offset = gen.jumperSize := by omega
      have hfits : s.offset + gen.jumperSize ≤ s.buffer.length := by omega
      have hjumper : Makes gen (.jumper entry (s.buffer.length - s.offset)) gen.jumperSize
          (jumper gen entry) s := makes_stub (fun _ _ _ => rfl) (hlength ▸ hlimit) hfits
      rw [hroom] at hjumper
      refine hjumper.bind fun s₁ _ _ => ?_
      refine (makes_sync place.start place.length).bind fun s₂ _ _ => ?_
      exact ⟨rfl, rfl, rfl, (List.append_nil _).symm⟩
  | cons c rest ih =>
      simp only [size, List.map_cons, List.sum_cons] at hsize
      have hchunk : Makes gen (c.call (s.buffer.length - s.offset)) (c.stubSize gen)
          (chunk gen c) s := makes_chunk (hlength ▸ hlimit) (by omega)
      rw [hlength] at hchunk
      have hassoc : code gen (c :: rest) entry place =
          (chunk gen c >>= fun _ => code gen rest entry place) :=
        bind_assoc (chunk gen c) (fun _ => rest.forM (chunk gen)) _
      rw [plan, hassoc]
      refine hchunk.bind fun s₁ hoffset hsame => ?_
      rw [← hoffset]
      refine ih (hsame.trans hlength) ?_
      simp only [size]
      omega

/-- **An emission makes the calls of its plan** up to the first one that fails, if the buffer has
the size of all stubs. -/
theorem run_eq_play {chunks : List Chunk} {place : Extent} {buffer : List UInt8}
    (hlength : buffer.length = place.length) (hsize : size gen chunks = place.length)
    (entry : Nat) (state : γ) :
    let played := play gen (plan gen entry place 0 chunks) buffer state
    (run gen chunks entry place buffer state).1 = played.outcome.mapError .error ∧
      (run gen chunks entry place buffer state).2.buffer = played.buffer ∧
      (run gen chunks entry place buffer state).2.state = played.state ∧
      (run gen chunks entry place buffer state).2.calls = played.calls := by
  have hplays : Plays gen (plan gen entry place 0 chunks) (code gen chunks entry place)
      { buffer, state } := plays_code hlength ((Nat.zero_add _).trans hsize)
  unfold Plays at hplays
  unfold run
  cases hcode : code gen chunks entry place { buffer, state } with
  | ok a s =>
      rw [hcode] at hplays
      obtain ⟨houtcome, hbuffer, hstate, hcalls⟩ := hplays
      refine ⟨?_, hbuffer, hstate, hcalls⟩
      rw [houtcome]
      rfl
  | error cause s =>
      rw [hcode] at hplays
      cases cause with
      | trap => exact hplays.elim
      | error cause =>
          obtain ⟨houtcome, hbuffer, hstate, hcalls⟩ := hplays
          refine ⟨?_, hbuffer, hstate, hcalls⟩
          rw [houtcome]
          rfl

end Emission

end Code

end Staging
