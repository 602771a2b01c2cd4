import Staging.Code.X86
import Staging.Proofs.Address

/-!
# The format of x86-64 stubs

The bytes of a stub as a whole, and that an emitter writes them: an action writes bytes (`Writes`)
if it puts them behind what the buffer holds and leaves what is behind them as it was.  Actions that
follow each other write their bytes behind one another (`Writes.bind`), so a stub is written as the
parts of it are (`writes_mover`, `writes_jumper`).  A mover that cannot be encoded fails before
anything is written (`Emitter.mover_eq_error`).
-/

namespace Staging

/-- The last bytes of a copy have addresses.  A copy without bytes counts as one byte. -/
def Move.LastBytesFit (m : Move) : Prop :=
  m.source + (max m.size 1 - 1) < Address.limit ∧ m.target + (max m.size 1 - 1) < Address.limit

namespace Code.X86

/-! ### Stubs as a whole -/

/-- The bytes that load a word into the register that the opcode byte names. -/
def load (register : UInt8) (n : Nat) : List UInt8 :=
  0x48 :: register :: word n

/-- The bytes that load the operands of a copy. -/
def operands (source target length : Nat) : List UInt8 :=
  load 0xbe source ++ load 0xbf target ++ load 0xb9 length

/-- The bytes of a forward mover. -/
def forward (source target size : Nat) : List UInt8 :=
  operands source target size ++ [0xfc, 0xf3, 0xa4]

/-- The bytes of a backward mover between two last bytes. -/
def backward (lastSource lastTarget size : Nat) : List UInt8 :=
  operands lastSource lastTarget size ++ [0xfd, 0xf3, 0xa4, 0xfc]

/-- The bytes of a jumper. -/
def jumper (entry : Nat) : List UInt8 :=
  load 0xb8 entry ++ [0xff, 0xe0]

/-- The address of the last byte of a copy. -/
def lastByte (address size : Nat) : Except Error Nat :=
  match Address.add? address (size - 1) with
  | some last => .ok last
  | none => .error (.addressNotEncodable address)

/-- The bytes of a mover. -/
def mover (m : Move) : Except Error (List UInt8) :=
  match m.direction with
  | .forward => .ok (forward m.source m.target m.size)
  | .backward => do
      let source ← lastByte m.source m.size
      let target ← lastByte m.target m.size
      return backward source target m.size

theorem length_load (register : UInt8) (n : Nat) : (load register n).length = 10 := by
  simp [load, length_word]

theorem length_jumper (entry : Nat) : (jumper entry).length = jumperSize := by
  simp [jumper, length_load, jumperSize]

theorem lastByte_eq_ok_iff {address size last : Nat} :
    lastByte address size = .ok last ↔
      address + (size - 1) < Address.limit ∧ last = address + (size - 1) := by
  unfold lastByte
  cases hadd : Address.add? address (size - 1) with
  | none =>
      have : ¬ address + (size - 1) < Address.limit := fun hlt => by
        simp [Address.add?, hlt] at hadd
      simp [this]
  | some sum =>
      obtain ⟨hlt, rfl⟩ := Address.add?_eq_some_iff.1 hadd
      simp [hlt, eq_comm]

/-- The bytes of a mover: its loads, and behind them the copy. -/
theorem mover_eq_ok {m : Move} {stub : List UInt8} (h : mover m = .ok stub) :
    m.direction = .forward ∧ stub = forward m.source m.target m.size ∨
      m.direction = .backward ∧ m.source + (m.size - 1) < Address.limit ∧
        m.target + (m.size - 1) < Address.limit ∧
        stub = backward (m.source + (m.size - 1)) (m.target + (m.size - 1)) m.size := by
  unfold mover at h
  split at h
  case h_1 hdirection =>
    cases h
    exact .inl ⟨hdirection, rfl⟩
  case h_2 hdirection =>
    cases hsource : lastByte m.source m.size with
    | error cause =>
        rw [hsource] at h
        cases h
    | ok lastSource =>
        cases htarget : lastByte m.target m.size with
        | error cause =>
            rw [hsource, htarget] at h
            cases h
        | ok lastTarget =>
            rw [hsource, htarget] at h
            cases h
            obtain ⟨hlt, rfl⟩ := lastByte_eq_ok_iff.1 hsource
            obtain ⟨hlt', rfl⟩ := lastByte_eq_ok_iff.1 htarget
            exact .inr ⟨hdirection, hlt, hlt', rfl⟩

/-- A mover has an encoding unless it is a backward one whose last bytes have no addresses. -/
theorem exists_mover_iff {m : Move} :
    (∃ stub, mover m = .ok stub) ↔ (m.direction = .backward → m.LastBytesFit) := by
  have hlast : max m.size 1 - 1 = m.size - 1 := by omega
  rw [Move.LastBytesFit, hlast]
  constructor
  · rintro ⟨stub, hstub⟩ hdirection
    rcases mover_eq_ok hstub with ⟨hforward, -⟩ | ⟨-, hsource, htarget, -⟩
    · cases hforward.symm.trans hdirection
    · exact ⟨hsource, htarget⟩
  · intro hfit
    unfold mover
    cases hdirection : m.direction with
    | forward => exact ⟨_, rfl⟩
    | backward =>
        obtain ⟨hsource, htarget⟩ := hfit hdirection
        have hsource' := lastByte_eq_ok_iff.2 ⟨hsource, rfl⟩
        have htarget' := lastByte_eq_ok_iff.2 ⟨htarget, rfl⟩
        rw [hsource', htarget']
        exact ⟨_, rfl⟩

theorem length_mover {m : Move} {bytes : List UInt8} (h : mover m = .ok bytes) :
    bytes.length = moverSize m.direction := by
  rcases mover_eq_ok h with ⟨hdirection, rfl⟩ | ⟨hdirection, -, -, rfl⟩
  · simp [hdirection, forward, operands, length_load, moverSize]
  · simp [hdirection, backward, operands, length_load, moverSize]

/-! ### Stubs as they are written -/

namespace Emitter

/-- With room for the bytes, the action puts them behind those before, and leaves the rest. -/
def Writes (act : Action Unit) (bs : List UInt8) : Prop :=
  ∀ done rest, bs.length ≤ rest.length →
    act ⟨done ++ rest, done.length⟩ =
      .ok () ⟨done ++ bs ++ rest.drop bs.length, (done ++ bs).length⟩

theorem writes_byte (b : UInt8) : Writes (byte b) [b] := by
  intro done rest hroom
  cases rest with
  | nil => contradiction
  | cons old rest =>
      simp only [byte, Index.write_append]
      simp

theorem Writes.bind {first second : Action Unit} {bs cs : List UInt8} (h : Writes first bs)
    (h' : Writes second cs) : Writes (first >>= fun _ => second) (bs ++ cs) := by
  intro done rest hroom
  rw [List.length_append] at hroom
  have hfirst := h done rest (by omega)
  have hsecond := h' (done ++ bs) (rest.drop bs.length) (by rw [List.length_drop]; omega)
  simp only [Bind.bind, EStateM.bind, hfirst, hsecond]
  simp [List.drop_drop]

theorem writes_bytes (bs : List UInt8) : Writes (bytes bs) bs := by
  induction bs with
  | nil => exact fun done rest _ => by simp [bytes]; rfl
  | cons b rest ih => exact (writes_byte b).bind ih

theorem writes_load (register : UInt8) (n : Nat) : Writes (load register n) (X86.load register n) :=
  (writes_bytes _).bind (writes_bytes _)

theorem lastByte_eq_ok {address size last : Nat} (h : X86.lastByte address size = .ok last)
    (out : Emitter) : lastByte address size out = .ok last out := by
  unfold X86.lastByte at h
  unfold lastByte
  cases hadd : Address.add? address (size - 1) <;> rw [hadd] at h <;> cases h
  rfl

theorem lastByte_eq_error {address size : Nat} {e : Error}
    (h : X86.lastByte address size = .error e) (out : Emitter) :
    lastByte address size out = .error (.error e) out := by
  unfold X86.lastByte at h
  unfold lastByte
  cases hadd : Address.add? address (size - 1) <;> rw [hadd] at h <;> cases h
  rfl

/-- **An emitter writes the mover**, if it has one. -/
theorem writes_mover {m : Move} {stub : List UInt8} (h : X86.mover m = .ok stub) :
    Writes (mover m) stub := by
  have hoperands (source target size : Nat) {behind : Action Unit} {bs : List UInt8}
      (hbehind : Writes behind bs) :
      Writes (do load 0xbe source; load 0xbf target; load 0xb9 size; behind)
        (operands source target size ++ bs) := by
    rw [operands, List.append_assoc, List.append_assoc]
    exact (writes_load _ _).bind ((writes_load _ _).bind ((writes_load _ _).bind hbehind))
  unfold mover
  rcases mover_eq_ok h with ⟨hdirection, rfl⟩ | ⟨hdirection, hsource, htarget, rfl⟩
  · rw [hdirection]
    exact hoperands _ _ _ ((writes_byte 0xfc).bind (writes_bytes _))
  · have hcopy : Writes (do byte 0xfd; bytes [0xf3, 0xa4]; byte 0xfc) [0xfd, 0xf3, 0xa4, 0xfc] :=
      (writes_byte 0xfd).bind ((writes_bytes [0xf3, 0xa4]).bind (writes_byte 0xfc))
    have hlast (out : Emitter) := lastByte_eq_ok (lastByte_eq_ok_iff.2 ⟨hsource, rfl⟩) out
    have hlast' (out : Emitter) := lastByte_eq_ok (lastByte_eq_ok_iff.2 ⟨htarget, rfl⟩) out
    rw [hdirection]
    intro done rest hroom
    simp only [Bind.bind, EStateM.bind, hlast, hlast']
    exact hoperands _ _ m.size hcopy done rest hroom

/-- **A mover that cannot be encoded** fails before anything is written. -/
theorem mover_eq_error {m : Move} {e : Error} (h : X86.mover m = .error e) (out : Emitter) :
    mover m out = .error (.error e) out := by
  unfold X86.mover at h
  unfold mover
  cases hdirection : m.direction with
  | forward =>
      rw [hdirection] at h
      cases h
  | backward =>
      rw [hdirection] at h
      cases hsource : X86.lastByte m.source m.size with
      | error cause =>
          rw [hsource] at h
          cases h
          simp only [Bind.bind, EStateM.bind, lastByte_eq_error hsource]
      | ok source =>
          cases htarget : X86.lastByte m.target m.size with
          | error cause =>
              rw [hsource, htarget] at h
              cases h
              simp only [Bind.bind, EStateM.bind, lastByte_eq_ok hsource,
                lastByte_eq_error htarget]
          | ok target =>
              rw [hsource, htarget] at h
              cases h

theorem writes_jumper (entry : Nat) : Writes (jumper entry) (X86.jumper entry) :=
  (writes_load _ _).bind (writes_bytes _)

/-! ### Stubs in a buffer -/

variable {buffer : List UInt8} {needed : Nat} {act : Action Unit} (notices : List Notice)

/-- A stub that fits replaces the front of the buffer. -/
theorem run_eq_ok {stub : List UInt8} (hroom : needed ≤ buffer.length) (h : Writes act stub)
    (hlength : stub.length = needed) :
    run buffer needed act notices =
      .ok ⟨stub ++ buffer.drop stub.length, (), .ok (), notices⟩ := by
  have hact : act { buffer } = .ok () ⟨stub ++ buffer.drop stub.length, stub.length⟩ :=
    h [] buffer (hlength ▸ hroom)
  simp only [run, if_neg (Nat.not_lt.2 hroom), hact]

theorem run_of_small (hsmall : buffer.length < needed) :
    run buffer needed act notices =
      .ok ⟨buffer, (), .error (.bufferTooSmall needed buffer.length), []⟩ :=
  if_pos hsmall

theorem run_eq_error {e : Error} (hroom : needed ≤ buffer.length)
    (h : ∀ out, act out = .error (.error e) out) :
    run buffer needed act notices = .ok ⟨buffer, (), .error e, []⟩ := by
  simp only [run, if_neg (Nat.not_lt.2 hroom), h]

/-- What is emitted is what the run leaves behind. -/
theorem emit_eq {stub : Emitted Unit} (hstays : StaysIn needed act)
    (h : run buffer needed act notices = .ok stub) :
    (emit buffer needed act notices hstays).1 = stub :=
  Except.ok.inj ((emit buffer needed act notices hstays).2.symm.trans h)

end Emitter

end Code.X86

end Staging
