import Staging.Address
import Staging.Code.Generator
import Staging.Index

/-!
# Stubs for x86-64

A mover loads source, target and length into registers and repeats a byte copy; a backward mover
starts at the last bytes and sets the direction flag around the copy.  A jumper loads the entry
point and jumps.  Immediate operands have eight bytes, lowest byte first.

    mov rsi, source    48 be imm64        mov rax, entry    48 b8 imm64
    mov rdi, target    48 bf imm64        jmp rax           ff e0
    mov rcx, length    48 b9 imm64
    cld                fc                 std               fd
    rep movsb          f3 a4              rep movsb         f3 a4
                                          cld               fc

A stub is written by an emitter, one byte behind the other, into a buffer whose room was checked
before, so that no byte is written behind it (`Emitter.StaysIn`).  Instruction fetch is coherent
with data writes, so there are no caches to synchronize.
-/

namespace Staging.Code.X86

/-- The eight bytes of a word, lowest first. -/
def word (n : Nat) : List UInt8 :=
  (List.range 8).map fun k => UInt8.ofNat (n >>> (8 * k))

theorem length_word (n : Nat) : (word n).length = 8 := by
  simp [word]

/-- Number of bytes of a mover. -/
def moverSize : CopyDirection → Nat
  | .forward => 33
  | .backward => 34

/-- Number of bytes of a jumper. -/
def jumperSize : Nat := 12

/-- A buffer that a stub is written into, and the place of the next byte. -/
structure Emitter where
  buffer : List UInt8
  next : Nat := 0

namespace Emitter

/-- An action that writes part of a stub.  What is written stays if a fault ends the action. -/
abbrev Action := EStateM (Fault Error) Emitter

/-- Write one byte. -/
def byte (b : UInt8) : Action Unit := fun out =>
  match Index.write out.buffer out.next b with
  | .ok buffer => .ok () ⟨buffer, out.next + 1⟩
  | .error cause => .error (.trap cause) out

/-- Write bytes in their order. -/
def bytes (bs : List UInt8) : Action Unit :=
  bs.forM byte

/-- Load a word into the register that the opcode byte names. -/
def load (register : UInt8) (n : Nat) : Action Unit := do
  bytes [0x48, register]
  bytes (word n)

/-- The address of the last byte of a copy. -/
def lastByte (address size : Nat) : Action Nat :=
  match Address.add? address (size - 1) with
  | some last => return last
  | none => throw (.error (.addressNotEncodable address))

/-- Write a mover. -/
def mover (m : Move) : Action Unit :=
  match m.direction with
  | .forward => do
      load 0xbe m.source
      load 0xbf m.target
      load 0xb9 m.size
      byte 0xfc
      bytes [0xf3, 0xa4]
  | .backward => do
      let source ← lastByte m.source m.size
      let target ← lastByte m.target m.size
      load 0xbe source
      load 0xbf target
      load 0xb9 m.size
      byte 0xfd
      bytes [0xf3, 0xa4]
      byte 0xfc

/-- Write a jumper. -/
def jumper (entry : Nat) : Action Unit := do
  load 0xb8 entry
  bytes [0xff, 0xe0]

/-- Write a stub of known size into the front of a buffer that can hold it. -/
def run (buffer : List UInt8) (needed : Nat) (stub : Action Unit) (notices : List Notice) :
    Except Trap (Emitted Unit) :=
  if buffer.length < needed then
    .ok ⟨buffer, (), .error (.bufferTooSmall needed buffer.length), []⟩
  else
    match stub { buffer } with
    | .ok () out => .ok ⟨out.buffer, (), .ok (), notices⟩
    | .error (.error e) out => .ok ⟨out.buffer, (), .error e, []⟩
    | .error (.trap cause) _ => .error cause

/-- With `room` bytes left, the action writes no further, and does not trap.  The buffer has the
length that it had. -/
def StaysIn {α : Type} (room : Nat) (act : Action α) : Prop :=
  ∀ out, out.next + room ≤ out.buffer.length →
    match act out with
    | .ok _ out' => out'.next ≤ out.next + room ∧ out'.buffer.length = out.buffer.length
    | .error (.error _) out' => out'.buffer.length = out.buffer.length
    | .error (.trap _) _ => False

theorem StaysIn.bind {α β : Type} {act : Action α} {next : α → Action β} {room room' : Nat}
    (h : StaysIn room act) (hnext : ∀ a, StaysIn room' (next a)) :
    StaysIn (room + room') (act >>= next) := by
  intro out hroom
  have hout := h out (by omega)
  simp only [Bind.bind, EStateM.bind]
  cases hact : act out with
  | error e out' =>
      rw [hact] at hout
      cases e with
      | error cause => exact hout
      | trap cause => exact hout
  | ok a out' =>
      rw [hact] at hout
      have hlast := hnext a out' (by omega)
      dsimp only
      split
      case h_1 hend =>
        rw [hend] at hlast
        exact ⟨by omega, hlast.2.trans hout.2⟩
      case h_2 hend =>
        rw [hend] at hlast
        exact hlast.trans hout.2
      case h_3 hend =>
        rw [hend] at hlast
        exact hlast

theorem staysIn_byte (b : UInt8) : StaysIn 1 (byte b) := by
  intro out hroom
  simp only [byte, Index.write_eq_ok (show out.next < out.buffer.length by omega)]
  exact ⟨Nat.le_refl _, List.length_set⟩

theorem staysIn_bytes (bs : List UInt8) : StaysIn bs.length (bytes bs) := by
  induction bs with
  | nil => exact fun out _ => ⟨Nat.le_refl _, rfl⟩
  | cons b rest ih =>
      rw [List.length_cons, Nat.add_comm]
      exact (staysIn_byte b).bind fun _ => ih

theorem staysIn_load (register : UInt8) (n : Nat) : StaysIn 10 (load register n) :=
  (staysIn_bytes [0x48, register]).bind fun _ => length_word n ▸ staysIn_bytes (word n)

theorem staysIn_lastByte (address size : Nat) : StaysIn 0 (lastByte address size) := by
  intro out _
  unfold lastByte
  cases Address.add? address (size - 1) with
  | none => exact rfl
  | some last => exact ⟨Nat.le_refl _, rfl⟩

theorem staysIn_mover (m : Move) : StaysIn (moverSize m.direction) (mover m) := by
  have hloads (source target size : Nat) {behind : Action Unit} {room : Nat}
      (h : StaysIn room behind) :
      StaysIn (10 + (10 + (10 + room)))
        (do load 0xbe source; load 0xbf target; load 0xb9 size; behind) :=
    (staysIn_load _ _).bind fun _ => (staysIn_load _ _).bind fun _ =>
      (staysIn_load _ _).bind fun _ => h
  unfold mover
  cases m.direction with
  | forward => exact hloads _ _ _ ((staysIn_byte _).bind fun _ => staysIn_bytes [0xf3, 0xa4])
  | backward =>
      have hcopy : StaysIn (1 + (2 + 1)) (do byte 0xfd; bytes [0xf3, 0xa4]; byte 0xfc) :=
        (staysIn_byte _).bind fun _ => (staysIn_bytes [0xf3, 0xa4]).bind fun _ => staysIn_byte _
      exact (staysIn_lastByte _ _).bind fun _ => (staysIn_lastByte _ _).bind fun _ =>
        hloads _ _ _ hcopy

theorem staysIn_jumper (entry : Nat) : StaysIn jumperSize (jumper entry) :=
  (staysIn_load _ _).bind fun _ => staysIn_bytes [0xff, 0xe0]

/-- A stub that stays in its size is written, or fails with an error. -/
theorem exists_run {needed : Nat} {stub : Action Unit} (h : StaysIn needed stub)
    (buffer : List UInt8) (notices : List Notice) :
    ∃ emitted, run buffer needed stub notices = .ok emitted ∧
      emitted.buffer.length = buffer.length := by
  unfold run
  split
  case isTrue => exact ⟨_, rfl, rfl⟩
  case isFalse hroom =>
    have hout := h { buffer } (by simp only [Nat.zero_add]; omega)
    cases hstub : stub { buffer } with
    | ok _ out =>
        rw [hstub] at hout
        exact ⟨_, rfl, hout.2⟩
    | error e out =>
        rw [hstub] at hout
        cases e with
        | error cause => exact ⟨_, rfl, hout⟩
        | trap cause => exact hout.elim

/-- What a stub that stays in its size leaves behind. -/
def emit (buffer : List UInt8) (needed : Nat) (stub : Action Unit) (notices : List Notice)
    (h : StaysIn needed stub) : { e : Emitted Unit // run buffer needed stub notices = .ok e } :=
  match hrun : run buffer needed stub notices with
  | .ok emitted => ⟨emitted, rfl⟩
  | .error _ => absurd (exists_run h buffer notices) (by simp [hrun])

theorem length_emit (buffer : List UInt8) {needed : Nat} {stub : Action Unit}
    (notices : List Notice) (h : StaysIn needed stub) :
    (emit buffer needed stub notices h).1.buffer.length = buffer.length := by
  obtain ⟨emitted, hrun, hlength⟩ := exists_run h buffer notices
  cases (emit buffer needed stub notices h).2.symm.trans hrun
  exact hlength

end Emitter

/-- The generator of x86-64 stubs. -/
def generator : Generator Unit where
  moverSize := moverSize
  jumperSize := jumperSize
  writeMover buffer m _ :=
    (Emitter.emit buffer _ _ [.moverEmitted m] (Emitter.staysIn_mover m)).1
  writeJumper buffer entry _ := (Emitter.emit buffer _ _ [] (Emitter.staysIn_jumper entry)).1
  makeCoherent _ _ _ := (.ok (), ())
  length_writeMover _ _ _ := Emitter.length_emit _ _ _
  length_writeJumper _ _ _ := Emitter.length_emit _ _ _

end Staging.Code.X86
