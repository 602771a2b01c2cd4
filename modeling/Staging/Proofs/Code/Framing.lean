import Staging.Proofs.Code.Decoding

/-!
# Stubs stay in their frame

A stub is written into the front of a buffer or not at all (`Framed`).  It is written if the buffer
can hold it and it has an encoding.  Then the bytes of the stub can be read back, and those behind
it are what they were.  Else no byte of the buffer changes.

As movers and jumpers are read back, stubs of different copies have different bytes
(`stubs_framed`).
-/

namespace Staging.Code.X86

/-- How the stub of `a` is written into a buffer. -/
structure Framed {α : Type} (read : List UInt8 → Option (α × List UInt8)) (a : α) (size : Nat)
    (encodable : Prop) (buffer : List UInt8) (emitted : Emitted Unit) : Prop where
  succeeds_iff : emitted.outcome = .ok () ↔ size ≤ buffer.length ∧ encodable
  length : emitted.buffer.length = buffer.length
  /-- Nothing is written behind the stub. -/
  behind : emitted.buffer.drop size = buffer.drop size
  /-- The bytes of the stub say what it is for. -/
  reads : emitted.outcome = .ok () → read (emitted.buffer.take size) = some (a, [])
  unchanged : emitted.outcome ≠ .ok () → emitted.buffer = buffer

/-- An action that writes a stub, or fails before it writes, stays in the frame. -/
theorem framed_run {α : Type} {read : List UInt8 → Option (α × List UInt8)} {a : α} {size : Nat}
    {act : Emitter.Action Unit} {stub : Except Error (List UInt8)} {encodable : Prop}
    (hstays : Emitter.StaysIn size act) (hencodable : (∃ bytes, stub = .ok bytes) ↔ encodable)
    (hok : ∀ bytes, stub = .ok bytes →
      Emitter.Writes act bytes ∧ bytes.length = size ∧ read bytes = some (a, []))
    (herror : ∀ e, stub = .error e → ∀ out, act out = .error (.error e) out)
    (buffer : List UInt8) (notices : List Notice) :
    Framed read a size encodable buffer (Emitter.emit buffer size act notices hstays).1 := by
  rw [← hencodable]
  by_cases hroom : size ≤ buffer.length
  · cases hstub : stub with
    | ok bytes =>
        obtain ⟨hwrites, rfl, hread⟩ := hok bytes hstub
        rw [Emitter.emit_eq notices hstays (Emitter.run_eq_ok notices hroom hwrites rfl)]
        refine ⟨⟨fun _ => ⟨hroom, bytes, rfl⟩, fun _ => rfl⟩, ?_, ?_, fun _ => ?_, fun h => ?_⟩
        · rw [List.length_append, List.length_drop]
          omega
        · exact List.drop_left
        · rwa [List.take_left]
        · exact absurd rfl h
    | error e =>
        rw [Emitter.emit_eq notices hstays (Emitter.run_eq_error notices hroom (herror e hstub))]
        refine ⟨⟨nofun, fun h => ?_⟩, rfl, rfl, nofun, fun _ => rfl⟩
        obtain ⟨-, bytes, h⟩ := h
        cases h
  · rw [Emitter.emit_eq notices hstays (Emitter.run_of_small notices (Nat.not_le.1 hroom))]
    exact ⟨⟨nofun, fun h => absurd h.1 hroom⟩, rfl, rfl, nofun, fun _ => rfl⟩

theorem framed_mover {m : Move} (h : m.Encodable) (buffer : List UInt8) :
    Framed mover? m (moverSize m.direction) (m.direction = .backward → m.LastBytesFit) buffer
      (generator.writeMover buffer m ()) := by
  refine framed_run (Emitter.staysIn_mover m) exists_mover_iff (fun bytes hbytes => ?_)
    (fun e he => Emitter.mover_eq_error he) buffer _
  have hread := mover?_append h hbytes []
  rw [List.append_nil] at hread
  exact ⟨Emitter.writes_mover hbytes, length_mover hbytes, hread⟩

/-- A mover that has room but no encoding says what cannot be encoded. -/
theorem outcome_of_mover_eq_error {m : Move} {e : Error} {buffer : List UInt8}
    (hroom : moverSize m.direction ≤ buffer.length) (h : mover m = .error e) :
    (generator.writeMover buffer m ()).outcome = .error e :=
  congrArg Emitted.outcome (Emitter.emit_eq _ (Emitter.staysIn_mover m)
    (Emitter.run_eq_error _ hroom (Emitter.mover_eq_error h)))

theorem framed_jumper {entry : Nat} (h : entry < Address.limit) (buffer : List UInt8) :
    Framed jumper? entry jumperSize True buffer (generator.writeJumper buffer entry ()) := by
  have hstub : (∃ bytes, (.ok (jumper entry) : Except Error (List UInt8)) = .ok bytes) ↔ True :=
    iff_true_intro ⟨_, rfl⟩
  have hread := jumper?_append h []
  rw [List.append_nil] at hread
  have hok : ∀ bytes, (.ok (jumper entry) : Except Error (List UInt8)) = .ok bytes →
      Emitter.Writes (Emitter.jumper entry) bytes ∧ bytes.length = jumperSize ∧
        jumper? bytes = some (entry, []) := by
    rintro bytes ⟨⟩
    exact ⟨Emitter.writes_jumper entry, length_jumper entry, hread⟩
  exact framed_run (Emitter.staysIn_jumper entry) hstub hok nofun buffer []

/-- Stubs with the same bytes are for the same. -/
theorem Framed.inj {α : Type} {read : List UInt8 → Option (α × List UInt8)} {a a' : α}
    {size size' : Nat} {encodable encodable' : Prop} {buffer buffer' : List UInt8}
    {emitted emitted' : Emitted Unit} (h : Framed read a size encodable buffer emitted)
    (h' : Framed read a' size' encodable' buffer' emitted') (hok : emitted.outcome = .ok ())
    (hok' : emitted'.outcome = .ok ())
    (hbytes : emitted.buffer.take size = emitted'.buffer.take size') : a = a' := by
  have hread := (h.reads hok).symm.trans (hbytes ▸ h'.reads hok')
  exact (Prod.mk.inj (Option.some.inj hread)).1

/-- **Stubs are framed and injective.**  A mover is written into a buffer if it fits and, for a
backward one, its last bytes have addresses; a jumper is written if it fits.  A stub that is written
is the front of the buffer, from which the copy or the entry point is read, and no byte behind it
changes; a stub that is not written changes no byte at all.  Stubs with the same bytes, in whatever
buffers they are, make the same copy or go to the same entry point. -/
theorem stubs_framed {m m' : Move} (hm : m.Encodable) (hm' : m'.Encodable) {entry entry' : Nat}
    (hentry : entry < Address.limit) (hentry' : entry' < Address.limit)
    (buffer buffer' : List UInt8) :
    (Framed mover? m (moverSize m.direction) (m.direction = .backward → m.LastBytesFit) buffer
        (generator.writeMover buffer m ()) ∧
      ((generator.writeMover buffer m ()).outcome = .ok () →
        (generator.writeMover buffer' m' ()).outcome = .ok () →
        (generator.writeMover buffer m ()).buffer.take (moverSize m.direction) =
          (generator.writeMover buffer' m' ()).buffer.take (moverSize m'.direction) → m = m')) ∧
      Framed jumper? entry jumperSize True buffer (generator.writeJumper buffer entry ()) ∧
        ((generator.writeJumper buffer entry ()).outcome = .ok () →
          (generator.writeJumper buffer' entry' ()).outcome = .ok () →
          (generator.writeJumper buffer entry ()).buffer.take jumperSize =
            (generator.writeJumper buffer' entry' ()).buffer.take jumperSize → entry = entry') :=
  ⟨⟨framed_mover hm buffer, (framed_mover hm buffer).inj (framed_mover hm' buffer')⟩,
    framed_jumper hentry buffer, (framed_jumper hentry buffer).inj (framed_jumper hentry' buffer')⟩

/-- A backward mover whose source ends at the last address is written, and the one behind it has no
encoding. -/
theorem stubs_framed_at_end : ∃ m m' : Move,
    m = ⟨0xfffffffffffff000, 0x2000, 0x1000, .backward⟩ ∧ m.Encodable ∧
      m' = ⟨0xfffffffffffff001, 0x2000, 0x1000, .backward⟩ ∧ m'.Encodable ∧
      (generator.writeMover (List.replicate 36 0xcc) m ()).outcome = .ok () ∧
      (generator.writeMover (List.replicate 36 0xcc) m ()).buffer.drop 34 = [0xcc, 0xcc] ∧
      mover? ((generator.writeMover (List.replicate 36 0xcc) m ()).buffer.take 34) = some (m, []) ∧
      (generator.writeMover (List.replicate 36 0xcc) m' ()).outcome =
        .error (.addressNotEncodable 0xfffffffffffff001) ∧
      (generator.writeMover (List.replicate 36 0xcc) m' ()).buffer = List.replicate 36 0xcc := by
  let m : Move := ⟨0xfffffffffffff000, 0x2000, 0x1000, .backward⟩
  let m' : Move := ⟨0xfffffffffffff001, 0x2000, 0x1000, .backward⟩
  have hm : m.Encodable := ⟨by decide, by decide, by decide⟩
  have hm' : m'.Encodable := ⟨by decide, by decide, by decide⟩
  have hentry : 0x100000 < Address.limit := by decide
  have hframed := (stubs_framed hm hm' hentry hentry (List.replicate 36 0xcc) []).1.1
  have hframed' := (stubs_framed hm' hm hentry hentry (List.replicate 36 0xcc) []).1.1
  have hok := hframed.succeeds_iff.2 ⟨by decide, fun _ => ⟨by decide, by decide⟩⟩
  have hroom : moverSize m'.direction ≤ (List.replicate 36 (0xcc : UInt8)).length := by decide
  have hnone : mover m' = .error (.addressNotEncodable 0xfffffffffffff001) := by decide +kernel
  have hfails := outcome_of_mover_eq_error hroom hnone
  exact ⟨m, m', rfl, hm, rfl, hm', hok, hframed.behind, hframed.reads hok, hfails,
    hframed'.unchanged fun h => by cases hfails.symm.trans h⟩

end Staging.Code.X86
