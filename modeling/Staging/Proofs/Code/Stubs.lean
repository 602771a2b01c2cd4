import Staging.Proofs.Code.Decoding
import Staging.Proofs.Code.Plan

/-!
# The bytes of an emission

The calls of a plan never fail for x86-64, and they leave the stubs of the moves behind, one after
the other, with the jumper at the end (`play_plan`).
-/

namespace Staging

open Code (Call Emitted Error)

/-- The operands of the move of a chunk are words, and it has a mover. -/
theorem Chunk.exists_mover {c : Chunk} (hlength : c.target.length = c.source.length)
    (hlt : c.source.start < c.source.stop) {m : Move} (h : c.move? = some m) :
    m.Encodable ∧ ∃ stub, Code.X86.mover m = .ok stub := by
  obtain ⟨direction, -, rfl⟩ := Option.map_eq_some_iff.1 h
  have hsource := c.source.stop_lt
  have htarget := c.target.stop_lt
  have hle := c.target.start_le_stop
  simp only [Extent.length] at hlength
  refine ⟨⟨?_, ?_, ?_⟩, Code.X86.exists_mover_iff.2 fun _ => ⟨?_, ?_⟩⟩
  · exact Nat.lt_trans hlt hsource
  · exact Nat.lt_of_le_of_lt hle htarget
  · exact Nat.lt_of_le_of_lt (Nat.sub_le _ _) hsource
  -- The last bytes are inside of the source and of the target.
  · simp only [size, Extent.length]
    omega
  · simp only [size, Extent.length]
    omega

namespace Code.X86

variable {done rest : List UInt8}

theorem make_mover {m : Move} {stub : List UInt8} (hstub : mover m = .ok stub)
    (hroom : stub.length ≤ rest.length) :
    Call.make generator (.mover m rest.length) (done ++ rest) () =
      ⟨done ++ stub ++ rest.drop stub.length, (), .ok (), [.moverEmitted m]⟩ := by
  have hlength := length_mover hstub
  have hoffset : (done ++ rest).length - rest.length = done.length := by simp
  have hwrite := Emitter.emit_eq [.moverEmitted m] (Emitter.staysIn_mover m)
    (Emitter.run_eq_ok _ (hlength ▸ hroom) (Emitter.writes_mover hstub) hlength)
  simp only [Call.make, hoffset, List.drop_left, List.take_left, generator, hwrite,
    List.append_assoc]

theorem make_jumper {entry : Nat} (hroom : jumperSize = rest.length) :
    Call.make generator (.jumper entry jumperSize) (done ++ rest) () =
      ⟨done ++ jumper entry, (), .ok (), []⟩ := by
  have hlength := length_jumper entry
  have hoffset : (done ++ rest).length - jumperSize = done.length := by simp [hroom]
  have hwrite := Emitter.emit_eq [] (Emitter.staysIn_jumper entry)
    (Emitter.run_eq_ok _ (Nat.le_of_eq hroom) (Emitter.writes_jumper entry) hlength)
  have hbehind : rest.drop (jumper entry).length = [] :=
    List.drop_eq_nil_of_le (by rw [hlength, hroom])
  rw [hbehind, List.append_nil] at hwrite
  simp only [Call.make, hoffset, List.drop_left, List.take_left, generator, hwrite]

/-- **The calls of a plan leave the stubs behind**, and none of them fails. -/
theorem play_plan {chunks : List Chunk} {place : Extent} (entry : Nat)
    (hchunks : ∀ c ∈ chunks, ∀ m, c.move? = some m → ∃ stub, mover m = .ok stub)
    (hlength : done.length + rest.length = place.length)
    (hsize : size generator chunks = rest.length) :
    ∃ bytes, program (chunks.filterMap (·.move?)) entry = .ok bytes ∧
      play generator (plan generator entry place done.length chunks) (done ++ rest) () =
        ⟨plan generator entry place done.length chunks, done ++ bytes, (), .ok ()⟩ := by
  induction chunks generalizing done rest with
  | nil =>
      have hjumper : Call.make generator (.jumper entry jumperSize) (done ++ rest) () = _ :=
        make_jumper hsize
      refine ⟨jumper entry, rfl, ?_⟩
      rw [plan, show generator.jumperSize = jumperSize from rfl, play_cons_of_make hjumper]
      rfl
  | cons c others ih =>
      obtain ⟨hc, hothers⟩ := List.forall_mem_cons.1 hchunks
      have hroom : place.length - done.length = rest.length := by omega
      rw [plan, hroom]
      simp only [size, List.map_cons, List.sum_cons] at hsize
      cases hdirection : c.direction with
      | none =>
          have hmove : c.move? = none := by rw [Chunk.move?, hdirection, Option.map_none]
          have hstub : c.stubSize generator = 0 := by rw [Chunk.stubSize, hdirection]; rfl
          have hsize' : size generator others = rest.length := by
            simp only [size]
            omega
          have hsync : Call.make generator (.sync c.source.start c.size) (done ++ rest) () =
              ⟨done ++ rest, (), .ok (), []⟩ := rfl
          obtain ⟨bytes, hbytes, hplay⟩ := ih hothers hlength hsize'
          refine ⟨bytes, by rwa [List.filterMap_cons_none hmove], ?_⟩
          rw [Chunk.call_of_none hdirection, hstub, Nat.add_zero, play_cons_of_make hsync, hplay]
      | some direction =>
          have hmove : c.move? = some ⟨c.source.start, c.target.start, c.size, direction⟩ := by
            rw [Chunk.move?, hdirection, Option.map_some]
          obtain ⟨stub, hstub⟩ := hc _ hmove
          have hneeded : c.stubSize generator = stub.length := by
            rw [Chunk.stubSize, hdirection]
            exact (length_mover hstub).symm
          rw [hneeded] at hsize
          have hmover : Call.make generator
              (.mover ⟨c.source.start, c.target.start, c.size, direction⟩ rest.length)
              (done ++ rest) () = _ := make_mover hstub (by omega)
          have hlength' : (done ++ stub).length + (rest.drop stub.length).length =
              place.length := by
            rw [List.length_append, List.length_drop]
            omega
          have hsize' : size generator others = (rest.drop stub.length).length := by
            rw [List.length_drop]
            simp only [size]
            omega
          obtain ⟨bytes, hbytes, hplay⟩ := ih hothers hlength' hsize'
          refine ⟨stub ++ bytes, ?_, ?_⟩
          · rw [List.filterMap_cons_some hmove, program, hstub, hbytes]
            rfl
          · rw [List.length_append] at hplay
            rw [Chunk.call_of_some hdirection, hneeded, play_cons_of_make hmover, hplay,
              List.append_assoc]

end Code.X86

end Staging
