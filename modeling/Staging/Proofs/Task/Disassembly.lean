import Staging.Proofs.Code.Stubs
import Staging.Proofs.Task.Calls

/-!
# The code of a hand-off can be read back

For x86-64 no call of a hand-off fails, so the code is a row of movers and a jumper.  Read from its
first byte it yields the moves of the chunks in the order of their sources, and the entry point
(`prepare_decodes`).
-/

namespace Staging.Task

variable {φ : Type} {origin : Heap} {fw : Firmware φ} {code : Extent} {s s₁ : Running φ}

/-- **The code of a hand-off reads back** as the moves of all chunks that are not in place, in the
strict order of their sources, and a jumper to the entry point behind which there is nothing.  No
other moves and no other entry point have this code, and no call fails. -/
theorem prepare_decodes {firmware : φ} (horigin : origin.Reachable)
    (h : Reach fw Code.X86.generator.SameSizes origin firmware s)
    (hcode : stageCode fw Code.X86.generator s = .ok code s₁) (contents : Nat → UInt8)
    {entry : Nat} (hentry : entry < Address.limit) :
    ∃ prepared s' moves, prepare fw Code.X86.generator contents entry () s = .ok prepared s' ∧
      prepared.code = code ∧ prepared.outcome = .ok () ∧ prepared.buffer.length = code.length ∧
      Code.X86.program? prepared.buffer = some (moves, entry) ∧
      moves.Perm (s.task.chunks.filterMap (·.move?)) ∧
      (moves.Pairwise fun a b => a.source < b.source) ∧
      ∀ moves' entry', (∀ m ∈ moves', m.Encodable) → entry' < Address.limit →
        Code.X86.program moves' entry' = .ok prepared.buffer → moves' = moves ∧ entry' = entry := by
  have hv := horigin.valid
  have hwhole := (h.staged hv fw.tracks_nothing trivial).arranged.whole
  obtain ⟨-, -, order, hperm, hascends, hsize, hplay⟩ := prepare_eq_play hv h hcode
  obtain ⟨s', hprepare⟩ := hplay contents entry ()
  have hmover {c : Chunk} (hc : c ∈ order) {m : Move} (hm : c.move? = some m) :
      m.Encodable ∧ ∃ stub, Code.X86.mover m = .ok stub :=
    have hchunk := hwhole c (hperm.mem_iff.1 hc)
    Chunk.exists_mover hchunk.length hchunk.start_lt hm
  have hbytes : ((List.range' code.start code.length).map contents).length = code.length := by simp
  have hplan := @Code.X86.play_plan [] _ order code entry (fun c hc m hm => (hmover hc hm).2)
    ((Nat.zero_add _).trans hbytes) (hsize.trans hbytes.symm)
  obtain ⟨bytes, hprogram, hplayed⟩ := hplan
  rw [List.length_nil, List.nil_append] at hplayed
  have hlength : (Code.play Code.X86.generator (Code.plan Code.X86.generator entry code 0 order)
      ((List.range' code.start code.length).map contents) ()).buffer.length = code.length :=
    (Code.length_play _ _ _).trans hbytes
  rw [hplayed] at hlength
  rw [hplayed] at hprepare
  have hencodable : ∀ m ∈ order.filterMap (·.move?), m.Encodable := by
    intro m hm
    obtain ⟨c, hc, hmove⟩ := List.mem_filterMap.1 hm
    exact (hmover hc hmove).1
  refine ⟨_, s', order.filterMap (·.move?), hprepare, rfl, rfl, hlength, ?_, ?_, ?_, ?_⟩
  · exact Code.X86.program?_eq_some hencodable hentry hprogram
  · exact hperm.filterMap _
  · refine List.pairwise_filterMap.2 (hascends.imp fun {a b} hlt m hm m' hm' => ?_)
    obtain ⟨direction, -, rfl⟩ := Option.map_eq_some_iff.1 hm
    obtain ⟨direction', -, rfl⟩ := Option.map_eq_some_iff.1 hm'
    exact hlt
  · intro moves' entry' hmoves' hentry' hprogram'
    exact Code.X86.program_inj hencodable hentry hmoves' hentry' hprogram hprogram'

/-- Two movers, one of each direction. -/
theorem prepare_decodes_two : ∃ (s s₁ s' : Running Firmware.Table) (code : Extent)
    (prepared : Prepared Unit) (moves : List Move),
    run? Firmware.ofTable Code.X86.generator [.stageAt 0x200000 0x200, .stageAt 0x8d80 0x100]
        { task := Task.start {} Code.X86.generator, firmware := smallFirmware } = some s ∧
      stageCode Firmware.ofTable Code.X86.generator s = .ok code s₁ ∧
      0x200000 < Address.limit ∧
      prepare Firmware.ofTable Code.X86.generator (fun _ => 0) 0x200000 () s = .ok prepared s' ∧
      prepared.outcome = .ok () ∧ prepared.buffer.length = 79 ∧
      Code.X86.program? prepared.buffer = some (moves, 0x200000) ∧
      moves.Perm [⟨0x8c00, 0x200000, 0x200, .backward⟩, ⟨0x8e00, 0x8d80, 0x100, .forward⟩] := by
  have hends : (run? Firmware.ofTable Code.X86.generator
      [.stageAt 0x200000 0x200, .stageAt 0x8d80 0x100]
      { task := Task.start {} Code.X86.generator, firmware := smallFirmware }).map (fun s =>
        match stageCode Firmware.ofTable Code.X86.generator s with
        | .ok code _ => some (code.length, s.task.chunks.filterMap (·.move?))
        | .error _ _ => none) =
      some (some (79,
        [⟨0x8c00, 0x200000, 0x200, .backward⟩, ⟨0x8e00, 0x8d80, 0x100, .forward⟩])) := by
    decide +kernel
  obtain ⟨s, hrun, hend⟩ := Option.map_eq_some_iff.1 hends
  split at hend
  case h_1 code s₁ hcode =>
    obtain ⟨hlength, hmoves⟩ := Prod.ext_iff.1 (Option.some.inj hend)
    have hentry : 0x200000 < Address.limit := by decide
    obtain ⟨prepared, s', moves, hprepare, -, hdone, hbytes, hread, hperm, -⟩ :=
      prepare_decodes .empty (reach_of_run? hrun).sameSizes hcode (fun _ => 0) hentry
    exact ⟨s, s₁, s', code, prepared, moves, hrun, hcode, hentry, hprepare, hdone,
      hbytes.trans hlength, hread, hperm.trans (.of_eq hmoves)⟩
  case h_2 => cases hend

end Staging.Task
