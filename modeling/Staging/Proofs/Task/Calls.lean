import Staging.Proofs.Code.Plan
import Staging.Proofs.Task.Delivery
import Staging.Proofs.Task.Marks

/-!
# The calls of a hand-off

The books count the bytes of the relocation code as chunks are registered (`Reach.codeSize`).  The
emission is for the same chunks in another order, less the chunk of the code, which has no stub.
This holds for a generator whose stubs have had the same sizes since the task began.
So the stubs fill the memory that was reserved for them to the last byte, and a hand-off makes the
calls of its plan up to the first one that fails (`prepare_plays`).
-/

namespace Staging

/-- The other generator has stubs of the same sizes. -/
def Code.Generator.SameSizes {γ : Type} (gen other : Code.Generator γ) : Prop :=
  other.jumperSize = gen.jumperSize ∧ other.moverSize = gen.moverSize

theorem Chunk.stubSize_eq {γ : Type} {gen other : Code.Generator γ} (h : gen.SameSizes other)
    (c : Chunk) : c.stubSize other = c.stubSize gen := by
  rw [stubSize, stubSize, h.2]

namespace Task

variable {φ γ : Type} {origin : Heap} {fw : Firmware φ} {gen : Code.Generator γ}
  {track : φ → List Extent → Prop} {chunks : List Chunk} {c : Chunk} {code : Extent}
  {s s' : Running φ}

/-! ### The size of the code -/

theorem Counts.codeSize {other : Code.Generator γ} {m : Task} (h : Counts other m s)
    (hsizes : gen.SameSizes other) (hm : m.codeSize = Code.size gen m.chunks) :
    s.task.codeSize = Code.size gen s.task.chunks := by
  obtain ⟨c, lowered, hlowers, hmarked⟩ := h
  have hsize : s.task.codeSize = lowered.codeSize + c.stubSize other :=
    congrArg (fun m : Task => m.codeSize) hmarked
  have hchunks : s.task.chunks = lowered.chunks ++ [c] :=
    congrArg (fun m : Task => m.chunks) hmarked
  rw [hsize, hchunks, hlowers.codeSize, hlowers.chunks, hm, c.stubSize_eq hsizes]
  simp only [Code.size, List.map_append, List.sum_append, List.map_singleton, List.sum_singleton]
  omega

/-- **The size of the code** is that of the stubs of all chunks and of the jumper. -/
theorem Reach.codeSize {firmware : φ} (h : Reach fw gen.SameSizes origin firmware s) :
    s.task.codeSize = Code.size gen s.task.chunks := by
  induction h with
  | start hgen => exact hgen.1
  | @call s s' _ other hgen command hcall ih =>
      have hends := (perform_counts command (rfl : Marked s.task.marks s)).of_next? hcall
      rcases hends with hcounts | hmarks
      · exact hcounts.codeSize hgen ih
      · have hsame : s'.task.marks = s.task.marks := hmarks
        show s'.task.marks.codeSize = Code.size gen s'.task.marks.chunks
        rw [hsame]
        exact ih

/-- A task that has one generator all along has stubs of one size. -/
theorem Reach.sameSizes {firmware : φ} (h : Reach fw (· = gen) origin firmware s) :
    Reach fw gen.SameSizes origin firmware s :=
  h.mono fun _ heq => heq ▸ ⟨rfl, rfl⟩

/-! ### The chunks of the emission -/

/-- **The emission is for all chunks before** that of the relocation code. -/
theorem sequence_perm_chunks (hv : origin.Valid) (hadds : Adds origin track chunks c s)
    (hsource : c.source = code) : (s.task.sequence code).Perm chunks := by
  have hsources := sources_apart hv hadds.staged.owes.heap hadds.staged.arranged
  have hc := hadds.staged.arranged.whole c (by simp [hadds.chunks])
  rw [hadds.chunks] at hsources
  have hother : ∀ b ∈ chunks, b.source ≠ code := by
    intro b hb heq
    have hapart := (List.pairwise_append.1 hsources).2.2 b hb c (List.mem_singleton.2 rfl)
    rw [heq, hsource] at hapart
    exact Extent.not_apart_self (hsource ▸ hc.start_lt) hapart
  have hfilter : (s.task.chunks.filter fun b => b.source ≠ code) = chunks := by
    rw [hadds.chunks, List.filter_append, List.filter_eq_self.2 fun b hb => by simp [hother b hb]]
    simp [hsource]
  exact hfilter ▸ sequence_perm s.task code

/-- The sources of the emission ascend strictly, since no two are at one address. -/
theorem sequence_ascends (hv : origin.Valid) (h : Staged origin track s) (code : Extent) :
    (s.task.sequence code).Pairwise fun a b => a.source.start < b.source.start := by
  have hsources := pairwise_sequence_of Extent.Apart.symm
    (sources_apart hv h.owes.heap h.arranged) code
  have hboth := (pairwise_sequence s.task code).and hsources
  refine hboth.imp_of_mem fun {a b} ha hb ⟨hle, hapart⟩ => ?_
  have hwhole := h.arranged.whole a (mem_sequence_iff.1 ha).1
  have hwhole' := h.arranged.whole b (mem_sequence_iff.1 hb).1
  have hlt := hwhole.start_lt
  have hlt' := hwhole'.start_lt
  rcases hapart with hbelow | habove <;> omega

/-! ### The hand-off -/

/-- What a hand-off leaves behind is what the calls of its plan do.  The plan is for the chunks that
were there, in the order of their sources. -/
theorem prepare_eq_play {firmware : φ} {s₁ : Running φ} (hv : origin.Valid)
    (h : Reach fw gen.SameSizes origin firmware s) (hcode : stageCode fw gen s = .ok code s₁) :
    code.length = s.task.codeSize ∧ code.start < code.stop ∧
      ∃ order : List Chunk, order.Perm s.task.chunks ∧
        (order.Pairwise fun a b => a.source.start < b.source.start) ∧
        Code.size gen order = code.length ∧
        ∀ (contents : Nat → UInt8) (entry : Nat) (generator : γ),
          let played := Code.play gen (Code.plan gen entry code 0 order)
            ((List.range' code.start code.length).map contents) generator
          ∃ s', prepare fw gen contents entry generator s =
            .ok ⟨code, played.buffer, played.calls, played.state, played.outcome⟩ s' := by
  obtain ⟨hlength, c, hsource, htarget, hadds⟩ :=
    (stageCode_spec hv fw.tracks_nothing (h.staged hv fw.tracks_nothing trivial)).of_ok hcode
  have hc := hadds.staged.arranged.whole c (by simp [hadds.chunks])
  have hperm := sequence_perm_chunks hv hadds hsource
  have hsize : Code.size gen (s₁.task.sequence code) = code.length := by
    rw [hlength, h.codeSize, Code.size, Code.size, (hperm.map _).sum_nat]
  refine ⟨hlength, hsource ▸ hc.start_lt, s₁.task.sequence code, hperm,
    sequence_ascends hv hadds.staged code, hsize, fun contents entry generator => ?_⟩
  have hbytes : ((List.range' code.start code.length).map contents).length = code.length := by simp
  obtain ⟨houtcome, hbuffer, hstate, hcalls⟩ :=
    Code.Emission.run_eq_play hbytes hsize entry generator
  obtain ⟨s', hprepare, -⟩ := prepare_eq_ok hcode (Prod.ext houtcome rfl)
  refine ⟨s', hprepare.trans ?_⟩
  rw [hbuffer, hstate, hcalls]

/-- **A hand-off makes the calls of its plan.**  In every state that a task reaches, the size of the
code counts the jumper and the movers of all chunks that are not in place.  If the code has a place,
the hand-off calls the generator for each chunk that was there, once and in the strict order of the
sources, then for the jumper and for the code.  The stubs fill the code, each one behind those
before it, and all calls are made unless one fails: then it is the last one, and its error is what
the emission ends with. -/
theorem prepare_plays {firmware : φ} (horigin : origin.Reachable)
    (h : Reach fw gen.SameSizes origin firmware s) :
    s.task.codeSize = Code.size gen s.task.chunks ∧
      ∀ {s₁ : Running φ}, stageCode fw gen s = .ok code s₁ →
        code.length = s.task.codeSize ∧ code.start < code.stop ∧
          ∃ order : List Chunk, order.Perm s.task.chunks ∧
            (order.Pairwise fun a b => a.source.start < b.source.start) ∧
            Code.size gen order = code.length ∧
            ∀ (contents : Nat → UInt8) (entry : Nat) (generator : γ),
              let calls := Code.plan gen entry code 0 order
              let buffer := (List.range' code.start code.length).map contents
              ∃ prepared s', prepare fw gen contents entry generator s = .ok prepared s' ∧
                prepared.code = code ∧
                (⟨prepared.calls, prepared.buffer, prepared.generator, prepared.outcome⟩ :
                  Code.Played γ) = Code.play gen calls buffer generator ∧
                (prepared.outcome = .ok () → prepared.calls = calls) ∧
                ∀ cause, prepared.outcome = .error cause →
                  ∃ done rest call buffer state, calls = done ++ call :: rest ∧
                    prepared.calls = done ++ [call] ∧
                    (Code.Call.make gen call buffer state).outcome = .error cause := by
  refine ⟨h.codeSize, fun {s₁} hcode => ?_⟩
  obtain ⟨hlength, hbyte, order, hperm, hascends, hsize, hplay⟩ :=
    prepare_eq_play horigin.valid h hcode
  refine ⟨hlength, hbyte, order, hperm, hascends, hsize, fun contents entry generator => ?_⟩
  obtain ⟨s', hprepare⟩ := hplay contents entry generator
  refine ⟨_, s', hprepare, rfl, rfl, Code.calls_of_play_ok, fun cause hcause => ?_⟩
  obtain ⟨done, rest, call, buffer, state, hsplit⟩ := Code.calls_of_play_error hcause
  exact ⟨done, rest, call, buffer, state, hsplit⟩

/-- A generator whose jumper fails. -/
def failingGenerator : Code.Generator Code.Script.Count :=
  ({ forward := 20, backward := 24, jumper := 12, failingJumper := some 0 } : Code.Script).generator

/-- A chunk in place and one that moves.  The jumper fails, so the code is not synchronized. -/
theorem prepare_plays_failing : ∃ (s s₁ s' : Running Firmware.Table) (code : Extent)
    (prepared : Prepared Code.Script.Count) (order : List Chunk),
    run? Firmware.ofTable failingGenerator
        [.stageAt 0x200000 0x200, .stageWithin 0x8000 0x9000 0x100 0x10 .low]
        { task := Task.start {} failingGenerator, firmware := smallFirmware } = some s ∧
      stageCode Firmware.ofTable failingGenerator s = .ok code s₁ ∧
      s.task.codeSize = Code.size failingGenerator s.task.chunks ∧ code.length = 36 ∧
      prepare Firmware.ofTable failingGenerator (fun _ => 0) 0x200000 {} s = .ok prepared s' ∧
      prepared.outcome = .error (.addressNotEncodable 0x200000) ∧
      prepared.calls = [.sync 0x8000 0x100, .mover ⟨0x8c00, 0x200000, 0x200, .backward⟩ 36,
        .jumper 0x200000 12] ∧
      order.Perm s.task.chunks ∧ ∃ done rest call,
        Code.plan failingGenerator 0x200000 code 0 order = done ++ call :: rest ∧
          prepared.calls = done ++ [call] := by
  have hends : (run? Firmware.ofTable failingGenerator
      [.stageAt 0x200000 0x200, .stageWithin 0x8000 0x9000 0x100 0x10 .low]
      { task := Task.start {} failingGenerator, firmware := smallFirmware }).map (fun s =>
        match stageCode Firmware.ofTable failingGenerator s with
        | .ok code _ =>
            let played := Code.play failingGenerator
              (Code.plan failingGenerator 0x200000 code 0 s.task.chunks.reverse)
              ((List.range' code.start code.length).map fun _ => 0) {}
            some (decide (code.length = 36 ∧ (s.task.chunks.reverse.Pairwise fun a b =>
              a.source.start < b.source.start) ∧
              played.outcome = .error (.addressNotEncodable 0x200000)), played.calls)
        | .error _ _ => none) =
      some (some (true, [.sync 0x8000 0x100,
        .mover ⟨0x8c00, 0x200000, 0x200, .backward⟩ 36, .jumper 0x200000 12])) := by
    decide +kernel
  obtain ⟨s, hrun, hend⟩ := Option.map_eq_some_iff.1 hends
  split at hend
  case h_2 => cases hend
  case h_1 code s₁ hcode =>
    simp only [Option.some.injEq, Prod.mk.injEq, decide_eq_true_eq] at hend
    obtain ⟨⟨hlength, hreversed, hfails⟩, hcalls⟩ := hend
    obtain ⟨hsize, hplays⟩ := prepare_plays .empty (reach_of_run? hrun).sameSizes
    obtain ⟨-, -, order, hperm, hascends, -, hprepared⟩ := hplays hcode
    -- The chunk in place was staged last, and has the lower source.
    obtain rfl : order = s.task.chunks.reverse :=
      (hperm.trans (List.reverse_perm _).symm).eq_of_pairwise
        (fun _ _ _ _ hlt hgt => absurd hlt (Nat.lt_asymm hgt)) hascends hreversed
    obtain ⟨prepared, s', hprepare, -, hplayed, -, herror⟩ := hprepared (fun _ => 0) 0x200000 {}
    have hfails' : prepared.outcome = .error (.addressNotEncodable 0x200000) :=
      (congrArg Code.Played.outcome hplayed).trans hfails
    obtain ⟨done, rest, call, -, -, hsplit, hmade, -⟩ := herror _ hfails'
    exact ⟨s, s₁, s', code, prepared, _, hrun, hcode, hsize, hlength, hprepare, hfails',
      (congrArg Code.Played.calls hplayed).trans hcalls, hperm, done, rest, call, hsplit, hmade⟩

end Task

end Staging
