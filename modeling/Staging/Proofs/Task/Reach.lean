import Staging.Code.Scripted
import Staging.Firmware.Table
import Staging.Proofs.Task.Chunks

/-!
# States that are reached

A heap is reached by operations of a loader, and by tasks that ran on it.  A running task is
reached from its start by calls that end with a value or with an error (`Reach`); there is no state
behind a trap.  What generator a call has is left open, so the sizes of stubs may change from call
to call.

Every heap that is reached is valid (`Heap.Reachable.valid`).  In every state that is reached the
task owes just the loans of its chunks, and its chunks do not get in the way of later ones
(`Reach.staged`).
-/

namespace Staging

namespace Task

variable {φ γ : Type}

/-- A call of a loader.  The memory of the relocation code has some contents when it is emitted,
and the generator is in some state. -/
inductive Command (γ : Type) where
  | stageAt (target size : Nat)
  | stageWithin (low high size align : Nat) (preferred : WindowEnd)
  | prepare (contents : Nat → UInt8) (entry : Nat) (generator : γ)

/-- Perform a call, and forget what it yields. -/
def perform (fw : Firmware φ) (gen : Code.Generator γ) : Command γ → Action φ Unit
  | .stageAt target size => do
      let _ ← stageAt fw gen target size
  | .stageWithin low high size align preferred => do
      let _ ← stageWithin fw gen low high size align preferred
  | .prepare contents entry generator => do
      let _ ← prepare fw gen contents entry generator

/-- The state behind a call, whether that ends with a value or with an error; none behind a
trap. -/
def next? (fw : Firmware φ) (gen : Code.Generator γ) (command : Command γ) (s : Running φ) :
    Option (Running φ) :=
  match perform fw gen command s with
  | .ok () s' => some s'
  | .error (.error _) s' => some s'
  | .error (.trap _) _ => none

/-- The states of a task that starts on a heap, with a firmware in some state.  Each call has one
of the generators `gens`. -/
inductive Reach (fw : Firmware φ) (gens : Code.Generator γ → Prop) (origin : Heap)
    (firmware : φ) : Running φ → Prop where
  | start {gen : Code.Generator γ} (hgen : gens gen) :
      Reach fw gens origin firmware { task := Task.start origin gen, firmware }
  | call {s s' : Running φ} (h : Reach fw gens origin firmware s) {gen : Code.Generator γ}
      (hgen : gens gen) (command : Command γ) (hcall : next? fw gen command s = some s') :
      Reach fw gens origin firmware s'

/-- The state behind some calls, each with its generator; none if one of them traps. -/
def runAll? (fw : Firmware φ) :
    List (Code.Generator γ × Command γ) → Running φ → Option (Running φ)
  | [], s => some s
  | (gen, command) :: rest, s => (next? fw gen command s).bind (runAll? fw rest)

/-- The state behind some calls with one generator. -/
def run? (fw : Firmware φ) (gen : Code.Generator γ) (commands : List (Command γ)) :
    Running φ → Option (Running φ) :=
  runAll? fw (commands.map (gen, ·))

/-- A run of calls leads to a state that is reached. -/
theorem Reach.runAll {fw : Firmware φ} {gens : Code.Generator γ → Prop} {origin : Heap}
    {firmware : φ} {calls : List (Code.Generator γ × Command γ)} {s s' : Running φ}
    (h : Reach fw gens origin firmware s) (hgens : ∀ call ∈ calls, gens call.1)
    (hrun : runAll? fw calls s = some s') : Reach fw gens origin firmware s' := by
  induction calls generalizing s with
  | nil =>
      cases hrun
      exact h
  | cons call rest ih =>
      obtain ⟨hgen, hrest⟩ := List.forall_mem_cons.1 hgens
      obtain ⟨s₁, hcall, hrun⟩ := Option.bind_eq_some_iff.1 hrun
      exact ih (h.call hgen call.2 hcall) hrest hrun

/-- More generators lead to no fewer states. -/
theorem Reach.mono {fw : Firmware φ} {gens gens' : Code.Generator γ → Prop} {origin : Heap}
    {firmware : φ} {s : Running φ} (h : Reach fw gens origin firmware s)
    (hgens : ∀ gen, gens gen → gens' gen) : Reach fw gens' origin firmware s := by
  induction h with
  | start hgen => exact .start (hgens _ hgen)
  | call _ hgen command hcall ih => exact ih.call (hgens _ hgen) command hcall

/-- A run with one generator leads from the start to a state that is reached. -/
theorem reach_of_run? {fw : Firmware φ} {gen : Code.Generator γ} {origin : Heap} {firmware : φ}
    {commands : List (Command γ)} {s : Running φ}
    (hrun : run? fw gen commands { task := Task.start origin gen, firmware } = some s) :
    Reach fw (· = gen) origin firmware s := by
  refine Reach.runAll (.start rfl) (fun call hcall => ?_) hrun
  obtain ⟨command, -, rfl⟩ := List.mem_map.1 hcall
  rfl

end Task

/-- The heaps that operations of a loader and tasks lead to. -/
inductive Heap.Reachable : Heap → Prop where
  | empty : Reachable {}
  | performed {heap heap' : Heap} (h : Reachable heap) (operation : Operation) {answer : Answer}
      (hop : heap.perform operation = .ok answer heap') : Reachable heap'
  | staged {heap : Heap} (h : Reachable heap) {φ γ : Type} {fw : Firmware φ}
      {gens : Code.Generator γ → Prop} {firmware : φ} {s : Task.Running φ}
      (hs : Task.Reach fw gens heap firmware s) : Reachable s.task.heap

namespace Task

variable {φ γ : Type} {origin : Heap} {fw : Firmware φ} {gens : Code.Generator γ → Prop}
  {track : φ → List Extent → Prop} {s : Running φ}

/-- **Each call** keeps what holds of a running task between its calls. -/
theorem perform_spec (gen : Code.Generator γ) (hv : origin.Valid) (hfw : fw.Tracks track)
    (command : Command γ) (h : Staged origin track s) :
    Post (perform fw gen command) (fun _ => Staged origin track) (Staged origin track) s := by
  cases command with
  | stageAt target size =>
      refine Post.bind ((stageAt_spec hv hfw target size h).mono (fun _ _ => id)
        fun _ hs' => hs'.staged) fun _ _ ⟨_, _, _, _, hadds⟩ => hadds.staged
  | stageWithin low high size align preferred =>
      refine Post.bind ((stageWithin_spec hv hfw low high size align preferred h).mono
        (fun _ _ => id) fun _ hs' => hs'.staged) fun _ _ ⟨_, _, _, hadds⟩ => hadds.staged
  | prepare contents entry generator =>
      refine Post.bind ((prepare_spec hv hfw contents entry generator h).mono (fun _ _ => id)
        fun _ hs' => hs'.staged) fun _ _ ⟨_, _, _, hadds, _⟩ => hadds.staged

/-- The state behind a call is one that the call ends in, with a value or with an error. -/
theorem Post.of_next? {gen : Code.Generator γ} {command : Command γ} {s' : Running φ}
    {P Q : Running φ → Prop}
    (h : Post (perform fw gen command) (fun _ => P) Q s)
    (hcall : next? fw gen command s = some s') : P s' ∨ Q s' := by
  unfold next? at hcall
  split at hcall
  case h_1 hdone =>
    cases hcall
    exact .inl (h.of_ok hdone)
  case h_2 hrefused =>
    cases hcall
    exact .inr (h.of_error hrefused)
  case h_3 => cases hcall

/-- **In every state that is reached** a task owes just the loans of its chunks. -/
theorem Reach.staged {firmware : φ} (h : Reach fw gens origin firmware s) (hv : origin.Valid)
    (hfw : fw.Tracks track) (hstart : track firmware []) : Staged origin track s := by
  induction h with
  | start => exact ⟨⟨.none, rfl, hstart⟩, arranged_nil⟩
  | @call _ _ _ gen _ command hcall ih =>
      exact or_self_iff.1 ((perform_spec gen hv hfw command ih).of_next? hcall)

end Task

/-- **Every heap that is reached is valid.** -/
theorem Heap.Reachable.valid {heap : Heap} (h : heap.Reachable) : heap.Valid := by
  induction h with
  | empty => exact valid_empty
  | performed _ operation hop ih => exact ih.perform hop
  | @staged heap _ φ γ fw gens firmware s hs ih =>
      have hstaged := hs.staged ih fw.tracks_nothing trivial
      exact hstaged.owes.heap.valid ih

/-- Operations of a loader, those that end in an error passed over, lead to a heap that is
reached. -/
theorem Heap.Reachable.run {heap : Heap} (h : heap.Reachable) (operations : List Operation) :
    (heap.run operations).1.Reachable :=
  (run_induction h.valid h (fun _ _ operation _ _ hr hop => hr.performed operation hop)
    operations).2

/-! ### A small loader -/

/-- A heap of two regions, with an allocation at the start of the first. -/
def smallHeap : Heap :=
  (({} : Heap).run [.addRegion ⟨0x1000, 0x3000, by decide, by decide⟩,
    .addRegion ⟨0x4000, 0x6000, by decide, by decide⟩, .allocate 0x100 16]).1

theorem smallHeap_reachable : smallHeap.Reachable := Heap.Reachable.empty.run _

/-- The memory between the two regions. -/
def smallGap : Extent := ⟨0x3000, 0x4000, by decide, by decide⟩

/-- A firmware that lists memory of the heap as well, and refuses the end of its last page. -/
def smallFirmware : Firmware.Table where
  available := [⟨0x5000, 0x7000, by decide, by decide⟩, ⟨0x8000, 0x9000, by decide, by decide⟩]
  refusals := [⟨0x8f00, 0x9000, by decide, by decide⟩]

/-- A generator of short stubs. -/
def smallGenerator : Code.Generator Code.Script.Count :=
  ({ forward := 20, backward := 24, jumper := 12 } : Code.Script).generator

end Staging
