import Staging.Proofs.Task.Marks

/-!
# The post area

The marks of a task divide its sources in two.  Those that start below the post area are ordinary
and end below it, the others lie in it, and none lies across its start (`PostArea`).  The start of
the post area may move down after sources were counted as ordinary, and ordinary searches may find
sources above it, so counting in a chunk keeps the division only since sources are apart and since
the post area never moves over an ordinary source (`PostArea.count`).
-/

namespace Staging.Task

variable {φ γ : Type} {fw : Firmware φ} {gen : Code.Generator γ}
  {gens : Code.Generator γ → Prop} {origin : Heap}
  {track : φ → List Extent → Prop} {s s' : Running φ}

/-- The highest address behind a source of these chunks, zero if there are none. -/
def highestStop (chunks : List Chunk) : Nat := (chunks.map (·.source.stop)).foldl max 0

theorem highestStop_concat (chunks : List Chunk) (c : Chunk) :
    highestStop (chunks ++ [c]) = max (highestStop chunks) c.source.stop := by
  simp [highestStop]

/-- What the marks of a task say about its sources. -/
structure PostArea (task : Task) : Prop where
  /-- The post area lies above the ordinary sources. -/
  above : task.highestOrdinary ≤ task.postStart
  /-- No source lies across the start of the post area. -/
  sides : ∀ c ∈ task.chunks,
    task.postStart ≤ c.source.start ∨ c.source.stop ≤ task.highestOrdinary
  ordinary : task.highestOrdinary =
    highestStop (task.chunks.filter fun c => c.source.start < task.postStart)
  highest : task.highest = highestStop task.chunks
  start_le : task.postStart ≤ Address.top
  /-- The post area starts where one of its sources does. -/
  start : task.postStart < Address.top → ∃ c ∈ task.chunks, c.source.start = task.postStart

theorem postArea_start (heap : Heap) (gen : Code.Generator γ) : PostArea (Task.start heap gen) where
  above := Nat.zero_le _
  sides := by simp [Task.start]
  ordinary := rfl
  highest := rfl
  start_le := Nat.le_refl _
  start h := absurd h (Nat.lt_irrefl _)

/-- The division is a matter of the marks. -/
theorem postArea_marks_iff {task : Task} : PostArea task.marks ↔ PostArea task :=
  ⟨fun h => ⟨h.above, h.sides, h.ordinary, h.highest, h.start_le, h.start⟩,
    fun h => ⟨h.above, h.sides, h.ordinary, h.highest, h.start_le, h.start⟩⟩

namespace PostArea

variable {m lowered : Task} {c : Chunk}

/-- A source that starts below the post area ends there at the latest, since one that is apart from
it starts with the post area. -/
theorem stop_le (h : PostArea m) (hne : ∀ a ∈ m.chunks, a.source.start < a.source.stop)
    (hapart : ∀ a ∈ m.chunks, a.source.Apart c.source) (hbelow : c.source.start < m.postStart) :
    c.source.stop ≤ m.postStart := by
  by_cases htop : m.postStart < Address.top
  · obtain ⟨a, ha, hstart⟩ := h.start htop
    rcases hapart a ha with hle | hle
    · have := hne a ha
      omega
    · exact hstart ▸ hle
  · have hlt := c.source.stop_lt
    simp only [Address.top, Nat.not_lt] at htop
    omega

/-- Where the post area moves down to a source above the ordinary ones, these stay ordinary. -/
theorem filter_lower (h : PostArea m) (hne : ∀ a ∈ m.chunks, a.source.start < a.source.stop)
    {e : Extent} (habove : m.highestOrdinary ≤ e.start) :
    (m.chunks.filter fun a => a.source.start < (m.lower e).postStart) =
      m.chunks.filter fun a => a.source.start < m.postStart := by
  refine List.filter_congr fun a ha => decide_eq_decide.2 ?_
  constructor
  · intro hlt
    exact Nat.lt_of_lt_of_le hlt (Nat.min_le_left _ _)
  · intro hlt
    have hstop := (h.sides a ha).resolve_left (Nat.not_le.2 hlt)
    have hordinary := Nat.lt_of_lt_of_le (hne a ha) hstop
    exact Nat.lt_min.2 ⟨hlt, Nat.lt_of_lt_of_le hordinary habove⟩

/-- A source that the post area was extended down to is not an ordinary one. -/
theorem highestOrdinary_count_lower (m : Task) (c : Chunk) :
    ((m.lower c.source).count gen c).highestOrdinary = m.highestOrdinary :=
  if_neg (Nat.not_lt.2 (Nat.min_le_right _ _))

/-- **Counting in a chunk** keeps the division, if its source is apart from the others. -/
theorem count (h : PostArea m) (hlowers : Lowers m c.source lowered)
    (hne : ∀ a ∈ m.chunks, a.source.start < a.source.stop)
    (hc : c.source.start < c.source.stop)
    (hapart : ∀ a ∈ m.chunks, a.source.Apart c.source) : PostArea (lowered.count gen c) := by
  cases hlowers with
  | ordinary =>
      have hbelow := h.stop_le hne hapart
      have hmarks := h.above
      refine ⟨?_, ?_, ?_, ?_, h.start_le, ?_⟩
      · simp only [Task.count]
        split <;> omega
      · intro a ha
        simp only [Task.count, List.mem_append, List.mem_singleton] at ha ⊢
        rcases ha with ha | rfl
        · rcases h.sides a ha with hside | hside
          · exact .inl hside
          · split <;> omega
        · split <;> omega
      · by_cases hside : c.source.start < m.postStart
        · simp [Task.count, hside, highestStop_concat, h.ordinary]
        · simp [Task.count, hside, h.ordinary]
      · simp only [Task.count, highestStop_concat, h.highest]
      · intro htop
        obtain ⟨a, ha, hstart⟩ := h.start htop
        exact ⟨a, List.mem_append_left _ ha, hstart⟩
  | post habove =>
      refine ⟨?_, ?_, ?_, ?_, Nat.le_trans (Nat.min_le_left _ _) h.start_le, ?_⟩
      · rw [highestOrdinary_count_lower]
        exact Nat.le_min.2 ⟨h.above, habove⟩
      · intro a ha
        rw [highestOrdinary_count_lower]
        rcases List.mem_append.1 ha with ha | ha
        · exact (h.sides a ha).imp_left (Nat.le_trans (Nat.min_le_left _ _))
        · cases List.mem_singleton.1 ha
          exact .inl (Nat.min_le_right _ _)
      · have hside : ¬ c.source.start < (m.lower c.source).postStart :=
          Nat.not_lt.2 (Nat.min_le_right _ _)
        have hfilter : ((m.lower c.source).chunks ++ [c]).filter
            (fun a => a.source.start < (m.lower c.source).postStart) =
              m.chunks.filter fun a => a.source.start < m.postStart := by
          rw [List.filter_append, List.filter_cons_of_neg (by simpa using hside), List.filter_nil,
            List.append_nil]
          exact h.filter_lower hne habove
        rw [highestOrdinary_count_lower, h.ordinary]
        exact congrArg highestStop hfilter.symm
      · simp only [Task.count, highestStop_concat, lower, h.highest]
      · intro htop
        by_cases hle : m.postStart ≤ c.source.start
        · have hsame : (m.lower c.source).postStart = m.postStart := Nat.min_eq_left hle
          obtain ⟨a, ha, hstart⟩ := h.start (hsame ▸ htop)
          exact ⟨a, List.mem_append_left _ ha, hstart.trans hsame.symm⟩
        · exact ⟨c, List.mem_append_right _ List.mem_cons_self,
            (Nat.min_eq_right (Nat.le_of_not_le hle)).symm⟩

end PostArea

theorem Lowers.postStart_le {m lowered : Task} {e : Extent} (h : Lowers m e lowered) :
    lowered.postStart ≤ m.postStart := by
  cases h with
  | ordinary => exact Nat.le_refl _
  | post _ => exact Nat.min_le_left _ _

/-- **A chunk that was counted in** keeps the division, and the post area only moves down. -/
theorem PostArea.counts (hv : origin.Valid) (h : PostArea s.task)
    (hcounts : Counts gen s.task.marks s') (hs' : Staged origin track s') :
    PostArea s'.task ∧ s'.task.postStart ≤ s.task.postStart := by
  obtain ⟨c, lowered, hlowers, hmarks⟩ := hcounts
  have hsame : s'.task.marks = lowered.count gen c := hmarks
  have hchunks : s'.task.chunks = s.task.chunks ++ [c] := by
    have hcounted : s'.task.marks.chunks = lowered.chunks ++ [c] := by
      rw [hsame]
      rfl
    rwa [hlowers.chunks] at hcounted
  have hpost : s'.task.marks.postStart = lowered.postStart := by
    rw [hsame]
    rfl
  have hwhole : ∀ a ∈ s.task.chunks ++ [c], a.source.start < a.source.stop :=
    fun a ha => (hs'.arranged.whole a (hchunks ▸ ha)).start_lt
  have hsources := hchunks ▸ sources_apart hv hs'.owes.heap hs'.arranged
  refine ⟨postArea_marks_iff.1 (hsame ▸ ?_), ?_⟩
  · refine (postArea_marks_iff.2 h).count hlowers ?_ ?_ ?_
    · exact fun a ha => hwhole a (List.mem_append_left _ ha)
    · exact hwhole c (List.mem_append_right _ List.mem_cons_self)
    · exact fun a ha => (List.pairwise_append.1 hsources).2.2 a ha c List.mem_cons_self
  · exact Nat.le_trans (Nat.le_of_eq hpost) hlowers.postStart_le

/-- **Each call** keeps the division, and the post area only moves down. -/
theorem next?_postArea (hv : origin.Valid) (hfw : fw.Tracks track) {command : Command γ}
    (hs : Staged origin track s) (h : PostArea s.task) (hcall : next? fw gen command s = some s') :
    PostArea s'.task ∧ s'.task.postStart ≤ s.task.postStart := by
  have hboth := (perform_spec gen hv hfw command hs).and
    (perform_counts command (rfl : Marked s.task.marks s))
  rcases hboth.of_next? hcall with ⟨hs', hcounts⟩ | ⟨-, hmarks⟩
  · exact h.counts hv hcounts hs'
  · have hsame : s'.task.marks = s.task.marks := hmarks
    refine ⟨postArea_marks_iff.1 (hsame ▸ postArea_marks_iff.2 h), ?_⟩
    exact Nat.le_of_eq (show s'.task.marks.postStart = s.task.marks.postStart by rw [hsame])

theorem Reach.postArea {firmware : φ} (hv : origin.Valid) (h : Reach fw gens origin firmware s) :
    PostArea s.task := by
  induction h with
  | start => exact postArea_start origin _
  | call h _ command hcall ih =>
      have hstaged := h.staged hv fw.tracks_nothing trivial
      exact (next?_postArea hv fw.tracks_nothing hstaged ih hcall).1

/-- **Whatever calls follow**, the post area only moves down. -/
theorem postStart_le_of_runAll? (hv : origin.Valid) (hfw : fw.Tracks track)
    {calls : List (Code.Generator γ × Command γ)} {s' : Running φ} (hs : Staged origin track s)
    (h : PostArea s.task) (hrun : runAll? fw calls s = some s') :
    s'.task.postStart ≤ s.task.postStart := by
  induction calls generalizing s with
  | nil =>
      cases hrun
      exact Nat.le_refl _
  | cons call rest ih =>
      obtain ⟨s₁, hcall, hrest⟩ := Option.bind_eq_some_iff.1 hrun
      have hs₁ := or_self_iff.1 ((perform_spec call.1 hv hfw call.2 hs).of_next? hcall)
      obtain ⟨harea, hdown⟩ := next?_postArea hv hfw hs h hcall
      exact Nat.le_trans (ih hs₁ harea hrest) hdown

/-- **The post area divides the sources.**  In every state that a task reaches, the marks say which
sources lie in the post area and which do not, and the post area only moves down, whatever calls
follow. -/
theorem postArea_of_reach {firmware : φ} (horigin : origin.Reachable)
    (h : Reach fw gens origin firmware s) :
    PostArea s.task ∧ ∀ (calls : List (Code.Generator γ × Command γ)) (s' : Running φ),
      runAll? fw calls s = some s' → s'.task.postStart ≤ s.task.postStart := by
  have hv := horigin.valid
  have hstaged := h.staged hv fw.tracks_nothing trivial
  exact ⟨h.postArea hv, fun calls s' hrun =>
    postStart_le_of_runAll? hv fw.tracks_nothing hstaged (h.postArea hv) hrun⟩

/-- An ordinary source, and two calls that move the post area down to their sources. -/
theorem postArea_of_three : ∃ s₁ s₂ : Running Firmware.Table,
    run? Firmware.ofTable smallGenerator [.stageAt 0x200 0x40, .stageAt 0x9000 0x40]
        { task := Task.start smallHeap smallGenerator, firmware := smallFirmware } = some s₁ ∧
      run? Firmware.ofTable smallGenerator [.stageAt 0x8c00 0x300] s₁ = some s₂ ∧
      s₁.task.postStart = 0x8ec0 ∧ s₂.task.postStart = 0x8bc0 ∧ s₂.task.highestOrdinary = 0x1160 ∧
      PostArea s₁.task ∧ s₂.task.postStart ≤ s₁.task.postStart := by
  have hends : (run? Firmware.ofTable smallGenerator [.stageAt 0x200 0x40, .stageAt 0x9000 0x40]
      { task := Task.start smallHeap smallGenerator, firmware := smallFirmware }).map (fun s₁ =>
        (s₁.task.postStart, (run? Firmware.ofTable smallGenerator [.stageAt 0x8c00 0x300] s₁).map
          fun s₂ => (s₂.task.postStart, s₂.task.highestOrdinary))) =
      some (0x8ec0, some (0x8bc0, 0x1160)) := by
    decide +kernel
  obtain ⟨s₁, hrun, hend⟩ := Option.map_eq_some_iff.1 hends
  obtain ⟨hfirst, hend⟩ := Prod.ext_iff.1 hend
  obtain ⟨s₂, hrun', hend⟩ := Option.map_eq_some_iff.1 hend
  obtain ⟨hsecond, hordinary⟩ := Prod.ext_iff.1 hend
  obtain ⟨harea, hdown⟩ := postArea_of_reach smallHeap_reachable (reach_of_run? hrun)
  exact ⟨s₁, s₂, hrun, hrun', hfirst, hsecond, hordinary, harea, hdown _ _ hrun'⟩

end Staging.Task
