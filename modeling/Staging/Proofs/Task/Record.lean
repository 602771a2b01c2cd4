import Staging.Proofs.Task.Following

/-!
# A record of the calls of a firmware

Any firmware can be given a record of the calls that reserve or release memory
(`Firmware.recorded`), which changes nothing for a task.  The record can be replayed: it says which
blocks are held, and a block is released only if it is held (`Call.replay`).
-/

namespace Staging.Firmware

variable {φ : Type}

/-- A call that reserves or releases memory. -/
inductive Call where
  | reserve (extent : Extent) (granted : Bool)
  | release (extent : Extent)
deriving DecidableEq

namespace Call

/-- The extent that a call got. -/
def granted? : Call → Option Extent
  | reserve extent true => some extent
  | _ => none

/-- The extent that a call gave back. -/
def released? : Call → Option Extent
  | release extent => some extent
  | _ => none

/-- The extents that are held after one more call; none if it releases what is not held. -/
def replay (held : List Extent) : Call → Option (List Extent)
  | reserve extent granted => some (if granted then held ++ [extent] else held)
  | release extent => if extent ∈ held then some (held.erase extent) else none

/-- In a record that can be replayed, what was held and granted is what was released and is held
now. -/
theorem perm_of_replay {calls : List Call} {held held' : List Extent}
    (h : calls.foldlM replay held = some held') :
    (held ++ calls.filterMap granted?).Perm (calls.filterMap released? ++ held') := by
  induction calls generalizing held with
  | nil =>
      cases h
      simp
  | cons call rest ih =>
      rw [List.foldlM_cons] at h
      obtain ⟨mid, hcall, hrest⟩ := Option.bind_eq_some_iff.1 h
      have hperm := ih hrest
      match call, hcall with
      | .reserve extent true, hcall =>
          cases hcall
          simpa [List.filterMap_cons, granted?, released?] using hperm
      | .reserve extent false, hcall =>
          cases hcall
          simpa [List.filterMap_cons, granted?, released?] using hperm
      | .release extent, hcall =>
          simp only [replay] at hcall
          split at hcall
          case isFalse => contradiction
          case isTrue hheld =>
            cases hcall
            have hout := (List.perm_cons_erase hheld).append_right (rest.filterMap granted?)
            simpa [List.filterMap_cons, granted?, released?] using hout.trans (hperm.cons extent)

end Call

/-- Every block that was granted was released once, and nothing else was. -/
structure Balanced (calls : List Call) : Prop where
  perm : (calls.filterMap (·.released?)).Perm (calls.filterMap (·.granted?))
  replay : calls.foldlM Call.replay [] = some []

theorem balanced_of_replay {calls : List Call} (h : calls.foldlM Call.replay [] = some []) :
    Balanced calls := by
  refine ⟨?_, h⟩
  have hperm := Call.perm_of_replay h
  rw [List.nil_append, List.append_nil] at hperm
  exact hperm.symm

/-- The firmware with a record of the calls beside its state. -/
def recorded (fw : Firmware φ) : Firmware (φ × List Call) where
  eventCapacity s := fw.eventCapacity s.1
  available s :=
    let reply := fw.available s.1
    { reply with state := (reply.state, s.2) }
  reserve extent s :=
    let reply := fw.reserve extent s.1
    { reply with state := (reply.state, s.2 ++ [.reserve extent reply.value]) }
  release extent s :=
    let reply := fw.release extent s.1
    { reply with state := (reply.state, s.2 ++ [.release extent]) }

/-- A record changes nothing for a task. -/
theorem recorded_follows (fw : Firmware φ) : fw.recorded.Follows Prod.fst fw :=
  ⟨fun _ => rfl, fun _ => rfl, fun _ _ => rfl, fun _ _ => rfl⟩

/-- A record says which blocks are held, if it is known what was held when it began. -/
theorem recorded_tracks_from (fw : Firmware φ) (held : List Extent) :
    fw.recorded.Tracks fun s blocks => s.2.foldlM Call.replay held = some blocks where
  available hheld := hheld
  granted hheld hgranted := by
    have hcall : (fw.reserve _ _).value = true := hgranted
    simp [recorded, List.foldlM_append, hheld, Call.replay, hcall]
  refused hheld hrefused := by
    have hcall : (fw.reserve _ _).value = false := hrefused
    simp [recorded, List.foldlM_append, hheld, Call.replay, hcall]
  released hheld hmem := by
    simp [recorded, List.foldlM_append, hheld, Call.replay, hmem]

/-- A record from the start says which blocks are held. -/
theorem recorded_tracks (fw : Firmware φ) :
    fw.recorded.Tracks fun s blocks => s.2.foldlM Call.replay [] = some blocks :=
  fw.recorded_tracks_from []

end Staging.Firmware
