import Staging.Fault

/-!
# Checked access to lists

Entries of a list are read, replaced and removed by their index.  An index at which the list has no
entry is a trap.  Beside each access stands what it does at the entry behind a known front.
-/

namespace Staging.Index

variable {α : Type}

/-- The entry at an index. -/
def read (l : List α) (i : Nat) : Except Trap α :=
  match l[i]? with
  | some a => .ok a
  | none => .error (.outOfRange l.length i)

/-- The list with the entry at an index replaced by entries. -/
def splice (l : List α) (i : Nat) (entries : List α) : Except Trap (List α) :=
  if i < l.length then
    .ok (l.take i ++ entries ++ l.drop (i + 1))
  else
    .error (.outOfRange l.length i)

/-- The list with another entry at an index. -/
def write (l : List α) (i : Nat) (a : α) : Except Trap (List α) :=
  if i < l.length then .ok (l.set i a) else .error (.outOfRange l.length i)

/-- The list without the entry at an index. -/
def remove (l : List α) (i : Nat) : Except Trap (List α) :=
  if i < l.length then .ok (l.eraseIdx i) else .error (.outOfRange l.length i)

/-- The entries from an index on, which may be the end. -/
def tail (l : List α) (start : Nat) : Except Trap (List α) :=
  if start ≤ l.length then .ok (l.drop start) else .error (.outOfRange l.length start)

/-- An entry that is there can be read. -/
theorem read_eq_ok {l : List α} {i : Nat} {a : α} (h : l[i]? = some a) : read l i = .ok a := by
  simp only [read, h]

theorem read_eq_ok_iff {l : List α} {i : Nat} {a : α} : read l i = .ok a ↔ l[i]? = some a := by
  unfold read
  cases l[i]? <;> simp

@[simp]
theorem read_append (before : List α) (a : α) (after : List α) :
    read (before ++ a :: after) before.length = .ok a :=
  read_eq_ok (by simp)

theorem splice_eq_ok {l : List α} {i : Nat} (h : i < l.length) (entries : List α) :
    splice l i entries = .ok (l.take i ++ entries ++ l.drop (i + 1)) := by
  simp only [splice, h, if_true]

@[simp]
theorem write_append (before : List α) (a b : α) (after : List α) :
    write (before ++ a :: after) before.length b = .ok (before ++ b :: after) := by
  simp [write]

theorem write_eq_ok {l : List α} {i : Nat} (h : i < l.length) (a : α) :
    write l i a = .ok (l.set i a) := by
  simp only [write, h, if_true]

@[simp]
theorem remove_append (before : List α) (a : α) (after : List α) :
    remove (before ++ a :: after) before.length = .ok (before ++ after) := by
  simp [remove, List.eraseIdx_append]

theorem tail_eq_ok {l : List α} {start : Nat} (h : start ≤ l.length) :
    tail l start = .ok (l.drop start) := by
  simp only [tail, h, if_true]

end Staging.Index
