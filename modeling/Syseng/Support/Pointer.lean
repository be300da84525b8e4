import Syseng.Support.Table

/-! Nullable pointers into a table: to single cells, and to blocks of elements that
are read and written at an index. -/

namespace Syseng.Support

namespace Table
variable {κ β : Type*}

def deref (t : Table κ β) : Option κ → Except Fault β
  | none => .error .nullPointer
  | some k => match t.lookup k with
    | none => .error .notLive
    | some b => .ok b

@[simp] theorem deref_null (t : Table κ β) : t.deref none = .error .nullPointer := rfl

theorem deref_some {t : Table κ β} {k : κ} {b : β} (held : t.lookup k = some b) :
    t.deref (some k) = .ok b := by
  simp [deref, held]

variable [DecidableEq κ]

def assign (t : Table κ β) (p : Option κ) (change : β → β) : Except Fault (Table κ β) :=
  match p with
  | none => .error .nullPointer
  | some k => t.modify k change

theorem assign_ok {t : Table κ β} {k : κ} {b : β} (change : β → β) (held : t.lookup k = some b) :
    ∃ u, t.assign (some k) change = .ok u ∧
      u.lookup = Function.update t.lookup k (some (change b)) ∧
      u.issued = t.issued ∧ u.released = t.released :=
  modify_ok change held

/-- Giving back the null pointer does nothing. -/
def free (t : Table κ β) : Option κ → Except Fault (Table κ β)
  | none => .ok t
  | some k => t.release k

@[simp] theorem free_null (t : Table κ β) : t.free none = .ok t := rfl

theorem free_ok {t : Table κ β} {k : κ} {b : β} (held : t.lookup k = some b) :
    ∃ u n, t.free (some k) = .ok u ∧ u.lookup = Function.update t.lookup k none ∧
      u.issued = t.issued ∧ u.released = (k, n) :: t.released :=
  release_ok held

end Table

namespace Table
section Elements
variable {κ α : Type} [DecidableEq κ] {t : Table κ (List α)} {k : κ} {xs : List α} {i : Nat}

def load (t : Table κ (List α)) (p : Option κ) (i : Nat) : Except Fault α := do
  let xs ← t.deref p
  match xs[i]? with
  | some x => .ok x
  | none => .error .outOfRange

def store (t : Table κ (List α)) (p : Option κ) (i : Nat) (x : α) :
    Except Fault (Table κ (List α)) := do
  let xs ← t.deref p
  if i < xs.length then t.assign p (·.set i x) else .error .outOfRange

omit [DecidableEq κ] in
theorem load_ok {x : α} (held : t.lookup k = some xs) (there : xs[i]? = some x) :
    t.load (some k) i = .ok x := by
  simp [load, deref_some held, there]

theorem store_ok (held : t.lookup k = some xs) (inside : i < xs.length) (x : α) :
    t.store (some k) i x = t.modify k (·.set i x) := by
  simp [store, deref_some held, inside, assign]

theorem store_outside (held : t.lookup k = some xs) (outside : ¬ i < xs.length) (x : α) :
    t.store (some k) i x = .error .outOfRange := by
  simp [store, deref_some held, outside]

theorem store_cases {u : Table κ (List α)} {p : Option κ} {x : α} (stored : t.store p i x = .ok u) :
    ∃ k xs, p = some k ∧ t.lookup k = some xs ∧ i < xs.length ∧ t.modify k (·.set i x) = .ok u := by
  cases p with
  | none => cases stored
  | some k =>
    cases held : t.lookup k with
    | none => simp [store, deref, held] at stored
    | some xs =>
      by_cases inside : i < xs.length
      · rw [store_ok held inside] at stored
        exact ⟨k, xs, rfl, held, inside, stored⟩
      · simp [store, deref, held, inside] at stored

end Elements
end Table
end Syseng.Support
