import Mathlib.Data.List.Perm.Basic
import Mathlib.Data.List.Perm.Subperm
import Mathlib.Data.List.Nodup
import Mathlib.Data.List.Range
import Mathlib.Logic.Function.Basic

/-! Resources under reusable handles: heap blocks under addresses, open files
under descriptor numbers. A handle may come back after a release, so every
acquisition also gets an issue number that never does; what was acquired and
released is counted by issue number. -/

namespace Syseng.Support
universe v

inductive Fault where
  | nullPointer
  | notLive
  | notFresh
  | outOfRange
  | deadObject
  | diverged
  deriving DecidableEq, Repr

@[simp] theorem ok_bind {ε : Type*} {α β : Type v} (a : α) (next : α → Except ε β) :
    (Except.ok a >>= next) = next a := rfl

@[simp] theorem error_bind {ε : Type*} {α β : Type v} (fault : ε) (next : α → Except ε β) :
    (Except.error fault >>= next) = Except.error fault := rfl

theorem bind_ok {ε : Type*} {α β : Type v} {x : Except ε α} {next : α → Except ε β} {b : β}
    (done : (x >>= next) = .ok b) : ∃ a, x = .ok a ∧ next a = .ok b := by
  cases x with
  | error fault => cases done
  | ok a => exact ⟨a, rfl, done⟩

structure Entry (β : Type*) where
  issue : Nat
  contents : β

/-- `released` lists, latest first, the handle and issue number of every release. Each issue
number handed out so far is either live, under one handle only, or was released once. -/
structure Table (κ β : Type*) where
  entry : κ → Option (Entry β)
  issued : Nat
  released : List (κ × Nat)
  issue_lt : ∀ {k e}, entry k = some e → e.issue < issued
  issue_injective : ∀ {k l e f}, entry k = some e → entry l = some f → e.issue = f.issue → k = l
  released_nodup : (released.map Prod.snd).Nodup
  mem_released : ∀ n, n ∈ released.map Prod.snd ↔
    n < issued ∧ ∀ k e, entry k = some e → e.issue ≠ n

namespace Table
variable {κ β : Type*}

def empty : Table κ β where
  entry := fun _ => none
  issued := 0
  released := []
  issue_lt := by simp
  issue_injective := by simp
  released_nodup := by simp
  mem_released := by simp

def lookup (t : Table κ β) (k : κ) : Option β := (t.entry k).map Entry.contents

abbrev Live (t : Table κ β) (k : κ) : Prop := (t.lookup k).isSome = true

@[simp] theorem lookup_empty : (empty : Table κ β).lookup = fun _ => none := rfl

theorem lookup_eq_none (t : Table κ β) (k : κ) : t.lookup k = none ↔ t.entry k = none := by
  simp [lookup]

theorem lookup_eq_some (t : Table κ β) (k : κ) (b : β) :
    t.lookup k = some b ↔ ∃ n, t.entry k = some ⟨n, b⟩ := by
  simp only [lookup, Option.map_eq_some_iff]
  constructor
  · rintro ⟨⟨n, c⟩, found, rfl⟩
    exact ⟨n, found⟩
  · rintro ⟨n, found⟩
    exact ⟨⟨n, b⟩, found, rfl⟩

section Changes
variable [DecidableEq κ]

theorem update_eq_some {f : κ → Option β} {k l : κ} {x : Option β} {e : β} :
    Function.update f k x l = some e ↔ l = k ∧ x = some e ∨ l ≠ k ∧ f l = some e := by
  by_cases same : l = k
  · subst same; simp
  · simp [same]

/-- The resource under `k` is new: no live resource may be there. -/
def acquire (t : Table κ β) (k : κ) (b : β) : Except Fault (Table κ β) :=
  match vacant : t.entry k with
  | some _ => .error .notFresh
  | none => .ok {
      entry := Function.update t.entry k (some ⟨t.issued, b⟩)
      issued := t.issued + 1
      released := t.released
      issue_lt := by
        intro l e found
        rcases update_eq_some.mp found with ⟨-, new⟩ | ⟨-, old⟩
        · cases new
          exact Nat.lt_succ_self _
        · exact Nat.lt_succ_of_lt (t.issue_lt old)
      issue_injective := by
        intro l m e f left right same
        rcases update_eq_some.mp left with ⟨atL, newL⟩ | ⟨-, oldL⟩ <;>
          rcases update_eq_some.mp right with ⟨atM, newM⟩ | ⟨-, oldM⟩
        · exact atL.trans atM.symm
        · cases newL
          exact absurd same (Nat.ne_of_gt (t.issue_lt oldM))
        · cases newM
          exact absurd same (Nat.ne_of_lt (t.issue_lt oldL))
        · exact t.issue_injective oldL oldM same
      released_nodup := t.released_nodup
      mem_released := by
        intro n
        rw [t.mem_released]
        constructor
        · rintro ⟨issued, gone⟩
          refine ⟨Nat.lt_succ_of_lt issued, fun l e found => ?_⟩
          rcases update_eq_some.mp found with ⟨-, new⟩ | ⟨-, old⟩
          · cases new
            exact Nat.ne_of_gt issued
          · exact gone l e old
        · rintro ⟨issued, gone⟩
          have differs : t.issued ≠ n := gone k _ (Function.update_self ..)
          refine ⟨by omega, fun l e found => gone l e (update_eq_some.mpr (Or.inr ⟨?_, found⟩))⟩
          rintro rfl
          rw [vacant] at found
          cases found }

/-- The resource under `k` is given back; the handle may be issued again. -/
def release (t : Table κ β) (k : κ) : Except Fault (Table κ β) :=
  match held : t.entry k with
  | none => .error .notLive
  | some old =>
    have kept : ∀ {l e}, Function.update t.entry k none l = some e → l ≠ k ∧ t.entry l = some e := by
      intro l e found
      simpa using update_eq_some.mp found
    .ok {
      entry := Function.update t.entry k none
      issued := t.issued
      released := (k, old.issue) :: t.released
      issue_lt := fun found => t.issue_lt (kept found).2
      issue_injective := fun left right => t.issue_injective (kept left).2 (kept right).2
      released_nodup := by
        refine List.nodup_cons.mpr ⟨?_, t.released_nodup⟩
        rw [t.mem_released]
        exact fun gone => gone.2 k old held rfl
      mem_released := by
        intro n
        rw [List.map_cons, List.mem_cons, t.mem_released]
        constructor
        · rintro (rfl | ⟨issued, gone⟩)
          · exact ⟨t.issue_lt held, fun l e found same =>
              (kept found).1 (t.issue_injective (kept found).2 held same)⟩
          · exact ⟨issued, fun l e found => gone l e (kept found).2⟩
        · rintro ⟨issued, gone⟩
          by_cases this : n = old.issue
          · exact Or.inl this
          · refine Or.inr ⟨issued, fun l e found => ?_⟩
            by_cases same : l = k
            · subst same
              rw [held] at found
              cases found
              exact Ne.symm this
            · exact gone l e (update_eq_some.mpr (Or.inr ⟨same, found⟩)) }

def modify (t : Table κ β) (k : κ) (change : β → β) : Except Fault (Table κ β) :=
  match held : t.entry k with
  | none => .error .notLive
  | some old =>
    have keeps : ∀ {l e}, Function.update t.entry k (some ⟨old.issue, change old.contents⟩) l = some e →
        ∃ f, t.entry l = some f ∧ f.issue = e.issue := by
      intro l e found
      rcases update_eq_some.mp found with ⟨rfl, new⟩ | ⟨-, before⟩
      · cases new
        exact ⟨old, held, rfl⟩
      · exact ⟨e, before, rfl⟩
    .ok {
      entry := Function.update t.entry k (some ⟨old.issue, change old.contents⟩)
      issued := t.issued
      released := t.released
      issue_lt := by
        intro l e found
        obtain ⟨f, before, same⟩ := keeps found
        exact same ▸ t.issue_lt before
      issue_injective := by
        intro l m e f left right same
        obtain ⟨e', leftBefore, leftSame⟩ := keeps left
        obtain ⟨f', rightBefore, rightSame⟩ := keeps right
        exact t.issue_injective leftBefore rightBefore (by rw [leftSame, rightSame, same])
      released_nodup := t.released_nodup
      mem_released := by
        intro n
        rw [t.mem_released]
        refine and_congr_right fun _ => ⟨fun gone l e found => ?_, fun gone l e found => ?_⟩
        · obtain ⟨f, before, same⟩ := keeps found
          exact same ▸ gone l f before
        · by_cases same : l = k
          · subst same
            rw [held] at found
            cases found
            exact gone l ⟨old.issue, change old.contents⟩ (update_eq_some.mpr (Or.inl ⟨rfl, rfl⟩))
          · exact gone l e (update_eq_some.mpr (Or.inr ⟨same, found⟩)) }

theorem lookup_of_entry_update {t u : Table κ β} {k : κ} {x : Option (Entry β)} {y : Option β}
    (changed : u.entry = Function.update t.entry k x) (contents : x.map Entry.contents = y) :
    u.lookup = Function.update t.lookup k y := by
  funext l
  by_cases same : l = k
  · subst same; simp [lookup, changed, contents]
  · simp [lookup, changed, same]

theorem acquire_ok {t : Table κ β} {k : κ} (b : β) (vacant : t.lookup k = none) :
    ∃ u, t.acquire k b = .ok u ∧ u.lookup = Function.update t.lookup k (some b) ∧
      u.issued = t.issued + 1 ∧ u.released = t.released := by
  rw [lookup_eq_none] at vacant
  unfold acquire
  split
  next e held => simp [vacant] at held
  next _ =>
    exact ⟨_, rfl, lookup_of_entry_update rfl rfl, rfl, rfl⟩

theorem release_ok {t : Table κ β} {k : κ} {b : β} (held : t.lookup k = some b) :
    ∃ u n, t.release k = .ok u ∧ u.lookup = Function.update t.lookup k none ∧
      u.issued = t.issued ∧ u.released = (k, n) :: t.released := by
  obtain ⟨n, held⟩ := (lookup_eq_some t k b).mp held
  unfold release
  split
  next vacant => simp [held] at vacant
  next old found =>
    exact ⟨_, old.issue, rfl, lookup_of_entry_update rfl rfl, rfl, rfl⟩

theorem modify_ok {t : Table κ β} {k : κ} {b : β} (change : β → β) (held : t.lookup k = some b) :
    ∃ u, t.modify k change = .ok u ∧ u.lookup = Function.update t.lookup k (some (change b)) ∧
      u.issued = t.issued ∧ u.released = t.released := by
  obtain ⟨n, held⟩ := (lookup_eq_some t k b).mp held
  unfold modify
  split
  next vacant => simp [held] at vacant
  next old found =>
    have this : old = ⟨n, b⟩ := Option.some.inj (found.symm.trans held)
    subst this
    exact ⟨_, rfl, lookup_of_entry_update rfl rfl, rfl, rfl⟩

theorem acquire_cases {t u : Table κ β} {k : κ} {b : β} (acquired : t.acquire k b = .ok u) :
    t.lookup k = none ∧ u.lookup = Function.update t.lookup k (some b) := by
  have vacant : t.entry k = none := by
    unfold acquire at acquired
    split at acquired
    next _ => cases acquired
    next vacant => exact vacant
  obtain ⟨w, again, changed, -⟩ := acquire_ok b ((lookup_eq_none t k).mpr vacant)
  cases acquired.symm.trans again
  exact ⟨(lookup_eq_none t k).mpr vacant, changed⟩

theorem entry_acquire {t u : Table κ β} {k : κ} {b : β} (acquired : t.acquire k b = .ok u) :
    u.entry = Function.update t.entry k (some ⟨t.issued, b⟩) := by
  unfold acquire at acquired
  split at acquired
  next _ => cases acquired
  next _ => cases acquired; rfl

theorem entry_release {t u : Table κ β} {k : κ} (released : t.release k = .ok u) :
    ∃ e, t.entry k = some e ∧ u.entry = Function.update t.entry k none ∧
      u.released = (k, e.issue) :: t.released := by
  unfold release at released
  split at released
  next _ => cases released
  next e held => cases released; exact ⟨e, held, rfl, rfl⟩

theorem release_cases {t u : Table κ β} {k : κ} (released : t.release k = .ok u) :
    t.Live k ∧ u.lookup = Function.update t.lookup k none := by
  obtain ⟨e, held, -⟩ := entry_release released
  have found := (lookup_eq_some t k e.contents).mpr ⟨e.issue, held⟩
  obtain ⟨w, n, again, changed, -⟩ := release_ok found
  cases released.symm.trans again
  exact ⟨Option.isSome_of_eq_some found, changed⟩

theorem entry_modify {t u : Table κ β} {k : κ} {change : β → β}
    (modified : t.modify k change = .ok u) :
    ∃ e, t.entry k = some e ∧
      u.entry = Function.update t.entry k (some ⟨e.issue, change e.contents⟩) := by
  unfold modify at modified
  split at modified
  next _ => cases modified
  next e held => cases modified; exact ⟨e, held, rfl⟩

theorem live_acquire {t u : Table κ β} {k : κ} {b : β}
    (changed : u.lookup = Function.update t.lookup k (some b)) (l : κ) :
    u.Live l ↔ l = k ∨ t.Live l := by
  by_cases same : l = k
  · subst same; simp [Live, changed]
  · simp [Live, changed, same]

theorem live_release {t u : Table κ β} {k : κ}
    (changed : u.lookup = Function.update t.lookup k none) (l : κ) :
    u.Live l ↔ l ∉ [k] ∧ t.Live l := by
  by_cases same : l = k
  · subst same; simp [Live, changed]
  · simp [Live, changed, same]

theorem release_vacant {t : Table κ β} {k : κ} (vacant : t.lookup k = none) :
    t.release k = .error .notLive := by
  rw [lookup_eq_none] at vacant
  unfold release
  split
  next _ => rfl
  next old found => simp [vacant] at found

end Changes

def issueOf (t : Table κ β) (k : κ) : Option Nat := (t.entry k).map Entry.issue

theorem issueOf_of_live {t : Table κ β} {k : κ} (live : t.Live k) :
    ∃ e, t.entry k = some e ∧ t.issueOf k = some e.issue := by
  cases held : t.entry k with
  | none => simp [Live, lookup, held] at live
  | some e => exact ⟨e, rfl, by simp [issueOf, held]⟩

/-- The issue numbers handed out are those released and those of the live handles. -/
theorem issues_perm (t : Table κ β) (handles : List κ) (nodup : handles.Nodup)
    (live_iff : ∀ k, t.Live k ↔ k ∈ handles) :
    (t.released.map Prod.snd ++ handles.filterMap t.issueOf).Perm (List.range t.issued) := by
  have unreleased : ∀ n ∈ handles.filterMap t.issueOf, n ∉ t.released.map Prod.snd := by
    intro n member gone
    obtain ⟨k, -, held⟩ := List.mem_filterMap.mp member
    obtain ⟨e, found, rfl⟩ := Option.map_eq_some_iff.mp held
    exact ((t.mem_released _).mp gone).2 k e found rfl
  have distinct : (handles.filterMap t.issueOf).Nodup := by
    refine List.Nodup.filterMap (fun k l n left right => ?_) nodup
    obtain ⟨e, heldL, rfl⟩ := Option.map_eq_some_iff.mp left
    obtain ⟨f, heldR, same⟩ := Option.map_eq_some_iff.mp right
    exact t.issue_injective heldL heldR same.symm
  rw [List.perm_ext_iff_of_nodup
    (List.nodup_append.mpr ⟨t.released_nodup, distinct, fun n left m right same =>
      unreleased m right (same ▸ left)⟩) List.nodup_range]
  intro n
  rw [List.mem_append, List.mem_range, t.mem_released]
  constructor
  · rintro (gone | member)
    · exact gone.1
    · obtain ⟨k, -, held⟩ := List.mem_filterMap.mp member
      obtain ⟨e, found, rfl⟩ := Option.map_eq_some_iff.mp held
      exact t.issue_lt found
  · intro issued
    by_cases live : ∃ k e, t.entry k = some e ∧ e.issue = n
    · obtain ⟨k, e, found, rfl⟩ := live
      have member : k ∈ handles := (live_iff k).mp (by simp [Live, lookup, found])
      exact Or.inr (List.mem_filterMap.mpr ⟨k, member, by simp [issueOf, found]⟩)
    · exact Or.inl ⟨issued, fun k e found same => live ⟨k, e, found, same⟩⟩

theorem issued_eq (t : Table κ β) (handles : List κ) (nodup : handles.Nodup)
    (live_iff : ∀ k, t.Live k ↔ k ∈ handles) :
    t.issued = t.released.length + handles.length := by
  have counted := (t.issues_perm handles nodup live_iff).length_eq
  have each : (handles.filterMap t.issueOf).length = handles.length := by
    rw [List.filterMap_length_eq_length]
    intro k member
    obtain ⟨e, -, held⟩ := issueOf_of_live ((live_iff k).mpr member)
    simp [held]
  rw [List.length_append, List.length_map, each, List.length_range] at counted
  exact counted.symm

theorem released_perm (t : Table κ β) (quiet : ∀ k, t.lookup k = none) :
    (t.released.map Prod.snd).Perm (List.range t.issued) := by
  simpa using t.issues_perm [] List.nodup_nil (by simp [Live, quiet])

end Table
end Syseng.Support
