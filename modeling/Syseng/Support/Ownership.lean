import Syseng.Support.Table
import Mathlib.Logic.Equiv.Basic

/-! Who answers for a live resource. Every live handle of a table has exactly one
owner and no owner lists a handle that is not live, so nothing leaks, nothing is
shared and nothing dangles. The rules below say how ownership follows an
acquisition, a release and a transfer. -/

namespace Syseng.Support

structure Owns {ι κ β : Type*} (t : Table κ β) (own : ι → List κ) : Prop where
  nodup : ∀ i, (own i).Nodup
  apart : ∀ {i j k}, k ∈ own i → k ∈ own j → i = j
  live_iff : ∀ k, t.Live k ↔ ∃ i, k ∈ own i

/-- What one owner does to a table: it had `old` and has `new`, and no other entry has changed. -/
structure Replaces {κ β : Type*} (t u : Table κ β) (old new : List κ) : Prop where
  nodup : new.Nodup
  fresh : ∀ k ∈ new, k ∈ old ∨ ¬ t.Live k
  live : ∀ k ∈ new, u.Live k
  gone : ∀ k ∈ old, k ∉ new → ¬ u.Live k
  frame : ∀ k, k ∉ old → k ∉ new → u.lookup k = t.lookup k

namespace Replaces
variable {κ β : Type*} {t u v : Table κ β} {a b c : List κ} {k : κ}

theorem refl (nodup : a.Nodup) (live : ∀ k ∈ a, t.Live k) : Replaces t t a a where
  nodup := nodup
  fresh _ member := Or.inl member
  live := live
  gone _ member without := absurd member without
  frame _ _ _ := rfl

theorem trans (first : Replaces t u a b) (second : Replaces u v b c) : Replaces t v a c where
  nodup := second.nodup
  live := second.live
  fresh k member := by
    by_cases early : k ∈ a
    · exact Or.inl early
    · apply Or.inr
      intro live
      have without : k ∉ b := fun middle => (first.fresh k middle).elim early fun dead => dead live
      have dead := (second.fresh k member).resolve_left without
      rw [Table.Live, first.frame k early without] at dead
      exact dead live
  gone k member without := by
    by_cases middle : k ∈ b
    · exact second.gone k middle without
    · rw [Table.Live, second.frame k middle without]
      exact first.gone k member middle
  frame k before after := by
    by_cases middle : k ∈ b
    · have early := (first.fresh k middle).resolve_left before
      have late := second.gone k middle after
      rw [Table.Live, Bool.not_eq_true, Option.isSome_eq_false_iff, Option.isNone_iff_eq_none] at early late
      rw [early, late]
    · rw [second.frame k middle after, first.frame k before middle]

variable [DecidableEq κ]

theorem acquire {x : β} (acquired : t.acquire k x = .ok u) : Replaces t u [] [k] := by
  obtain ⟨vacant, changed⟩ := Table.acquire_cases acquired
  constructor
  · exact List.nodup_singleton k
  · simp [Table.Live, vacant]
  · simp [Table.Live, changed]
  · simp
  · intro l _ other
    rw [changed, Function.update_of_ne (List.ne_of_not_mem_cons other)]

theorem release (released : t.release k = .ok u) : Replaces t u [k] [] := by
  obtain ⟨-, changed⟩ := Table.release_cases released
  constructor
  · exact List.nodup_nil
  · simp
  · simp
  · simp [Table.Live, changed]
  · intro l other _
    rw [changed, Function.update_of_ne (List.ne_of_not_mem_cons other)]

theorem modify {x : β} {change : β → β} (held : t.lookup k = some x) (modified : t.modify k change = .ok u) :
    Replaces t u [k] [k] := by
  obtain ⟨w, again, changed, -⟩ := Table.modify_ok change held
  cases modified.symm.trans again
  constructor
  · exact List.nodup_singleton k
  · exact fun _ member => Or.inl member
  · simp [Table.Live, changed]
  · exact fun _ member without => absurd member without
  · intro l other _
    rw [changed, Function.update_of_ne (List.ne_of_not_mem_cons other)]

end Replaces

namespace Owns
variable {ι κ β : Type*} {t u : Table κ β} {own after : ι → List κ}

theorem empty : Owns (Table.empty : Table κ β) (fun _ : ι => []) where
  nodup := by simp
  apart := by simp
  live_iff := by simp [Table.Live]

theorem lookup_of_mem (owns : Owns t own) {i : ι} {k : κ} (member : k ∈ own i) :
    ∃ b, t.lookup k = some b :=
  Option.isSome_iff_exists.mp ((owns.live_iff k).mpr ⟨i, member⟩)

theorem not_mem_of_vacant (owns : Owns t own) {k : κ} (vacant : t.lookup k = none) (i : ι) :
    k ∉ own i := by
  intro member
  obtain ⟨b, held⟩ := owns.lookup_of_mem member
  rw [vacant] at held
  cases held

theorem of_live_iff (owns : Owns t own) (same : ∀ k, u.Live k ↔ t.Live k) : Owns u own :=
  ⟨owns.nodup, owns.apart, fun k => (same k).trans (owns.live_iff k)⟩

theorem of_perm (owns : Owns t own) (perm : ∀ i, (after i).Perm (own i)) : Owns t after where
  nodup := fun i => (perm i).nodup_iff.mpr (owns.nodup i)
  apart := fun left right => owns.apart ((perm _).mem_iff.mp left) ((perm _).mem_iff.mp right)
  live_iff := fun k => (owns.live_iff k).trans (exists_congr fun i => (perm i).mem_iff.symm)

theorem modify [DecidableEq κ] (owns : Owns t own) {k : κ} {b c : β} (held : t.lookup k = some b)
    (changed : u.lookup = Function.update t.lookup k (some c)) : Owns u own := by
  refine owns.of_live_iff fun l => ?_
  simp only [Table.Live, changed]
  by_cases same : l = k
  · subst same; simp [held]
  · rw [Function.update_of_ne same]

section Changes
variable [DecidableEq ι]

theorem acquire (owns : Owns t own) {k : κ} (vacant : t.lookup k = none)
    (changed : ∀ l, u.Live l ↔ l = k ∨ t.Live l) (i : ι) :
    Owns u (Function.update own i (k :: own i)) := by
  have unowned := owns.not_mem_of_vacant vacant
  have mem_iff : ∀ j l, l ∈ Function.update own i (k :: own i) j ↔ j = i ∧ l = k ∨ l ∈ own j := by
    intro j l
    by_cases same : j = i
    · subst same; simp
    · simp [same]
  constructor
  · intro j
    by_cases same : j = i
    · subst same
      simpa using ⟨unowned j, owns.nodup j⟩
    · simpa [same] using owns.nodup j
  · intro j m l left right
    rcases (mem_iff j l).mp left with ⟨atI, atK⟩ | old <;>
      rcases (mem_iff m l).mp right with ⟨atI', atK'⟩ | old'
    · exact atI.trans atI'.symm
    · exact absurd (atK ▸ old') (unowned m)
    · exact absurd (atK' ▸ old) (unowned j)
    · exact owns.apart old old'
  · intro l
    simp only [changed, mem_iff, owns.live_iff]
    constructor
    · rintro (same | ⟨j, member⟩)
      · exact ⟨i, Or.inl ⟨rfl, same⟩⟩
      · exact ⟨j, Or.inr member⟩
    · rintro ⟨j, ⟨-, same⟩ | member⟩
      · exact Or.inl same
      · exact Or.inr ⟨j, member⟩

theorem release (owns : Owns t own) {i : ι} {gone rest : List κ}
    (listed : (own i).Perm (gone ++ rest)) (changed : ∀ l, u.Live l ↔ l ∉ gone ∧ t.Live l) :
    Owns u (Function.update own i rest) := by
  have nodup := List.nodup_append.mp (listed.nodup_iff.mp (owns.nodup i))
  have mem_iff : ∀ j l, l ∈ Function.update own i rest j ↔ l ∉ gone ∧ l ∈ own j := by
    intro j l
    by_cases same : j = i
    · subst same
      rw [Function.update_self, listed.mem_iff, List.mem_append]
      constructor
      · exact fun member => ⟨fun dropped => nodup.2.2 l dropped l member rfl, Or.inr member⟩
      · exact fun member => member.2.resolve_left member.1
    · rw [Function.update_of_ne same]
      refine (and_iff_right_of_imp fun member dropped => same ?_).symm
      exact owns.apart member (listed.mem_iff.mpr (List.mem_append_left _ dropped))
  constructor
  · intro j
    by_cases same : j = i
    · subst same
      simpa using nodup.2.1
    · simpa [same] using owns.nodup j
  · exact fun left right => owns.apart ((mem_iff _ _).mp left).2 ((mem_iff _ _).mp right).2
  · intro l
    simp only [changed, mem_iff, owns.live_iff, exists_and_left]

theorem hand [DecidableEq κ] (owns : Owns t own) {i j : ι} (differs : j ≠ i) {k : κ} {rest : List κ}
    (listed : (own i).Perm ([k] ++ rest)) :
    Owns t (Function.update (Function.update own i rest) j (k :: own j)) := by
  obtain ⟨b, held⟩ := owns.lookup_of_mem (listed.mem_iff.mpr (List.mem_cons_self ..))
  obtain ⟨u, _, _, dropped, _⟩ := Table.release_ok held
  obtain ⟨v, _, taken, _⟩ := Table.acquire_ok (t := u) b (show u.lookup k = none by simp [dropped])
  have owned := (owns.release listed (Table.live_release dropped)).acquire (by simp [dropped])
    (Table.live_acquire taken) j
  rw [Function.update_of_ne differs] at owned
  refine owned.of_live_iff fun l => ?_
  have same : v.lookup = t.lookup := by
    rw [taken, dropped, Function.update_idem, ← held, Function.update_eq_self]
  rw [Table.Live, Table.Live, same]

end Changes

section Replace
variable [DecidableEq ι] {i j : ι} {new : List κ} {k : κ}

omit [DecidableEq ι] in
theorem not_taken (owns : Owns t own) (replaces : Replaces t u (own i) new) (other : j ≠ i)
    (member : k ∈ own j) : k ∉ own i ∧ k ∉ new := by
  have elsewhere : k ∉ own i := fun here => other (owns.apart member here)
  refine ⟨elsewhere, fun fresh => ?_⟩
  exact (replaces.fresh k fresh).elim elsewhere fun dead => dead ((owns.live_iff k).mpr ⟨j, member⟩)

omit [DecidableEq ι] in
theorem spared (owns : Owns t own) (replaces : Replaces t u (own i) new) (other : j ≠ i)
    (member : k ∈ own j) : u.lookup k = t.lookup k := by
  obtain ⟨elsewhere, without⟩ := owns.not_taken replaces other member
  exact replaces.frame k elsewhere without

theorem replace (owns : Owns t own) (replaces : Replaces t u (own i) new) :
    Owns u (Function.update own i new) := by
  constructor
  · intro j
    by_cases here : j = i
    · subst here
      rw [Function.update_self]
      exact replaces.nodup
    · rw [Function.update_of_ne here]
      exact owns.nodup j
  · intro j m k left right
    by_cases here : j = i <;> by_cases there : m = i
    · rw [here, there]
    · rw [here, Function.update_self] at left
      rw [Function.update_of_ne there] at right
      exact absurd left (owns.not_taken replaces there right).2
    · rw [Function.update_of_ne here] at left
      rw [there, Function.update_self] at right
      exact absurd right (owns.not_taken replaces here left).2
    · rw [Function.update_of_ne here] at left
      rw [Function.update_of_ne there] at right
      exact owns.apart left right
  · intro k
    constructor
    · intro live
      by_cases fresh : k ∈ new
      · exact ⟨i, by rwa [Function.update_self]⟩
      · have elsewhere : k ∉ own i := fun here => replaces.gone k here fresh live
        rw [Table.Live, replaces.frame k elsewhere fresh] at live
        obtain ⟨j, member⟩ := (owns.live_iff k).mp live
        have other : j ≠ i := fun here => elsewhere (here ▸ member)
        exact ⟨j, by rwa [Function.update_of_ne other]⟩
    · rintro ⟨j, member⟩
      by_cases here : j = i
      · rw [here, Function.update_self] at member
        exact replaces.live k member
      · rw [Function.update_of_ne here] at member
        rw [Table.Live, owns.spared replaces here member]
        exact (owns.live_iff k).mpr ⟨j, member⟩

end Replace

/-- Owners may exchange all they hold; a move into an emptied owner is such an exchange. -/
theorem exchange [DecidableEq ι] (owns : Owns t own) (i j : ι) :
    Owns t (own ∘ Equiv.swap i j) where
  nodup := fun m => owns.nodup _
  apart := fun left right => (Equiv.swap i j).injective (owns.apart left right)
  live_iff := fun k => by
    rw [owns.live_iff k]
    constructor
    · rintro ⟨m, member⟩
      exact ⟨Equiv.swap i j m, by simpa using member⟩
    · rintro ⟨m, member⟩
      exact ⟨_, member⟩

theorem transfer [DecidableEq ι] (owns : Owns t own) (i j : ι) (vacated : own i = []) :
    Owns t (Function.update (Function.update own i (own j)) j []) := by
  have same : Function.update (Function.update own i (own j)) j [] = own ∘ Equiv.swap i j := by
    funext m
    by_cases atJ : m = j
    · subst atJ; simp [vacated]
    · by_cases atI : m = i
      · subst atI; simp [Function.update_of_ne atJ]
      · simp [Function.update_of_ne atJ, Function.update_of_ne atI, Equiv.swap_apply_of_ne_of_ne atI atJ]
  rw [same]
  exact owns.exchange i j

/-- When no owner holds anything, every acquisition was released exactly once. -/
theorem released_perm (owns : Owns t own) (none_left : ∀ i, own i = []) :
    (t.released.map Prod.snd).Perm (List.range t.issued) := by
  apply t.released_perm
  intro k
  have dead : ¬ t.Live k := by
    rw [owns.live_iff]
    rintro ⟨i, member⟩
    simp [none_left] at member
  simpa [Table.Live] using dead

theorem accounted (owns : Owns t own) (n : Nat) (issued : n < t.issued) :
    (t.released.map Prod.snd).count n = 1 ∨ ∃ i, ∃ k ∈ own i, t.issueOf k = some n := by
  by_cases gone : n ∈ t.released.map Prod.snd
  · exact Or.inl (List.count_eq_one_of_mem t.released_nodup gone)
  · rw [t.mem_released] at gone
    push Not at gone
    obtain ⟨k, e, found, same⟩ := gone issued
    have live : t.Live k := by simp [Table.Live, Table.lookup, found]
    obtain ⟨i, member⟩ := (owns.live_iff k).mp live
    exact Or.inr ⟨i, k, member, by simp [Table.issueOf, found, same]⟩

theorem issued_eq {own : Unit → List κ} (owns : Owns t own) :
    t.issued = t.released.length + (own ()).length :=
  t.issued_eq (own ()) (owns.nodup ()) fun k => by
    rw [owns.live_iff]
    exact ⟨fun ⟨_, member⟩ => member, fun member => ⟨(), member⟩⟩

end Owns
end Syseng.Support
