import Mathlib.Data.List.AList
import Mathlib.Logic.Function.Basic

/-! What is relied on of an associative container, in whatever order it keeps its elements. -/

namespace Syseng.Support

/-- `assign` is `m[k] = b`. `emplace` leaves a key that is there as it is. -/
structure FiniteMap (κ β : Type) [DecidableEq κ] where
  Carrier : Type
  empty : Carrier
  assign : Carrier → κ → β → Carrier
  emplace : Carrier → κ → β → Carrier
  find : Carrier → κ → Option β
  elements : Carrier → List (κ × β)
  find_empty : ∀ k, find empty k = none
  find_assign : ∀ m k b, find (assign m k b) = Function.update (find m) k (some b)
  find_emplace : ∀ m k b, find (emplace m k b) = Function.update (find m) k (some ((find m k).getD b))
  mem_elements : ∀ m k b, (k, b) ∈ elements m ↔ find m k = some b
  keys_nodup : ∀ m, ((elements m).map Prod.fst).Nodup

namespace FiniteMap
variable {κ : Type} [DecidableEq κ]

def assignAll (M : FiniteMap κ κ) (keys : List κ) : M.Carrier :=
  keys.foldl (fun m k => M.assign m k k) M.empty

def emplaceAll (M : FiniteMap κ κ) (keys : List κ) : M.Carrier :=
  keys.foldl (fun m k => M.emplace m k k) M.empty

/-- The container maps each of the keys to itself, and nothing else to anything. -/
def Reflects (M : FiniteMap κ κ) (m : M.Carrier) (keys : List κ) : Prop :=
  ∀ k, M.find m k = if k ∈ keys then some k else none

theorem reflects_foldl {M : FiniteMap κ κ} {put : M.Carrier → κ → M.Carrier}
    (puts : ∀ m seen k, M.Reflects m seen → M.Reflects (put m k) (k :: seen)) {m : M.Carrier}
    {seen : List κ} (start : M.Reflects m seen) (keys : List κ) :
    M.Reflects (keys.foldl put m) (keys ++ seen) := by
  induction keys generalizing m seen with
  | nil => exact start
  | cons k keys ih =>
    intro l
    rw [List.foldl_cons, ih (puts m seen k start) l]
    apply if_congr _ rfl rfl
    simp [or_left_comm]

theorem reflects_empty (M : FiniteMap κ κ) : M.Reflects M.empty [] := M.find_empty

theorem reflects_update {M : FiniteMap κ κ} {m u : M.Carrier} {seen : List κ} {k : κ}
    (reflects : M.Reflects m seen) (changed : M.find u = Function.update (M.find m) k (some k)) :
    M.Reflects u (k :: seen) := by
  intro l
  rw [changed]
  by_cases same : l = k
  · subst same
    simp
  · rw [Function.update_of_ne same, reflects l]
    simp [same]

theorem assignAll_reflects (M : FiniteMap κ κ) (keys : List κ) : M.Reflects (M.assignAll keys) keys := by
  have each : ∀ m seen k, M.Reflects m seen → M.Reflects (M.assign m k k) (k :: seen) :=
    fun m seen k reflects => reflects_update reflects (M.find_assign m k k)
  simpa [assignAll] using reflects_foldl each M.reflects_empty keys

theorem emplaceAll_reflects (M : FiniteMap κ κ) (keys : List κ) : M.Reflects (M.emplaceAll keys) keys := by
  have each : ∀ m seen k, M.Reflects m seen → M.Reflects (M.emplace m k k) (k :: seen) := by
    intro m seen k reflects
    apply reflects_update reflects
    rw [M.find_emplace, reflects k]
    split <;> rfl
  simpa [emplaceAll] using reflects_foldl each M.reflects_empty keys

theorem values_perm {M : FiniteMap κ κ} {m : M.Carrier} {keys : List κ} (reflects : M.Reflects m keys)
    (distinct : keys.Nodup) : ((M.elements m).map Prod.snd).Perm keys := by
  have own : ∀ e ∈ M.elements m, e.2 = e.1 ∧ e.1 ∈ keys := by
    intro e member
    have found := (M.mem_elements m e.1 e.2).mp member
    rw [reflects e.1] at found
    split at found
    · next known => exact ⟨(Option.some.inj found).symm, known⟩
    · cases found
  have values : (M.elements m).map Prod.snd = (M.elements m).map Prod.fst :=
    List.map_congr_left fun e member => (own e member).1
  rw [values]
  apply (List.perm_ext_iff_of_nodup (M.keys_nodup m) distinct).mpr
  intro k
  constructor
  · intro member
    obtain ⟨e, inside, rfl⟩ := List.mem_map.mp member
    exact (own e inside).2
  · intro known
    have there : (k, k) ∈ M.elements m := by
      rw [M.mem_elements, reflects k, if_pos known]
    exact List.mem_map.mpr ⟨(k, k), there, rfl⟩

theorem filter_key {β : Type} {es : List (κ × β)} (distinct : (es.map Prod.fst).Nodup) {k : κ} {b : β}
    (member : (k, b) ∈ es) : es.filter (fun e => e.1 == k) = [(k, b)] := by
  induction es with
  | nil => cases member
  | cons e es ih =>
    obtain ⟨fresh, rest⟩ := List.nodup_cons.mp distinct
    rcases List.mem_cons.mp member with rfl | later
    · have others : es.filter (fun f => f.1 == k) = [] := by
        rw [List.filter_eq_nil_iff]
        intro f inside same
        exact fresh (List.mem_map.mpr ⟨f, inside, eq_of_beq same⟩)
      simp [others]
    · have differs : e.1 ≠ k := by
        rintro rfl
        exact fresh (List.mem_map.mpr ⟨_, later, rfl⟩)
      rw [List.filter_cons_of_neg (by simpa using differs), ih rest later]

theorem filter_elements {β : Type} (M : FiniteMap κ β) (m : M.Carrier) (k : κ) :
    ((M.elements m).filter fun e => e.1 == k).map Prod.snd = (M.find m k).toList := by
  cases found : M.find m k with
  | none =>
    rw [Option.toList_none, List.map_eq_nil_iff, List.filter_eq_nil_iff]
    intro e member same
    have there := (M.mem_elements m e.1 e.2).mp member
    rw [eq_of_beq same, found] at there
    cases there
  | some b =>
    rw [filter_key (M.keys_nodup m) ((M.mem_elements m k b).mpr found)]
    rfl

theorem lookup_inserted {β : Type} (m : AList fun _ : κ => β) (k : κ) (b : β) :
    (fun l => (m.insert k b).lookup l) = Function.update (fun l => m.lookup l) k (some b) := by
  funext l
  by_cases same : l = k
  · subst same
    rw [AList.lookup_insert, Function.update_self]
  · rw [AList.lookup_insert_ne same, Function.update_of_ne same]

def associationList (κ β : Type) [DecidableEq κ] : FiniteMap κ β where
  Carrier := AList fun _ : κ => β
  empty := ∅
  assign m k b := m.insert k b
  emplace m k b := m.insert k ((m.lookup k).getD b)
  find m k := m.lookup k
  elements m := m.entries.map fun e => (e.1, e.2)
  find_empty := AList.lookup_empty
  find_assign m k b := lookup_inserted m k b
  find_emplace m k b := lookup_inserted m k _
  mem_elements m k b := by
    rw [← Option.mem_def, AList.mem_lookup_iff]
    simp
  keys_nodup m := by
    rw [List.map_map]
    exact m.keys_nodup

end FiniteMap
end Syseng.Support
