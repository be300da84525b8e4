import Mathlib.Data.List.Basic
import Mathlib.Order.Basic

/-! A container that keeps its elements in the order of their keys. -/

namespace Syseng.Support

structure OrderedMap (κ β : Type) (before : κ → κ → Prop) where
  entries : List (κ × β)
  sorted : entries.Pairwise fun e f => before e.1 f.1

namespace OrderedMap
variable {κ β : Type} {before : κ → κ → Prop}

/-- `top` holds the first `n` elements, or all of them when there are fewer, in their order. -/
structure First (m : OrderedMap κ β before) (n : Nat) (top : List (κ × β)) : Prop where
  count : top.length = min n m.entries.length
  sorted : top.Pairwise fun e f => before e.1 f.1
  member : ∀ e ∈ top, e ∈ m.entries
  others : ∀ e ∈ top, ∀ f ∈ m.entries, f ∉ top → before e.1 f.1

theorem first_take (m : OrderedMap κ β before) (n : Nat) : m.First n (m.entries.take n) where
  count := List.length_take
  sorted := m.sorted.sublist (List.take_sublist n m.entries)
  member := fun _ inside => List.mem_of_mem_take inside
  others := by
    intro e inside f member outside
    have halves := m.sorted
    rw [← List.take_append_drop n m.entries] at halves member
    obtain ⟨-, -, across⟩ := List.pairwise_append.mp halves
    rcases List.mem_append.mp member with early | late
    · exact absurd early outside
    · exact across e inside f late

theorem first_head {m : OrderedMap κ β before} {n : Nat} {top : List (κ × β)} (first : m.First n top)
    {e : κ × β} (head : top.head? = some e) : ∀ f ∈ m.entries, f = e ∨ before e.1 f.1 := by
  intro f member
  cases top with
  | nil => cases head
  | cons e' top =>
    cases head
    by_cases inside : f ∈ e :: top
    · rcases List.mem_cons.mp inside with same | later
      · exact Or.inl same
      · exact Or.inr (List.rel_of_pairwise_cons first.sorted later)
    · exact Or.inr (first.others e List.mem_cons_self f member inside)

end OrderedMap
end Syseng.Support
