import Syseng.Support.Pointer

/-! Chains of cells in a table, each holding a nullable pointer to the next. A chain
is listed with its handles and contents, so what a walk meets is read off the list. -/

namespace Syseng.Support
variable {κ β : Type*}

/-- From `p`, following `next`, the cells are met in order and the pointer left is `q`. -/
def Segment (next : β → Option κ) (t : Table κ β) :
    Option κ → List (κ × β) → Option κ → Prop
  | p, [], q => p = q
  | p, (k, b) :: rest, q => p = some k ∧ t.lookup k = some b ∧ Segment next t (next b) rest q

abbrev Chain (next : β → Option κ) (t : Table κ β) (p : Option κ) (cells : List (κ × β)) : Prop :=
  Segment next t p cells none

def handles (cells : List (κ × β)) : List κ := cells.map Prod.fst

@[simp] theorem handles_nil : handles ([] : List (κ × β)) = [] := rfl
@[simp] theorem handles_cons (cell : κ × β) (cells : List (κ × β)) :
    handles (cell :: cells) = cell.1 :: handles cells := rfl
@[simp] theorem handles_append (front back : List (κ × β)) :
    handles (front ++ back) = handles front ++ handles back := List.map_append
@[simp] theorem handles_length (cells : List (κ × β)) : (handles cells).length = cells.length :=
  List.length_map _

namespace Segment
variable {next : β → Option κ} {t u : Table κ β} {p q : Option κ}

theorem append (first second : List (κ × β)) :
    Segment next t p (first ++ second) q ↔
      ∃ m, Segment next t p first m ∧ Segment next t m second q := by
  induction first generalizing p with
  | nil => simp [Segment]
  | cons cell rest ih =>
    simp only [List.cons_append, Segment, ih]
    constructor
    · rintro ⟨here, found, m, front, back⟩
      exact ⟨m, ⟨here, found, front⟩, back⟩
    · rintro ⟨m, ⟨here, found, front⟩, back⟩
      exact ⟨here, found, m, front, back⟩

theorem frame {cells : List (κ × β)} (segment : Segment next t p cells q)
    (same : ∀ k ∈ handles cells, u.lookup k = t.lookup k) : Segment next u p cells q := by
  induction cells generalizing p with
  | nil => exact segment
  | cons cell rest ih =>
    obtain ⟨here, found, onward⟩ := segment
    refine ⟨here, ?_, ih onward fun k member => same k (List.mem_cons_of_mem _ member)⟩
    rw [same cell.1 (List.mem_cons_self ..), found]

theorem lookup_of_mem {cells : List (κ × β)} (segment : Segment next t p cells q)
    {k : κ} {b : β} (member : (k, b) ∈ cells) : t.lookup k = some b := by
  induction cells generalizing p with
  | nil => cases member
  | cons cell rest ih =>
    obtain ⟨-, found, onward⟩ := segment
    rcases List.mem_cons.mp member with rfl | later
    · exact found
    · exact ih onward later

theorem relink {front : List (κ × β)} {k : κ} {b c : β}
    (segment : Segment next t p (front ++ [(k, b)]) q) (held : u.lookup k = some c)
    (same : ∀ l ∈ handles front, u.lookup l = t.lookup l) :
    Segment next u p (front ++ [(k, c)]) (next c) := by
  rw [append] at segment ⊢
  obtain ⟨m, before, here, -, -⟩ := segment
  exact ⟨m, before.frame same, here, held, rfl⟩

end Segment

namespace Chain
variable {next : β → Option κ} {t : Table κ β} {p : Option κ}

theorem null_iff {cells : List (κ × β)} (chain : Chain next t p cells) :
    p = none ↔ cells = [] := by
  cases cells with
  | nil => simpa [Chain, Segment] using chain
  | cons cell rest => simp [chain.1]

end Chain
end Syseng.Support
