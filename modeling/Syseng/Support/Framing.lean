import Mathlib.Data.List.Basic

/-! Messages in a stream, each of which tells its own length. -/

namespace Syseng.Support.Framing
variable {α : Type}

section Search
variable [DecidableEq α]

def find (pat : List α) : List α → Option Nat
  | [] => if pat = [] then some 0 else none
  | x :: xs => if pat <+: x :: xs then some 0 else (find pat xs).map (· + 1)

theorem find_first {pat xs : List α} {i : Nat} (found : find pat xs = some i) :
    pat <+: xs.drop i ∧ ∀ j < i, ¬ pat <+: xs.drop j := by
  induction xs generalizing i with
  | nil =>
    unfold find at found
    split at found
    · next empty =>
      cases found
      rw [empty]
      exact ⟨List.nil_prefix, fun j below => absurd below (Nat.not_lt_zero j)⟩
    · cases found
  | cons x xs ih =>
    unfold find at found
    split at found
    · next here =>
      cases found
      exact ⟨here, fun j below => absurd below (Nat.not_lt_zero j)⟩
    · next differs =>
      obtain ⟨k, later, rfl⟩ := Option.map_eq_some_iff.mp found
      obtain ⟨there, before⟩ := ih later
      refine ⟨there, fun j below => ?_⟩
      cases j with
      | zero => exact differs
      | succ j => exact before j (Nat.lt_of_succ_lt_succ below)

theorem find_after {c : α} {front : List α} (absent : c ∉ front) (pat rest : List α) :
    find (c :: pat) (front ++ (c :: pat ++ rest)) = some front.length := by
  induction front with
  | nil => exact if_pos (List.prefix_append _ _)
  | cons x front ih =>
    rw [List.mem_cons, not_or] at absent
    have differs : ¬ c :: pat <+: x :: (front ++ (c :: pat ++ rest)) := by
      intro here
      exact absent.1 (List.cons_prefix_cons.mp here).1
    rw [List.cons_append, find, if_neg differs, ih absent.2]
    rfl

end Search

/-- At the front of a stream `size` tells the length of each of these messages, whatever comes
after it. -/
structure Delimits (size : List α → Option Nat) (valid : List α → Prop) : Prop where
  silent : size [] = none
  nonempty : ∀ m, valid m → m ≠ []
  tells : ∀ m, valid m → ∀ rest, size (m ++ rest) = some m.length

def cutLoop (size : List α → Option Nat) : Nat → List α → List (List α) × List α
  | 0, stream => ([], stream)
  | bound + 1, stream =>
    match size stream with
    | none => ([], stream)
    | some total =>
      if stream.length < total then ([], stream)
      else
        let (messages, rest) := cutLoop size bound (stream.drop total)
        (stream.take total :: messages, rest)

/-- The messages, and what is left of the stream. There are no more rounds than elements. -/
def cut (size : List α → Option Nat) (stream : List α) : List (List α) × List α :=
  cutLoop size stream.length stream

section Delimited
variable {size : List α → Option Nat} {valid : List α → Prop}

theorem prefix_eq (delimits : Delimits size valid) {m m' : List α} (here : valid m) (there : valid m')
    (front : m <+: m') : m = m' := by
  obtain ⟨rest, rfl⟩ := front
  have short := delimits.tells m here rest
  have whole := delimits.tells (m ++ rest) there []
  rw [List.append_nil, short, Option.some.injEq, List.length_append] at whole
  have nothing : rest = [] := List.length_eq_zero_iff.mp (by omega)
  rw [nothing, List.append_nil]

theorem cutLoop_flatten (delimits : Delimits size valid) {ms : List (List α)} (all : ∀ m ∈ ms, valid m)
    {bound : Nat} (enough : ms.flatten.length ≤ bound) : cutLoop size bound ms.flatten = (ms, []) := by
  induction ms generalizing bound with
  | nil =>
    cases bound with
    | zero => rfl
    | succ bound => simp [cutLoop, delimits.silent]
  | cons m ms ih =>
    obtain ⟨here, later⟩ := List.forall_mem_cons.mp all
    have some_ : 0 < m.length := List.length_pos_of_ne_nil (delimits.nonempty m here)
    rw [List.flatten_cons, List.length_append] at enough
    cases bound with
    | zero => omega
    | succ bound =>
      have long : ¬ (m ++ ms.flatten).length < m.length := by
        rw [List.length_append]
        omega
      have shorter : ms.flatten.length ≤ bound := by omega
      simp only [List.flatten_cons, cutLoop, delimits.tells m here, if_neg long, List.drop_left,
        List.take_left, ih later shorter]

theorem cut_flatten (delimits : Delimits size valid) {ms : List (List α)} (all : ∀ m ∈ ms, valid m) :
    cut size ms.flatten = (ms, []) :=
  cutLoop_flatten delimits all (Nat.le_refl _)

end Delimited
/-- A stream cut at the sizes of the messages that were put into it gives these messages. -/
theorem cuts_agree {α : Type} {xs ys : List (List α)} {more behind : List α}
    (same : xs.flatten ++ more = ys.flatten ++ behind) (sizes : xs.map List.length <+: ys.map List.length) :
    xs <+: ys := by
  induction xs generalizing ys with
  | nil => exact List.nil_prefix
  | cons x xs ih =>
    cases ys with
    | nil => simp at sizes
    | cons y ys =>
      rw [List.map_cons, List.map_cons, List.cons_prefix_cons] at sizes
      rw [List.flatten_cons, List.flatten_cons, List.append_assoc, List.append_assoc] at same
      obtain ⟨first, rest⟩ := List.append_inj same sizes.1
      rw [first, List.cons_prefix_cons]
      exact ⟨rfl, ih rest sizes.2⟩

end Syseng.Support.Framing
