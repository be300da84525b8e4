import Mathlib.Algebra.Order.Ring.Int
import Syseng.Support.Pointer

/-! Memory in blocks of elements, and pointers that move through a block. Every access is
recorded, so that a call can be said to read and write nothing but certain elements. -/

namespace Syseng.Support

/-- NULL has no block. Any offset can be formed, and one outside the block cannot be used. -/
structure Ptr (κ : Type) where
  block : Option κ
  offset : Int
  deriving DecidableEq

namespace Ptr
variable {κ : Type}

def null : Ptr κ := { block := none, offset := 0 }

def plus (p : Ptr κ) (i : Int) : Ptr κ := { p with offset := p.offset + i }

@[simp] theorem plus_block (p : Ptr κ) (i : Int) : (p.plus i).block = p.block := rfl

@[simp] theorem plus_offset (p : Ptr κ) (i : Int) : (p.plus i).offset = p.offset + i := rfl

@[simp] theorem plus_zero (p : Ptr κ) : p.plus 0 = p := by
  simp [plus]

@[simp] theorem plus_plus (p : Ptr κ) (i j : Int) : (p.plus i).plus j = p.plus (i + j) := by
  simp [plus, Int.add_assoc]

def minus [DecidableEq κ] (p q : Ptr κ) : Except Fault Int64 :=
  if p.block = q.block ∧ -2 ^ 63 ≤ p.offset - q.offset ∧ p.offset - q.offset < 2 ^ 63 then
    .ok (Int64.ofInt (p.offset - q.offset))
  else .error .outOfRange

theorem minus_plus [DecidableEq κ] (p : Ptr κ) {n : Nat} (small : n < 2 ^ 63) :
    ∃ d, (p.plus n).minus p = .ok d ∧ d.toUInt64.toNat = n := by
  refine ⟨Int64.ofInt n, ?_, ?_⟩
  · unfold minus
    simp only [plus_block, plus_offset, true_and]
    rw [show p.offset + (n : Int) - p.offset = n by omega]
    apply if_pos
    omega
  · rw [Int64.ofInt_eq_ofNat, Int64.toUInt64_ofNat', UInt64.toNat_ofNat']
    omega

theorem minus_far [DecidableEq κ] (p : Ptr κ) {n : Nat} (large : ¬ n < 2 ^ 63) :
    (p.plus n).minus p = .error .outOfRange := by
  unfold minus
  simp only [plus_block, plus_offset, true_and]
  rw [show p.offset + (n : Int) - p.offset = n by omega]
  apply if_neg
  omega

def Covers (p : Ptr κ) (n : Nat) (q : Ptr κ) : Prop :=
  q.block = p.block ∧ p.offset ≤ q.offset ∧ q.offset < p.offset + n

theorem covers_plus (p : Ptr κ) {i n : Nat} (inside : i < n) : p.Covers n (p.plus i) := by
  unfold Covers
  simp only [plus_block, plus_offset, true_and]
  omega

theorem covers_self (p : Ptr κ) (n : Nat) : p.Covers (n + 1) p := by
  simpa using p.covers_plus (Nat.succ_pos n)

theorem Covers.index {p q : Ptr κ} {n : Nat} (covers : p.Covers n q) : ∃ i < n, q = p.plus (i : Nat) := by
  obtain ⟨block, low, high⟩ := covers
  have offset : p.offset + ((q.offset - p.offset).toNat : Int) = q.offset := by omega
  refine ⟨(q.offset - p.offset).toNat, by omega, ?_⟩
  rw [plus, offset, ← block]

theorem not_covers_next (p : Ptr κ) (n : Nat) : ¬ (p.plus 1).Covers n p := by
  intro covers
  have low := covers.2.1
  rw [plus_offset] at low
  omega

theorem not_covers_end (p : Ptr κ) (n : Nat) : ¬ p.Covers n (p.plus n) := by
  intro covers
  have high := covers.2.2
  rw [plus_offset] at high
  omega

theorem Covers.mono {p q : Ptr κ} {i n m : Nat} (covers : (p.plus i).Covers n q) (fits : i + n ≤ m) :
    p.Covers m q := by
  obtain ⟨block, low, high⟩ := covers
  rw [plus_offset] at low high
  exact ⟨block, by omega, by omega⟩

theorem Covers.longer {p q : Ptr κ} {n m : Nat} (covers : p.Covers n q) (fits : n ≤ m) : p.Covers m q :=
  ⟨covers.1, covers.2.1, by have := covers.2.2; omega⟩

theorem Covers.next {p q : Ptr κ} {n : Nat} (covers : (p.plus 1).Covers n q) : p.Covers (n + 1) q :=
  Covers.mono (i := 1) covers (Nat.le_of_eq (Nat.add_comm 1 n))

theorem Covers.not_later {p q : Ptr κ} {n m : Nat} (covers : p.Covers n q) :
    ¬ (p.plus n).Covers m q := by
  intro later
  have high := covers.2.2
  have low := later.2.1
  rw [plus_offset] at low
  omega

/-- Two stretches of elements with none in common. -/
def Apart (p : Ptr κ) (n : Nat) (q : Ptr κ) (m : Nat) : Prop :=
  p.block ≠ q.block ∨ p.offset + n ≤ q.offset ∨ q.offset + m ≤ p.offset

instance [DecidableEq κ] (p q : Ptr κ) (n m : Nat) : Decidable (p.Apart n q m) :=
  inferInstanceAs (Decidable (_ ∨ _ ∨ _))

theorem Apart.not_covers {p q r : Ptr κ} {n m : Nat} (apart : p.Apart n q m)
    (covers : q.Covers m r) : ¬ p.Covers n r := by
  unfold Covers at covers ⊢
  rintro ⟨block, low, high⟩
  rcases apart with other | before | behind
  · exact other (block.symm.trans covers.1)
  · omega
  · omega

theorem Apart.parts {p q : Ptr κ} {i j : Int} {n m k l : Nat} (apart : p.Apart k q l)
    (left : 0 ≤ i ∧ i + n ≤ k) (right : 0 ≤ j ∧ j + m ≤ l) : (p.plus i).Apart n (q.plus j) m := by
  rcases apart with other | before | behind
  · exact Or.inl other
  · apply Or.inr (Or.inl _)
    rw [plus_offset, plus_offset]
    omega
  · apply Or.inr (Or.inr _)
    rw [plus_offset, plus_offset]
    omega

theorem Apart.part {p q : Ptr κ} {i n m k : Nat} (apart : p.Apart k q m) (inside : i + n ≤ k) :
    (p.plus i).Apart n q m := by
  simpa using apart.parts (i := i) (j := 0) (n := n) (m := m) (by omega) (by omega)

theorem Apart.shorter {p q : Ptr κ} {n m k : Nat} (apart : p.Apart k q m) (fits : n ≤ k) :
    p.Apart n q m := by
  simpa using apart.part (i := 0) (n := n) (by omega)

theorem Apart.next {p q : Ptr κ} {n m : Nat} (apart : p.Apart (n + 1) q (m + 1)) :
    (p.plus 1).Apart n (q.plus 1) m :=
  apart.parts (by omega) (by omega)

end Ptr

/-- `reads` and `writes` list the accesses, latest first. -/
structure Memory (κ α : Type) where
  blocks : Table κ (List α)
  reads : List (Ptr κ)
  writes : List (Ptr κ)

namespace Memory
variable {κ α : Type}

def cell (mem : Memory κ α) (p : Ptr κ) : Option α :=
  if 0 ≤ p.offset then (p.block.bind mem.blocks.lookup).bind (·[p.offset.toNat]?) else none

def extent (mem : Memory κ α) (p : Ptr κ) : Nat :=
  ((p.block.bind mem.blocks.lookup).map List.length).getD 0

theorem cell_extent {mem : Memory κ α} {p : Ptr κ} (there : (mem.cell p).isSome) :
    0 ≤ p.offset ∧ p.offset < mem.extent p := by
  unfold cell at there
  unfold extent
  split at there
  · next low =>
    cases found : p.block.bind mem.blocks.lookup with
    | none => simp [found] at there
    | some xs =>
      simp only [found, Option.bind_some, isSome_getElem?] at there
      simp only [Option.map_some, Option.getD_some]
      omega
  · cases there

theorem cell_vacant {mem : Memory κ α} {p : Ptr κ} {k : κ} (vacant : mem.blocks.lookup k = none)
    (there : (mem.cell p).isSome) : p.block ≠ some k := by
  intro block
  simp [cell, block, vacant] at there

def load (mem : Memory κ α) (p : Ptr κ) : Except Fault (Memory κ α × α) := do
  let x ← (if 0 ≤ p.offset then mem.blocks.load p.block p.offset.toNat else .error .outOfRange)
  .ok ({ mem with reads := p :: mem.reads }, x)

def store [DecidableEq κ] (mem : Memory κ α) (p : Ptr κ) (x : α) : Except Fault (Memory κ α) := do
  let blocks ← (if 0 ≤ p.offset then mem.blocks.store p.block p.offset.toNat x else .error .outOfRange)
  .ok { mem with blocks, writes := p :: mem.writes }

def storeAll [DecidableEq κ] : Memory κ α → Ptr κ → List α → Except Fault (Memory κ α)
  | mem, _, [] => .ok mem
  | mem, p, x :: xs => do
    let mem ← mem.store p x
    storeAll mem (p.plus 1) xs

def allocate [DecidableEq κ] (mem : Memory κ α) (k : κ) (xs : List α) :
    Except Fault (Memory κ α × Ptr κ) := do
  let blocks ← mem.blocks.acquire k xs
  .ok ({ mem with blocks }, { block := some k, offset := 0 })

def free [DecidableEq κ] (mem : Memory κ α) (p : Ptr κ) : Except Fault (Memory κ α) := do
  let blocks ← (if p.offset = 0 then mem.blocks.free p.block else .error .outOfRange)
  .ok { mem with blocks }

def noted (mem : Memory κ α) (p : Ptr κ) : Memory κ α := { mem with reads := p :: mem.reads }

theorem cell_eq_some {mem : Memory κ α} {p : Ptr κ} {x : α} (there : mem.cell p = some x) :
    0 ≤ p.offset ∧ ∃ k xs, p.block = some k ∧ mem.blocks.lookup k = some xs ∧
      xs[p.offset.toNat]? = some x := by
  unfold cell at there
  split at there
  · next low =>
    obtain ⟨xs, found, element⟩ := Option.bind_eq_some_iff.mp there
    obtain ⟨k, block, held⟩ := Option.bind_eq_some_iff.mp found
    exact ⟨low, k, xs, block, held, element⟩
  · cases there

theorem load_ok {mem : Memory κ α} {p : Ptr κ} {x : α} (there : mem.cell p = some x) :
    mem.load p = .ok (mem.noted p, x) := by
  obtain ⟨low, k, xs, block, held, element⟩ := cell_eq_some there
  simp [load, low, block, Table.load_ok held element, noted]

theorem load_after {mem : Memory κ α} {p : Ptr κ} {x : α} (q : Ptr κ) (there : mem.cell p = some x) :
    (mem.noted q).load p = .ok ((mem.noted q).noted p, x) :=
  load_ok there

theorem load_none {mem : Memory κ α} {p : Ptr κ} (gone : mem.cell p = none) :
    ∃ fault, mem.load p = .error fault ∧ fault ≠ .diverged := by
  unfold cell at gone
  unfold load
  by_cases low : 0 ≤ p.offset
  · cases block : p.block with
    | none => exact ⟨.nullPointer, by simp [low, Table.load], by decide⟩
    | some k =>
      cases held : mem.blocks.lookup k with
      | none => exact ⟨.notLive, by simp [low, Table.load, Table.deref, held], by decide⟩
      | some xs =>
        simp only [low, block, held, if_true, Option.bind_some] at gone
        exact ⟨.outOfRange, by simp [low, Table.load, Table.deref, held, gone], by decide⟩
  · exact ⟨.outOfRange, by simp [low], by decide⟩

theorem load_noted {mem u : Memory κ α} {p : Ptr κ} {x : α} (loaded : mem.load p = .ok (u, x)) :
    u = mem.noted p := by
  obtain ⟨y, -, rest⟩ := bind_ok loaded
  cases rest
  rfl

section Stores
variable [DecidableEq κ]

theorem cell_modified {mem : Memory κ α} {u : Table κ (List α)} {p : Ptr κ} {k : κ} {xs : List α}
    {x : α} (block : p.block = some k) (held : mem.blocks.lookup k = some xs)
    (inside : p.offset.toNat < xs.length) (low : 0 ≤ p.offset)
    (changed : u.lookup = Function.update mem.blocks.lookup k (some (xs.set p.offset.toNat x))) :
    cell { mem with blocks := u, writes := p :: mem.writes } = Function.update mem.cell p (some x) := by
  ext q : 1
  by_cases here : q = p
  · subst here
    rw [Function.update_self]
    simp [cell, low, block, changed, inside]
  · rw [Function.update_of_ne here]
    by_cases same : q.block = some k
    · have apart : q.offset ≠ p.offset := by
        intro offsets
        apply here
        cases q
        cases p
        simp only [Ptr.mk.injEq]
        exact ⟨same.trans block.symm, offsets⟩
      unfold cell
      split
      · next positive =>
        have indices : p.offset.toNat ≠ q.offset.toNat := by omega
        simp [same, changed, held, indices]
      · rfl
    · unfold cell
      cases other : q.block with
      | none => rfl
      | some l =>
        have differs : l ≠ k := fun equal => same (by rw [other, equal])
        simp [changed, Function.update_of_ne differs]

theorem store_ok {mem : Memory κ α} {p : Ptr κ} {y : α} (x : α) (there : mem.cell p = some y) :
    ∃ u, mem.store p x = .ok u ∧ u.cell = Function.update mem.cell p (some x) ∧
      (∀ k, u.blocks.Live k ↔ mem.blocks.Live k) ∧ u.reads = mem.reads ∧
      u.writes = p :: mem.writes := by
  obtain ⟨low, k, xs, block, held, element⟩ := cell_eq_some there
  obtain ⟨inside, -⟩ := List.getElem?_eq_some_iff.mp element
  obtain ⟨u, stored, changed, -⟩ := Table.modify_ok (·.set p.offset.toNat x) held
  refine ⟨{ mem with blocks := u, writes := p :: mem.writes }, ?_,
    cell_modified block held inside low changed, fun l => ?_, rfl, rfl⟩
  · simp [store, low, block, Table.store_ok held inside, stored]
  · by_cases same : l = k
    · simp [Table.Live, changed, same, held]
    · simp [Table.Live, changed, Function.update_of_ne same]

theorem store_writes {mem u : Memory κ α} {p : Ptr κ} {x : α} (stored : mem.store p x = .ok u) :
    u.writes = p :: mem.writes := by
  obtain ⟨blocks, -, rest⟩ := bind_ok stored
  cases rest
  rfl

theorem store_none {mem : Memory κ α} {p : Ptr κ} (gone : mem.cell p = none) (x : α) :
    ∃ fault, mem.store p x = .error fault ∧ fault ≠ .diverged := by
  unfold cell at gone
  unfold store
  by_cases low : 0 ≤ p.offset
  · cases block : p.block with
    | none => exact ⟨.nullPointer, by simp [low, Table.store], by decide⟩
    | some k =>
      cases held : mem.blocks.lookup k with
      | none => exact ⟨.notLive, by simp [low, Table.store, Table.deref, held], by decide⟩
      | some xs =>
        simp only [low, block, held, if_true, Option.bind_some, List.getElem?_eq_none_iff] at gone
        have outside := Table.store_outside held (Nat.not_lt.mpr gone) x
        exact ⟨.outOfRange, by simp [low, outside], by decide⟩
  · exact ⟨.outOfRange, by simp [low], by decide⟩

theorem allocate_ok {mem : Memory κ α} {k : κ} (xs : List α) (vacant : mem.blocks.lookup k = none) :
    ∃ u, mem.allocate k xs = .ok (u, { block := some k, offset := 0 }) ∧
      (∀ p, p.block ≠ some k → u.cell p = mem.cell p) ∧
      (∀ i : Nat, u.cell { block := some k, offset := i } = xs[i]?) ∧
      (∀ l, l ≠ k → (u.blocks.Live l ↔ mem.blocks.Live l)) ∧
      u.reads = mem.reads ∧ u.writes = mem.writes := by
  obtain ⟨u, acquired, changed, -⟩ := Table.acquire_ok xs vacant
  refine ⟨{ mem with blocks := u }, by simp [allocate, acquired], ?_, ?_, ?_, rfl, rfl⟩
  · intro p other
    unfold cell
    cases block : p.block with
    | none => rfl
    | some l =>
      have differs : l ≠ k := fun equal => other (by rw [block, equal])
      simp [changed, Function.update_of_ne differs]
  · intro i
    simp [cell, changed]
  · intro l other
    simp [Table.Live, changed, Function.update_of_ne other]

theorem free_ok {mem : Memory κ α} {k : κ} (live : mem.blocks.Live k) :
    ∃ u, mem.free { block := some k, offset := 0 } = .ok u ∧
      (∀ p, p.block ≠ some k → u.cell p = mem.cell p) ∧
      u.blocks.lookup = Function.update mem.blocks.lookup k none := by
  obtain ⟨xs, held⟩ := Option.isSome_iff_exists.mp live
  obtain ⟨u, -, released, changed, -⟩ := Table.free_ok held
  refine ⟨{ mem with blocks := u }, by simp [free, released], fun p other => ?_, changed⟩
  unfold cell
  cases block : p.block with
  | none => rfl
  | some l =>
    have differs : l ≠ k := fun equal => other (by rw [block, equal])
    simp [changed, Function.update_of_ne differs]

end Stores

/-- The elements from `p` on are `xs`. -/
def Stores (mem : Memory κ α) : Ptr κ → List α → Prop
  | _, [] => True
  | p, x :: xs => mem.cell p = some x ∧ mem.Stores (p.plus 1) xs

instance decidableStores [DecidableEq α] (mem : Memory κ α) :
    (p : Ptr κ) → (xs : List α) → Decidable (mem.Stores p xs)
  | _, [] => inferInstanceAs (Decidable True)
  | p, x :: xs =>
    have := decidableStores mem (p.plus 1) xs
    inferInstanceAs (Decidable (mem.cell p = some x ∧ mem.Stores (p.plus 1) xs))

/-- There are `n` elements from `p` on. -/
def Room (mem : Memory κ α) (p : Ptr κ) (n : Nat) : Prop :=
  ∀ i < n, (mem.cell (p.plus (i : Nat))).isSome

instance (mem : Memory κ α) (p : Ptr κ) (n : Nat) : Decidable (mem.Room p n) :=
  inferInstanceAs (Decidable (∀ i < n, _))

theorem stores_iff {mem : Memory κ α} {p : Ptr κ} {xs : List α} :
    mem.Stores p xs ↔ ∀ (i : Nat) x, xs[i]? = some x → mem.cell (p.plus i) = some x := by
  induction xs generalizing p with
  | nil => simp [Stores]
  | cons y xs ih =>
    simp only [Stores, ih, Ptr.plus_plus]
    constructor
    · rintro ⟨first, rest⟩ i x there
      cases i with
      | zero => simpa [first] using there
      | succ i =>
        have later := rest i x there
        rwa [Int.add_comm] at later
    · intro each
      refine ⟨by simpa using each 0 y rfl, fun i x there => ?_⟩
      have later := each (i + 1) x there
      rwa [Int.natCast_succ, Int.add_comm] at later

theorem Stores.same {mem u : Memory κ α} {p q : Ptr κ} {xs : List α} (here : mem.Stores p xs)
    (there : u.Stores p xs) (covers : p.Covers xs.length q) : u.cell q = mem.cell q := by
  obtain ⟨i, inside, rfl⟩ := covers.index
  have element := List.getElem?_eq_getElem inside
  rw [stores_iff.mp here i _ element, stores_iff.mp there i _ element]

theorem Stores.room {mem : Memory κ α} {p : Ptr κ} {xs : List α} (stores : mem.Stores p xs) :
    mem.Room p xs.length := by
  intro i inside
  rw [stores_iff.mp stores i _ (List.getElem?_eq_getElem inside)]
  rfl

theorem stores_append {mem : Memory κ α} {p : Ptr κ} {xs ys : List α} :
    mem.Stores p (xs ++ ys) ↔ mem.Stores p xs ∧ mem.Stores (p.plus xs.length) ys := by
  induction xs generalizing p with
  | nil => simp [Stores]
  | cons x xs ih =>
    have lengths : (1 : Int) + xs.length = (x :: xs).length := by
      rw [List.length_cons]
      omega
    simp only [List.cons_append, Stores, ih, Ptr.plus_plus, lengths, and_assoc]

theorem Stores.frame {mem u : Memory κ α} {p : Ptr κ} {xs : List α} (stores : mem.Stores p xs)
    (same : ∀ q, p.Covers xs.length q → u.cell q = mem.cell q) : u.Stores p xs := by
  induction xs generalizing p with
  | nil => trivial
  | cons x xs ih =>
    obtain ⟨first, rest⟩ := stores
    refine ⟨(same p (p.covers_self _)).trans first, ih rest fun q covers => same q ?_⟩
    exact covers.next

theorem room_zero (mem : Memory κ α) (p : Ptr κ) : mem.Room p 0 :=
  fun _ below => absurd below (Nat.not_lt_zero _)

theorem room_succ {mem : Memory κ α} {p : Ptr κ} {n : Nat} :
    mem.Room p (n + 1) ↔ (mem.cell p).isSome ∧ mem.Room (p.plus 1) n := by
  constructor
  · intro room
    refine ⟨by simpa using room 0 (Nat.succ_pos n), fun i inside => ?_⟩
    rw [Ptr.plus_plus, Int.add_comm]
    exact room (i + 1) (Nat.succ_lt_succ inside)
  · rintro ⟨first, rest⟩ i inside
    cases i with
    | zero => simpa using first
    | succ i =>
      have later := rest i (Nat.lt_of_succ_lt_succ inside)
      rwa [Ptr.plus_plus, Int.add_comm] at later

theorem room_concat {mem : Memory κ α} {p : Ptr κ} {n : Nat} :
    mem.Room p (n + 1) ↔ mem.Room p n ∧ (mem.cell (p.plus n)).isSome := by
  constructor
  · intro room
    exact ⟨fun i inside => room i (Nat.lt_succ_of_lt inside), room n (Nat.lt_succ_self n)⟩
  · rintro ⟨front, last⟩ i inside
    rcases Nat.lt_succ_iff_lt_or_eq.mp inside with below | rfl
    · exact front i below
    · exact last

theorem room_allocated {mem : Memory κ α} {k : κ} {xs : List α}
    (cells : ∀ i : Nat, mem.cell { block := some k, offset := i } = xs[i]?) (i n : Nat) :
    mem.Room { block := some k, offset := i } (n + 1) ↔ i + (n + 1) ≤ xs.length := by
  have each : ∀ j : Nat, mem.cell (({ block := some k, offset := i } : Ptr κ).plus j) = xs[i + j]? :=
    fun j => cells (i + j)
  unfold Room
  simp only [each, isSome_getElem?]
  constructor
  · intro room
    exact room n (Nat.lt_succ_self n)
  · intro fits j inside
    omega

theorem Room.part {mem : Memory κ α} {p : Ptr κ} {i n m : Nat} (room : mem.Room p m)
    (fits : i + n ≤ m) : mem.Room (p.plus i) n := by
  intro j inside
  rw [Ptr.plus_plus]
  exact room (i + j) (by omega)

theorem Room.shorter {mem : Memory κ α} {p : Ptr κ} {n m : Nat} (room : mem.Room p m) (fits : n ≤ m) :
    mem.Room p n :=
  fun i inside => room i (Nat.lt_of_lt_of_le inside fits)

theorem Room.extent {mem : Memory κ α} {p : Ptr κ} {n : Nat} (room : mem.Room p n) :
    n ≤ mem.extent p := by
  cases n with
  | zero => exact Nat.zero_le _
  | succ n =>
    obtain ⟨first, -⟩ := cell_extent (room_succ.mp room).1
    have last := cell_extent (room n (Nat.lt_succ_self n))
    have inside : p.offset + n < mem.extent p := last.2
    omega

theorem exists_block [DecidableEq κ] (k : κ) (xs : List α) :
    ∃ mem : Memory κ α, mem.Stores { block := some k, offset := 0 } xs ∧
      ∀ l ys, mem.blocks.lookup l = some ys → l = k ∧ ys = xs := by
  obtain ⟨u, -, changed, -⟩ := Table.acquire_ok (t := .empty) xs (show Table.empty.lookup k = none from rfl)
  refine ⟨{ blocks := u, reads := [], writes := [] }, ?_, fun l ys held => ?_⟩
  · apply stores_iff.mpr
    intro i x there
    simp [cell, changed, there]
  · by_cases same : l = k
    · rw [changed, same, Function.update_self] at held
      exact ⟨same, (Option.some.inj held).symm⟩
    · rw [changed, Function.update_of_ne same] at held
      cases held

theorem exists_stores [DecidableEq κ] (k : κ) (xs : List α) :
    ∃ mem : Memory κ α, mem.Stores { block := some k, offset := 0 } xs ∧
      ∀ l, l ≠ k → mem.blocks.lookup l = none := by
  obtain ⟨mem, stores, only⟩ := exists_block k xs
  refine ⟨mem, stores, fun l other => ?_⟩
  by_contra held
  obtain ⟨ys, held⟩ := Option.ne_none_iff_exists'.mp held
  exact other (only l ys held).1

def Added (old new : List (Ptr κ)) (P : Ptr κ → Prop) : Prop :=
  ∃ ps, new = ps ++ old ∧ ∀ p ∈ ps, P p

theorem Added.trans {old new newer : List (Ptr κ)} {P : Ptr κ → Prop} (first : Added old new P)
    (second : Added new newer P) : Added old newer P := by
  obtain ⟨ps, before, inside⟩ := first
  obtain ⟨qs, after, within⟩ := second
  refine ⟨qs ++ ps, by rw [after, before, List.append_assoc], fun p member => ?_⟩
  rcases List.mem_append.mp member with new | old
  · exact within p new
  · exact inside p old

theorem Added.mono {old new : List (Ptr κ)} {P Q : Ptr κ → Prop} (added : Added old new P)
    (weaker : ∀ p, P p → Q p) : Added old new Q := by
  obtain ⟨ps, same, inside⟩ := added
  exact ⟨ps, same, fun p member => weaker p (inside p member)⟩

/-- What lies between `m` and `u`: accesses to these elements. No block comes or goes. -/
structure Touches (m u : Memory κ α) (R W : Ptr κ → Prop) : Prop where
  read : Added m.reads u.reads R
  wrote : Added m.writes u.writes W
  frame : ∀ p, ¬ W p → u.cell p = m.cell p
  live : ∀ k, u.blocks.Live k ↔ m.blocks.Live k
  shape : ∀ p, (u.cell p).isSome = (m.cell p).isSome

namespace Touches
variable {m u v : Memory κ α} {R S V W : Ptr κ → Prop}

theorem mono (touches : Touches m u R W) (reads : ∀ p, R p → S p) (writes : ∀ p, W p → V p) :
    Touches m u S V where
  read := touches.read.mono reads
  wrote := touches.wrote.mono writes
  frame p outside := touches.frame p fun inside => outside (writes p inside)
  live := touches.live
  shape := touches.shape

theorem trans (first : Touches m u R W) (second : Touches u v R W) : Touches m v R W where
  read := first.read.trans second.read
  wrote := first.wrote.trans second.wrote
  frame p outside := (second.frame p outside).trans (first.frame p outside)
  live k := (second.live k).trans (first.live k)
  shape p := (second.shape p).trans (first.shape p)

theorem reading (touches : Touches m u R fun _ => False) : Touches m u R W :=
  touches.mono (fun _ => id) fun _ => False.elim

theorem writing {p : Ptr κ} (touches : Touches m u (fun _ => False) (· = p)) (inside : W p) :
    Touches m u R W := by
  apply touches.mono
  · exact fun _ => False.elim
  · rintro q rfl
    exact inside

theorem refl (m : Memory κ α) : Touches m m R W where
  read := ⟨[], rfl, by simp⟩
  wrote := ⟨[], rfl, by simp⟩
  frame _ _ := rfl
  live _ := Iff.rfl
  shape _ := rfl

theorem noted (m : Memory κ α) (p : Ptr κ) : Touches m (m.noted p) (· = p) fun _ => False where
  read := ⟨[p], rfl, by simp⟩
  wrote := ⟨[], rfl, by simp⟩
  frame _ _ := rfl
  live _ := Iff.rfl
  shape _ := rfl

theorem look (touches : Touches m u R W) {p : Ptr κ} (inside : R p) : Touches m (u.noted p) R W := by
  apply touches.trans
  apply (noted u p).mono
  · rintro q rfl
    exact inside
  · exact fun _ => False.elim

theorem stored [DecidableEq κ] {p : Ptr κ} {x : α} (there : (m.cell p).isSome)
    (changed : u.cell = Function.update m.cell p (some x))
    (live : ∀ k, u.blocks.Live k ↔ m.blocks.Live k) (reads : u.reads = m.reads)
    (writes : u.writes = p :: m.writes) : Touches m u (fun _ => False) (· = p) where
  read := ⟨[], reads, by simp⟩
  wrote := ⟨[p], writes, by simp⟩
  frame q other := by rw [changed, Function.update_of_ne other]
  live := live
  shape q := by
    by_cases here : q = p
    · rw [changed, here, Function.update_self, there]
      rfl
    · rw [changed, Function.update_of_ne here]

theorem room (touches : Touches m u R W) (p : Ptr κ) (n : Nat) : u.Room p n ↔ m.Room p n := by
  unfold Room
  simp only [touches.shape]

theorem vacant (touches : Touches m u R W) {k : κ} (vacant : m.blocks.lookup k = none) :
    u.blocks.lookup k = none := by
  have live := touches.live k
  simpa [Table.Live, vacant] using live

theorem stores (touches : Touches m u R W) {p : Ptr κ} {xs : List α} (stored : m.Stores p xs)
    (spared : ∀ q, p.Covers xs.length q → ¬ W q) : u.Stores p xs :=
  stored.frame fun q covers => touches.frame q (spared q covers)

end Touches

theorem storeAll_ok [DecidableEq κ] {mem : Memory κ α} {p : Ptr κ} (xs : List α)
    (room : mem.Room p xs.length) :
    ∃ u, mem.storeAll p xs = .ok u ∧ u.Stores p xs ∧ mem.Touches u (fun _ => False) (p.Covers xs.length) := by
  induction xs generalizing mem p with
  | nil => exact ⟨mem, rfl, trivial, Touches.refl mem⟩
  | cons x xs ih =>
    obtain ⟨here, rest⟩ := room_succ.mp room
    obtain ⟨y, there⟩ := Option.isSome_iff_exists.mp here
    obtain ⟨w, stored, changed, live, reads, writes⟩ := store_ok x there
    have first := Touches.stored here changed live reads writes
    obtain ⟨u, finished, stores, later⟩ := ih ((first.room _ _).mpr rest)
    refine ⟨u, by simp [storeAll, stored, finished], ⟨?_, stores⟩, ?_⟩
    · rw [later.frame p (p.not_covers_next _), changed, Function.update_self]
    · apply (first.mono (fun _ => id) _).trans (later.mono (fun _ => id) _)
      · rintro q rfl
        exact q.covers_self _
      · exact fun q covers => covers.next

theorem storeAll_room [DecidableEq κ] {mem u : Memory κ α} {p : Ptr κ} {xs : List α}
    (done : mem.storeAll p xs = .ok u) : mem.Room p xs.length := by
  induction xs generalizing mem p with
  | nil => exact room_zero mem p
  | cons x xs ih =>
    obtain ⟨w, stored, rest⟩ := bind_ok done
    cases there : mem.cell p with
    | none =>
      obtain ⟨fault, refused, -⟩ := store_none there x
      rw [refused] at stored
      cases stored
    | some y =>
      have here := Option.isSome_of_eq_some there
      obtain ⟨v, stored', changed, live, reads, writes⟩ := store_ok x there
      rw [stored'] at stored
      cases stored
      exact room_succ.mpr ⟨here, ((Touches.stored here changed live reads writes).room _ _).mp (ih rest)⟩

theorem Stores.here {mem : Memory κ α} {p : Ptr κ} {xs ys : List α} {x : α}
    (stores : mem.Stores p (xs ++ x :: ys)) : mem.cell (p.plus xs.length) = some x :=
  (stores_append.mp stores).2.1

theorem Stores.replace [DecidableEq κ] {mem : Memory κ α} {p : Ptr κ} {xs ys : List α} {x : α}
    (stores : mem.Stores p (xs ++ x :: ys)) (y : α) :
    ∃ u, mem.store (p.plus xs.length) y = .ok u ∧ u.Stores p (xs ++ y :: ys) ∧
      mem.Touches u (fun _ => False) (· = p.plus xs.length) := by
  obtain ⟨u, stored, changed, live, reads, writes⟩ := store_ok y stores.here
  have touches := Touches.stored (Option.isSome_of_eq_some stores.here) changed live reads writes
  obtain ⟨front, -, back⟩ := stores_append.mp stores
  refine ⟨u, stored, stores_append.mpr ⟨?_, ?_, ?_⟩, touches⟩
  · apply touches.stores front
    rintro q covers rfl
    exact p.not_covers_end _ covers
  · rw [changed, Function.update_self]
  · apply touches.stores back
    rintro q covers rfl
    exact (p.plus xs.length).not_covers_next _ covers

end Memory
end Syseng.Support
