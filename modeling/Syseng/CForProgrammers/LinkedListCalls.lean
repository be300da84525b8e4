import Syseng.CForProgrammers.LinkedList

/-! What one call does to the chain of its list. The heap is described by the cells of
every list: chains that end at null, as long as the length field says, and together
exactly the allocated nodes. -/

namespace Syseng.CForProgrammers.LinkedList
open Support

abbrev Cells := List (Nat × LlNode)

def values (cells : Cells) : List Int32 := cells.map fun cell => cell.2.value

@[simp] theorem values_nil : values [] = [] := rfl
@[simp] theorem values_cons (cell : Nat × LlNode) (cells : Cells) :
    values (cell :: cells) = cell.2.value :: values cells := rfl
@[simp] theorem values_append (front back : Cells) :
    values (front ++ back) = values front ++ values back := List.map_append
@[simp] theorem values_length (cells : Cells) : (values cells).length = cells.length :=
  List.length_map _

/-! The read-only walks. -/

theorem walkToLast_ok {heap : Heap} {front : Cells} {k : Nat} {last : LlNode} {p : Option Nat}
    {bound : Nat} (chain : Chain LlNode.next heap p (front ++ [(k, last)]))
    (enough : front.length < bound) : walkToLast heap bound p = .ok (some k) := by
  induction front generalizing p bound with
  | nil =>
    obtain ⟨rfl, found, ends⟩ := chain
    obtain ⟨bound, rfl⟩ := Nat.exists_eq_succ_of_ne_zero (Nat.ne_of_gt enough)
    have stops : last.next = none := ends
    simp [walkToLast, Table.deref_some found, stops]
  | cons cell rest ih =>
    obtain ⟨rfl, found, onward⟩ := chain
    obtain ⟨bound, rfl⟩ := Nat.exists_eq_succ_of_ne_zero (Nat.ne_of_gt (Nat.zero_lt_of_lt enough))
    have goes : ∃ next, cell.2.next = some next := by
      cases rest with
      | nil => exact ⟨k, onward.1⟩
      | cons cell rest => exact ⟨_, onward.1⟩
    obtain ⟨next, goes⟩ := goes
    rw [goes] at onward
    have rest := ih onward (Nat.lt_of_succ_lt_succ enough)
    simpa [walkToLast, Table.deref_some found, goes] using rest

theorem containsFrom_ok {heap : Heap} {cells : Cells} {p : Option Nat} {bound : Nat}
    (chain : Chain LlNode.next heap p cells) (enough : cells.length ≤ bound) (value : Int32) :
    containsFrom heap value bound p = .ok (if value ∈ values cells then 1 else 0) := by
  induction cells generalizing p bound with
  | nil =>
    cases chain
    simp [containsFrom]
  | cons cell rest ih =>
    obtain ⟨rfl, found, onward⟩ := chain
    obtain ⟨bound, rfl⟩ := Nat.exists_eq_succ_of_ne_zero (Nat.ne_of_gt (Nat.zero_lt_of_lt enough))
    by_cases hit : cell.2.value = value
    · simp [containsFrom, Table.deref_some found, hit]
    · have rest := ih onward (Nat.le_of_succ_le_succ enough)
      simpa [containsFrom, Table.deref_some found, hit, Ne.symm hit] using rest

theorem llGet_ok {heap : Heap} {cells : Cells} {list : LinkedList} {i : Nat}
    (chain : Chain LlNode.next heap list.head cells) (inside : i < cells.length) :
    llGet heap list i = .ok (cells[i].2.value) := by
  obtain ⟨head, length⟩ := list
  induction cells generalizing head i with
  | nil => cases inside
  | cons cell rest ih =>
    obtain ⟨rfl, found, onward⟩ := chain
    cases i with
    | zero => simp [llGet, walk, Table.deref_some found]
    | succ i =>
      have rest := ih (Nat.lt_of_succ_lt_succ inside) _ onward
      simpa [llGet, walk, Table.deref_some found] using rest

/-! The loops that edit the chain. -/

theorem freeFrom_ok {heap : Heap} {cells : Cells} {p : Option Nat} {bound : Nat}
    (chain : Chain LlNode.next heap p cells) (nodup : (handles cells).Nodup)
    (enough : cells.length ≤ bound) :
    ∃ after freed, freeFrom bound heap p = .ok after ∧
      (∀ k, after.lookup k = if k ∈ handles cells then none else heap.lookup k) ∧
      after.issued = heap.issued ∧ after.released = freed ++ heap.released ∧
      freed.map Prod.fst = (handles cells).reverse := by
  induction cells generalizing heap p bound with
  | nil =>
    cases chain
    exact ⟨heap, [], by simp [freeFrom], by simp, rfl, rfl, rfl⟩
  | cons cell rest ih =>
    obtain ⟨rfl, found, onward⟩ := chain
    obtain ⟨bound, rfl⟩ := Nat.exists_eq_succ_of_ne_zero (Nat.ne_of_gt (Nat.zero_lt_of_lt enough))
    obtain ⟨fresh, nodup⟩ := List.nodup_cons.mp nodup
    obtain ⟨heap', n, dropped, changed, issued, released⟩ := Table.free_ok found
    have frame : ∀ k ∈ handles rest, heap'.lookup k = heap.lookup k := by
      intro k member
      rw [changed, Function.update_of_ne]
      rintro rfl
      exact fresh member
    obtain ⟨after, freed, done, gone, issued', released', order⟩ :=
      ih (Segment.frame onward frame) nodup (Nat.le_of_succ_le_succ enough)
    refine ⟨after, freed ++ [(cell.1, n)], ?_, fun k => ?_, issued'.trans issued, ?_, ?_⟩
    · simpa [freeFrom, Table.deref_some found, dropped] using done
    · rw [gone k, changed]
      by_cases same : k = cell.1
      · subst same; simp
      · simp [same]
    · rw [released', released, List.append_assoc, List.singleton_append]
    · simp [order]

structure Removed (heap after : Heap) (k : Nat) (before : LlNode) (rest : Cells)
    (value : Int32) (found : Bool) (node : LlNode) (left : Cells)
    (freed : List (Nat × Nat)) : Prop where
  kept : node.value = before.value
  here : after.lookup k = some node
  onward : Chain LlNode.next after node.next left
  erased : values left = (values rest).erase value
  flag : found = decide (value ∈ values rest)
  count : left.length + (if found then 1 else 0) = rest.length
  listed : (handles rest).Perm (freed.map Prod.fst ++ handles left)
  live : ∀ l, after.Live l ↔ l ∉ freed.map Prod.fst ∧ heap.Live l
  frame : ∀ l, l ≠ k → l ∉ handles rest → after.lookup l = heap.lookup l
  issued : after.issued = heap.issued
  released : after.released = freed ++ heap.released

theorem unlink_ok {heap : Heap} {k l : Nat} {before node : LlNode} (here : heap.lookup k = some before)
    (found : heap.lookup l = some node) (differs : k ≠ l) :
    ∃ linked after n, heap.assign (some k) (fun before => { before with next := node.next }) = .ok linked ∧
      linked.free (some l) = .ok after ∧
      after.lookup k = some { before with next := node.next } ∧
      (∀ j, j ≠ k → j ≠ l → after.lookup j = heap.lookup j) ∧
      (∀ j, after.Live j ↔ j ∉ [l] ∧ heap.Live j) ∧
      after.issued = heap.issued ∧ after.released = (l, n) :: heap.released := by
  obtain ⟨linked, assigned, changed, issued, released⟩ :=
    Table.assign_ok (fun before => { before with next := node.next }) here
  have stays : linked.lookup l = some node := by
    rw [changed, Function.update_of_ne differs.symm, found]
  obtain ⟨after, n, dropped, changed', issued', released'⟩ := Table.free_ok stays
  refine ⟨linked, after, n, assigned, dropped, ?_, ?_, ?_, issued'.trans issued, ?_⟩
  · rw [changed', Function.update_of_ne differs, changed, Function.update_self]
  · intro j notK notL
    rw [changed', Function.update_of_ne notL, changed, Function.update_of_ne notK]
  · intro j
    rw [Table.live_release changed' j]
    apply and_congr_right
    intro _
    by_cases same : j = k
    · subst same; simp [Table.Live, changed, here]
    · simp [Table.Live, changed, same]
  · rw [released', released]

theorem removeFrom_ok {heap : Heap} {rest : Cells} {k : Nat} {before : LlNode} {bound : Nat}
    (here : heap.lookup k = some before) (onward : Chain LlNode.next heap before.next rest)
    (nodup : (k :: handles rest).Nodup) (enough : rest.length ≤ bound) (value : Int32) :
    ∃ after found node left freed,
      removeFrom value bound heap (some k) before.next = .ok (after, found) ∧
      Removed heap after k before rest value found node left freed := by
  induction rest generalizing k before bound with
  | nil =>
    have ends : before.next = none := onward
    refine ⟨heap, false, before, [], [], by simp [removeFrom, ends], ?_⟩
    constructor <;> simp [here, onward]
  | cons cell rest ih =>
    obtain ⟨points, found, onward⟩ := onward
    obtain ⟨bound, rfl⟩ := Nat.exists_eq_succ_of_ne_zero (Nat.ne_of_gt (Nat.zero_lt_of_lt enough))
    obtain ⟨apart, nodup⟩ := List.nodup_cons.mp nodup
    obtain ⟨fresh, nodup'⟩ := List.nodup_cons.mp nodup
    have differs : k ≠ cell.1 := fun same => apart (same ▸ List.mem_cons_self ..)
    by_cases hit : cell.2.value = value
    · obtain ⟨linked, after, n, assigned, dropped, relinked, frame, live, issued, released⟩ :=
        unlink_ok here found differs
      refine ⟨after, true, { before with next := cell.2.next }, rest, [(cell.1, n)], ?_, ?_⟩
      · simp [removeFrom, points, Table.deref_some found, hit, assigned, dropped]
      · constructor
        · rfl
        · exact relinked
        · refine Segment.frame onward fun l member => frame l ?_ ?_
          · rintro rfl
            exact apart (List.mem_cons_of_mem _ member)
          · rintro rfl
            exact fresh member
        · simp [hit]
        · simp [hit]
        · simp
        · simp
        · exact live
        · exact fun l notK notListed => frame l notK fun same => notListed (by simp [same])
        · exact issued
        · exact released
    · obtain ⟨after, removed, node, left, freed, done, result⟩ :=
        ih found onward nodup (Nat.le_of_succ_le_succ enough)
      have untouched : after.lookup k = some before := by
        rw [result.frame k differs (fun member => apart (List.mem_cons_of_mem _ member)), here]
      refine ⟨after, removed, before, (cell.1, node) :: left, freed, ?_, ?_⟩
      · simpa [removeFrom, points, Table.deref_some found, hit] using done
      · constructor
        · rfl
        · exact untouched
        · exact ⟨points, result.here, result.onward⟩
        · simp [result.kept, result.erased, hit]
        · simp [result.flag, Ne.symm hit]
        · have counted := result.count
          simp only [List.length_cons]
          omega
        · have listed := result.listed.cons cell.1
          exact listed.trans List.perm_middle.symm
        · exact result.live
        · intro l notK notListed
          rw [handles_cons, List.mem_cons, not_or] at notListed
          exact result.frame l notListed.1 notListed.2
        · exact result.issued
        · exact result.released

/-! Each call, on a list `i` of a family whose nodes `own` lists. -/

section Calls
variable {ι : Type} {heap after : Heap} {own : ι → List Nat} {i : ι} {list : LinkedList}
  {cells : Cells}

structure Held (heap : Heap) (own : ι → List Nat) (i : ι) (list : LinkedList)
    (cells : Cells) : Prop where
  chain : Chain LlNode.next heap list.head cells
  length : list.length = cells.length
  owns : Owns heap own
  listed : own i = handles cells

theorem Held.nodup (held : Held heap own i list cells) : (handles cells).Nodup :=
  held.listed ▸ held.owns.nodup i

theorem Held.live (held : Held heap own i list cells) {k : Nat} (member : k ∈ handles cells) :
    heap.Live k :=
  (held.owns.live_iff k).mpr ⟨i, held.listed ▸ member⟩

variable [DecidableEq ι]

/-- After a call the list has the cells `cells'`; no other list's node has changed, and the
nodes freed are nodes of the list that have left its chain. -/
structure Done (heap after : Heap) (own : ι → List Nat) (i : ι) (cells : Cells)
    (list' : LinkedList) (cells' : Cells) : Prop where
  chain : Chain LlNode.next after list'.head cells'
  length : list'.length = cells'.length
  owns : Owns after (Function.update own i (handles cells'))
  frame : ∀ l, heap.Live l → l ∉ handles cells → after.lookup l = heap.lookup l
  freed : ∃ freed, after.released = freed ++ heap.released ∧
    ∀ c ∈ freed, c.1 ∈ handles cells ∧ c.1 ∉ handles cells'

theorem Held.unchanged (held : Held heap own i list cells) : Done heap heap own i cells list cells where
  chain := held.chain
  length := held.length
  owns := by
    rw [← held.listed, Function.update_eq_self]
    exact held.owns
  frame := fun _ _ _ => rfl
  freed := ⟨[], rfl, by simp⟩

theorem malloc_filled {malloc : Malloc} (fresh : ¬ heap.Live malloc.addr)
    (first second : LlNode → LlNode) :
    ∃ one two three : Heap, heap.acquire malloc.addr malloc.junk = .ok one ∧
      one.assign (some malloc.addr) first = .ok two ∧
      two.assign (some malloc.addr) second = .ok three ∧
      three.lookup = Function.update heap.lookup malloc.addr (some (second (first malloc.junk))) ∧
      (∀ l, heap.Live l → three.lookup l = heap.lookup l) ∧ three.released = heap.released := by
  have vacant : heap.lookup malloc.addr = none := by simpa [Table.Live] using fresh
  obtain ⟨one, acquired, look, -, released⟩ := Table.acquire_ok malloc.junk vacant
  obtain ⟨two, filled, look', -, released'⟩ :=
    Table.assign_ok (t := one) first (by rw [look, Function.update_self])
  obtain ⟨three, filled', look'', -, released''⟩ :=
    Table.assign_ok (t := two) second (by rw [look', Function.update_self])
  have all : three.lookup =
      Function.update heap.lookup malloc.addr (some (second (first malloc.junk))) := by
    rw [look'', look', look, Function.update_idem, Function.update_idem]
  refine ⟨one, two, three, acquired, filled, filled', all, fun l live => ?_, ?_⟩
  · rw [all, Function.update_of_ne]
    rintro rfl
    exact fresh live
  · rw [released'', released', released]

theorem Held.released (held : Held heap own i list cells) {list' : LinkedList} {cells' : Cells}
    {freed : List (Nat × Nat)} (chain : Chain LlNode.next after list'.head cells')
    (length : list'.length = cells'.length)
    (split : (handles cells).Perm (freed.map Prod.fst ++ handles cells'))
    (live : ∀ l, after.Live l ↔ l ∉ freed.map Prod.fst ∧ heap.Live l)
    (frame : ∀ l, l ∉ handles cells → after.lookup l = heap.lookup l)
    (logged : after.released = freed ++ heap.released) :
    Done heap after own i cells list' cells' where
  chain := chain
  length := length
  owns := held.owns.release (held.listed ▸ split) live
  frame := fun l _ other => frame l other
  freed := by
    refine ⟨freed, logged, fun c member => ?_⟩
    have dropped := List.mem_map_of_mem (f := Prod.fst) member
    refine ⟨split.mem_iff.mpr (List.mem_append_left _ dropped), fun kept => ?_⟩
    exact (List.nodup_append.mp (split.nodup_iff.mp held.nodup)).2.2 c.1 dropped c.1 kept rfl

theorem llPushFront_done (held : Held heap own i list cells) (value : Int32) {malloc : Malloc}
    (fresh : ¬ heap.Live malloc.addr) :
    ∃ after list' cells', llPushFront heap list value malloc = .ok (after, list') ∧
      values cells' = value :: values cells ∧ Done heap after own i cells list' cells' := by
  obtain ⟨one, two, after, acquired, filled, filled', look, frame, released⟩ :=
    malloc_filled fresh (fun node => { node with value := value })
      (fun node => { node with next := list.head })
  refine ⟨after, { head := some malloc.addr, length := list.length + 1 },
    (malloc.addr, { value := value, next := list.head }) :: cells, ?_, rfl, ?_⟩
  · simp [llPushFront, acquired, filled, filled']
  · constructor
    · refine ⟨rfl, by rw [look, Function.update_self], ?_⟩
      exact Segment.frame held.chain fun l member => frame l (held.live member)
    · simp [held.length]
    · rw [handles_cons, ← held.listed]
      exact held.owns.acquire (by simpa [Table.Live] using fresh) (Table.live_acquire look) i
    · exact fun l live _ => frame l live
    · exact ⟨[], released, by simp⟩

theorem llPushBack_done (held : Held heap own i list cells) (value : Int32) {malloc : Malloc}
    (fresh : ¬ heap.Live malloc.addr) :
    ∃ after list' cells', llPushBack heap list value malloc = .ok (after, list') ∧
      values cells' = values cells ++ [value] ∧ Done heap after own i cells list' cells' := by
  obtain ⟨one, two, heap', acquired, filled, filled', look, frame, released⟩ :=
    malloc_filled fresh (fun node => { node with next := none })
      (fun node => { node with value := value })
  have owned : Owns heap' (Function.update own i (handles cells ++ [malloc.addr])) := by
    have taken := held.owns.acquire (by simpa [Table.Live] using fresh) (Table.live_acquire look) i
    refine taken.of_perm fun j => ?_
    by_cases same : j = i
    · subst same
      simp [held.listed]
    · simp [same]
  rcases List.eq_nil_or_concat cells with rfl | ⟨front, ⟨k, last⟩, rfl⟩
  · refine ⟨heap', { head := some malloc.addr, length := list.length + 1 },
      [(malloc.addr, { value := value, next := none })], ?_, rfl, ?_⟩
    · have empty : list.length = 0 := held.length
      simp [llPushBack, acquired, filled, filled', empty]
    · constructor
      · exact ⟨rfl, by rw [look, Function.update_self], rfl⟩
      · simp [held.length]
      · exact owned
      · exact fun l live _ => frame l live
      · exact ⟨[], released, by simp⟩
  · rw [List.concat_eq_append] at held owned ⊢
    have chain : Chain LlNode.next heap' list.head (front ++ [(k, last)]) :=
      Segment.frame held.chain fun l member => frame l (held.live member)
    have distinct : k ≠ malloc.addr := by
      rintro rfl
      exact fresh (held.live (by simp))
    have found : heap'.lookup k = some last := Segment.lookup_of_mem chain (by simp)
    obtain ⟨after, linked, look', -, released'⟩ :=
      Table.assign_ok (fun node => { node with next := some malloc.addr }) found
    refine ⟨after, { list with length := list.length + 1 },
      front ++ [(k, { last with next := some malloc.addr })] ++
        [(malloc.addr, { value := value, next := none })], ?_, by simp, ?_⟩
    · have some_ : list.length ≠ 0 := by simp [held.length]
      have walked : walkToLast heap' list.length list.head = .ok (some k) :=
        walkToLast_ok chain (by simp [held.length])
      simp [llPushBack, acquired, filled, filled', some_, walked, linked]
    · constructor
      · refine (Segment.append _ _).mpr ⟨some malloc.addr,
          Segment.relink chain (by rw [look', Function.update_self]) ?_,
          rfl, ?_, rfl⟩
        · intro l member
          rw [look', Function.update_of_ne]
          rintro rfl
          have nodup := held.nodup
          rw [handles_append] at nodup
          exact (List.nodup_append.mp nodup).2.2 l member l (by simp) rfl
        · rw [look', Function.update_of_ne distinct.symm, look, Function.update_self]
      · simp [held.length]
      · simpa using owned.modify found look'
      · intro l live other
        rw [look', Function.update_of_ne, frame l live]
        rintro rfl
        exact other (by simp)
      · exact ⟨[], released'.trans released, by simp⟩

theorem Held.dropHead {cell : Nat × LlNode} {rest : Cells}
    (held : Held heap own i list (cell :: rest)) :
    ∃ after, heap.free list.head = .ok after ∧
      Done heap after own i (cell :: rest) { head := cell.2.next, length := list.length - 1 } rest := by
  obtain ⟨here, found, onward⟩ := held.chain
  obtain ⟨after, n, dropped, changed, -, released⟩ := Table.free_ok found
  have fresh := (List.nodup_cons.mp held.nodup).1
  have split : (handles (cell :: rest)).Perm ([(cell.1, n)].map Prod.fst ++ handles rest) :=
    List.Perm.refl _
  refine ⟨after, here ▸ dropped, held.released ?_ ?_ split (Table.live_release changed) ?_ released⟩
  · refine Segment.frame onward fun l member => ?_
    rw [changed, Function.update_of_ne]
    rintro rfl
    exact fresh member
  · simp [held.length]
  · intro l other
    rw [changed, Function.update_of_ne]
    rintro rfl
    exact other (by simp)

theorem llPopFront_done (held : Held heap own i list cells) (some_ : list.length ≠ 0) :
    ∃ after list' val cells', llPopFront heap list = .ok (after, list', val) ∧
      values cells = val :: values cells' ∧ Done heap after own i cells list' cells' := by
  cases cells with
  | nil => exact absurd held.length some_
  | cons cell rest =>
    obtain ⟨here, found, -⟩ := held.chain
    obtain ⟨after, dropped, done⟩ := held.dropHead
    refine ⟨after, _, cell.2.value, rest, ?_, rfl, done⟩
    rw [here] at dropped
    simp [llPopFront, here, Table.deref_some found, dropped]

theorem llRemove_done (held : Held heap own i list cells) (value : Int32) :
    ∃ after list' cells',
      llRemove heap list value = .ok (after, list', if value ∈ values cells then 1 else 0) ∧
      values cells' = (values cells).erase value ∧ Done heap after own i cells list' cells' := by
  cases cells with
  | nil =>
    have empty : list.length = 0 := held.length
    exact ⟨heap, list, [], by simp [llRemove, empty], rfl, held.unchanged⟩
  | cons cell rest =>
    obtain ⟨here, found, onward⟩ := held.chain
    have some_ : list.length ≠ 0 := by simp [held.length]
    by_cases hit : cell.2.value = value
    · obtain ⟨after, dropped, done⟩ := held.dropHead
      refine ⟨after, _, rest, ?_, by simp [hit], done⟩
      rw [here] at dropped
      simp [llRemove, some_, here, Table.deref_some found, hit, dropped]
    · have enough : rest.length ≤ list.length := by simp [held.length]
      obtain ⟨after, removed, node, left, freed, searched, result⟩ :=
        removeFrom_ok found onward held.nodup enough value
      have chain : Chain LlNode.next after list.head ((cell.1, node) :: left) :=
        ⟨here, result.here, result.onward⟩
      have split : (handles (cell :: rest)).Perm
          (freed.map Prod.fst ++ handles ((cell.1, node) :: left)) :=
        (result.listed.cons cell.1).trans List.perm_middle.symm
      have frame : ∀ l, l ∉ handles (cell :: rest) → after.lookup l = heap.lookup l := by
        intro l other
        rw [handles_cons, List.mem_cons, not_or] at other
        exact result.frame l other.1 other.2
      have erased : values ((cell.1, node) :: left) = (values (cell :: rest)).erase value := by
        simp [result.kept, result.erased, hit]
      have counted := result.count
      have flag := result.flag
      by_cases there : value ∈ values rest
      · refine ⟨after, { list with length := list.length - 1 }, _, ?_, erased,
          held.released chain ?_ split result.live frame result.released⟩
        · simp [llRemove, some_, here, Table.deref_some found, hit, searched, flag, there]
        · simp only [held.length, flag, there, decide_true, if_true, List.length_cons] at counted ⊢
          omega
      · refine ⟨after, list, _, ?_, erased,
          held.released chain ?_ split result.live frame result.released⟩
        · simp [llRemove, some_, here, Table.deref_some found, hit, searched, flag, there, Ne.symm hit]
        · simp only [held.length, flag, there, decide_false, Bool.false_eq_true, if_false,
            List.length_cons] at counted ⊢
          omega

theorem llFree_done (held : Held heap own i list cells) :
    ∃ after list', llFree heap list = .ok (after, list') ∧ Done heap after own i cells list' [] := by
  obtain ⟨after, freed, done, gone, -, released, order⟩ :=
    freeFrom_ok held.chain held.nodup (Nat.le_of_eq held.length.symm)
  have mem_freed : ∀ l, l ∈ freed.map Prod.fst ↔ l ∈ handles cells := by simp [order]
  refine ⟨after, { list with head := none, length := 0 }, by simp [llFree, done],
    held.released rfl rfl ?_ ?_ ?_ released⟩
  · simp [order]
  · intro l
    rw [mem_freed, Table.Live, gone l]
    by_cases member : l ∈ handles cells <;> simp [member]
  · intro l other
    rw [gone l, if_neg other]

/-- Any call: it returns what the mathematical list returns, and keeps the heap in shape. -/
theorem run_done (held : Held heap own i list cells) (call : Call) (may : allowed heap list call) :
    ∃ after list' cells', run heap list call = .ok (after, list', (listCall (values cells) call).2) ∧
      values cells' = (listCall (values cells) call).1 ∧ Done heap after own i cells list' cells' := by
  cases call with
  | pushFront value malloc =>
    obtain ⟨after, list', cells', ran, same, done⟩ := llPushFront_done held value may
    exact ⟨after, list', cells', by simp [run, ran, listCall], same, done⟩
  | pushBack value malloc =>
    obtain ⟨after, list', cells', ran, same, done⟩ := llPushBack_done held value may
    exact ⟨after, list', cells', by simp [run, ran, listCall], same, done⟩
  | popFront =>
    obtain ⟨after, list', val, cells', ran, same, done⟩ := llPopFront_done held may
    exact ⟨after, list', cells', by simp [run, ran, listCall, same], by simp [listCall, same], done⟩
  | contains value =>
    have ran := containsFrom_ok held.chain (Nat.le_of_eq held.length.symm) value
    exact ⟨heap, list, cells, by simp [run, llContains, ran, listCall], rfl, held.unchanged⟩
  | get i =>
    have inside : i < cells.length := held.length ▸ may
    have ran := llGet_ok held.chain inside
    exact ⟨heap, list, cells, by simp [run, ran, listCall, values, inside], rfl, held.unchanged⟩
  | remove value =>
    obtain ⟨after, list', cells', ran, same, done⟩ := llRemove_done held value
    exact ⟨after, list', cells', by simp [run, ran, listCall], same, done⟩
  | free =>
    obtain ⟨after, list', ran, done⟩ := llFree_done held
    exact ⟨after, list', [], by simp [run, ran, listCall], rfl, done⟩

end Calls

end Syseng.CForProgrammers.LinkedList
