import Syseng.CForProgrammers.LinkedListCalls

/-! Whole runs of calls on lists that share one heap. -/

namespace Syseng.CForProgrammers.LinkedList
open Support
variable {ι : Type}

structure Represents (s : State ι) (cells : ι → Cells) : Prop where
  chain : ∀ i, Chain LlNode.next s.heap (s.lists i).head (cells i)
  length : ∀ i, (s.lists i).length = (cells i).length
  owns : Owns s.heap fun i => handles (cells i)

theorem Represents.held {s : State ι} {cells : ι → Cells} (shape : Represents s cells) (i : ι) :
    Held s.heap (fun j => handles (cells j)) i (s.lists i) (cells i) :=
  ⟨shape.chain i, shape.length i, shape.owns, rfl⟩

theorem start_represents (before : ι → LinkedList) : Represents (start before) fun _ => [] :=
  ⟨fun _ => rfl, fun _ => rfl, Owns.empty⟩

/-- The struct and the nodes it leads to spell out `xs`. -/
def IsList (heap : Heap) (list : LinkedList) (xs : List Int32) : Prop :=
  ∃ cells, Chain LlNode.next heap list.head cells ∧ values cells = xs ∧ list.length = xs.length

def Models (s : State ι) (xs : ι → List Int32) : Prop :=
  ∃ cells, Represents s cells ∧ ∀ i, values (cells i) = xs i

theorem Models.isList {s : State ι} {xs : ι → List Int32} (models : Models s xs) (i : ι) :
    IsList s.heap (s.lists i) (xs i) := by
  obtain ⟨cells, shape, same⟩ := models
  exact ⟨cells i, shape.chain i, same i, by rw [← same i, values_length, shape.length i]⟩

variable [DecidableEq ι]

/-- A call on one list leaves the chains of the others where they were. -/
theorem Represents.done {s : State ι} {cells : ι → Cells} (shape : Represents s cells) {i : ι}
    {after : Heap} {list' : LinkedList} {cells' : Cells}
    (done : Done s.heap after (fun j => handles (cells j)) i (cells i) list' cells') :
    Represents { heap := after, lists := Function.update s.lists i list' }
      (Function.update cells i cells') := by
  constructor
  · intro j
    by_cases same : j = i
    · subst same
      simpa using done.chain
    · rw [Function.update_of_ne same]
      change Chain LlNode.next after (Function.update s.lists i list' j).head (cells j)
      rw [Function.update_of_ne same]
      refine Segment.frame (shape.chain j) fun k member => done.frame k ?_ fun mine => ?_
      · exact (shape.owns.live_iff k).mpr ⟨j, member⟩
      · exact same (shape.owns.apart member mine)
  · intro j
    by_cases same : j = i
    · subst same
      simpa using done.length
    · simpa [same] using shape.length j
  · have owned := done.owns
    have same : (fun j => handles (Function.update cells i cells' j)) =
        Function.update (fun j => handles (cells j)) i (handles cells') := by
      funext j
      by_cases same : j = i
      · subst same; simp
      · simp [same]
    rw [same]
    exact owned

theorem step_represents {s : State ι} {cells : ι → Cells} (shape : Represents s cells)
    (i : ι) (call : Call) (may : allowed s.heap (s.lists i) call) :
    ∃ t cells', (machine ι).step s (i, call) = .ok (t, (listCall (values (cells i)) call).2) ∧
      values cells' = (listCall (values (cells i)) call).1 ∧
      Represents t (Function.update cells i cells') ∧
      (∀ j, j ≠ i → t.lists j = s.lists j) ∧
      ∃ freed, t.heap.released = freed ++ s.heap.released ∧
        ∀ c ∈ freed, c.1 ∈ handles (cells i) ∧ c.1 ∉ handles cells' := by
  obtain ⟨after, list', cells', ran, same, done⟩ := run_done (shape.held i) call may
  refine ⟨{ heap := after, lists := Function.update s.lists i list' }, cells',
    by simp [machine, ran], same, shape.done done, ?_, done.freed⟩
  intro j other
  simp [other]

def listsCall (xs : ι → List Int32) (e : ι × Call) : (ι → List Int32) × Option Int32 :=
  (Function.update xs e.1 (listCall (xs e.1) e.2).1, (listCall (xs e.1) e.2).2)

theorem step_models {s : State ι} {xs : ι → List Int32} (models : Models s xs) (e : ι × Call)
    (may : (machine ι).allowed s e) :
    ∃ t, (machine ι).step s e = .ok (t, (listsCall xs e).2) ∧ Models t (listsCall xs e).1 ∧
      ∀ j, j ≠ e.1 → t.lists j = s.lists j := by
  obtain ⟨cells, shape, same⟩ := models
  obtain ⟨t, cells', ran, same', shape', frame, -⟩ := step_represents shape e.1 e.2 may
  rw [same e.1] at ran same'
  refine ⟨t, ran, ⟨Function.update cells e.1 cells', shape', fun j => ?_⟩, frame⟩
  by_cases here : j = e.1
  · subst here
    simpa [listsCall] using same'
  · simpa [listsCall, here] using same j

theorem machine_refines : (machine ι).Refines listsCall Models := by
  intro s xs e models may
  obtain ⟨t, ran, models', -⟩ := step_models models e may
  exact ⟨t, ran, models'⟩

/-- Every run on any number of lists returns what independent mathematical lists return,
each list spells out its own mathematical list all along, and a call on one list leaves
the others as they are. No call faults, whatever came before it, `ll_free` included. -/
theorem lists_refine (before : ι → LinkedList) {es : List (ι × Call)} {vs : List (Option Int32)}
    {s : State ι} (run : (machine ι).Run (start before) es vs s) :
    vs = (Machine.replay listsCall (fun _ => []) es).2 ∧
    (∀ i, IsList s.heap (s.lists i) ((Machine.replay listsCall (fun _ => []) es).1 i)) ∧
    ∀ e, (machine ι).allowed s e → ∃ t,
      (machine ι).step s e =
        .ok (t, (listsCall (Machine.replay listsCall (fun _ => []) es).1 e).2) ∧
      ∀ j, j ≠ e.1 → t.lists j = s.lists j ∧
        IsList t.heap (t.lists j) ((Machine.replay listsCall (fun _ => []) es).1 j) := by
  have initial : Models (start before) fun _ => [] :=
    ⟨fun _ => [], start_represents before, fun _ => rfl⟩
  obtain ⟨models, returned⟩ := machine_refines.run run initial
  refine ⟨returned, models.isList, fun e may => ?_⟩
  obtain ⟨t, ran, models', frame⟩ := step_models models e may
  refine ⟨t, ran, fun j other => ⟨frame j other, ?_⟩⟩
  have here := models'.isList j
  simpa only [listsCall, Function.update_of_ne other] using here

theorem lists_refine_reuse : ∃ s : State Bool,
    (machine Bool).Run (start fun _ => { head := some 9, length := 4 })
      [(false, .pushBack 1 ⟨16, ⟨0, some 3⟩⟩), (true, .pushFront 2 ⟨32, ⟨0, none⟩⟩),
        (false, .pushBack 3 ⟨48, ⟨7, none⟩⟩), (false, .remove 1), (true, .pushBack 4 ⟨16, ⟨1, none⟩⟩),
        (true, .contains 4)]
      [none, none, none, some 1, none, some 1] s ∧
    IsList s.heap (s.lists false) [3] ∧ IsList s.heap (s.lists true) [2, 4] :=
  Machine.exists_run (by decide) fun _ run =>
    ⟨(lists_refine _ run).2.1 false, (lists_refine _ run).2.1 true⟩

def Nodes (heap : Heap) (list : LinkedList) (nodes : List Nat) : Prop :=
  ∃ cells, Chain LlNode.next heap list.head cells ∧ handles cells = nodes

/-- What holds of one list and its heap between calls. `calls` says that no call touches
null or a freed node, and that what it frees is allocated, was in the chain and has left it. -/
structure Disciplined (heap : Heap) (list : LinkedList) (nodes : List Nat) : Prop where
  reached : Nodes heap list nodes
  distinct : nodes.Nodup
  allocated : ∀ k, heap.Live k ↔ k ∈ nodes
  count : nodes.length = list.length
  null_iff : list.head = none ↔ list.length = 0
  balance : heap.issued = heap.released.length + list.length
  calls : ∀ call, allowed heap list call → ∃ after list' value nodes' freed,
    run heap list call = .ok (after, list', value) ∧ Nodes after list' nodes' ∧
    after.released = freed ++ heap.released ∧
    ∀ c ∈ freed, heap.Live c.1 ∧ c.1 ∈ nodes ∧ c.1 ∉ nodes'
  freeAll : ∃ after list', run heap list .free = .ok (after, list', none) ∧
    (after.released.map Prod.snd).Perm (List.range after.issued)

theorem Represents.disciplined {s : State Unit} {cells : Unit → Cells} (shape : Represents s cells) :
    Disciplined s.heap (s.lists ()) (handles (cells ())) := by
  have held := shape.held ()
  have counted := shape.owns.issued_eq
  rw [handles_length, ← held.length] at counted
  constructor
  · exact ⟨cells (), held.chain, rfl⟩
  · exact held.nodup
  · exact fun k => (shape.owns.live_iff k).trans ⟨fun ⟨_, member⟩ => member, fun member => ⟨(), member⟩⟩
  · rw [handles_length, held.length]
  · rw [Chain.null_iff held.chain, held.length, List.length_eq_zero_iff]
  · exact counted
  · intro call may
    obtain ⟨after, list', cells', ran, -, done⟩ := run_done held call may
    obtain ⟨freed, logged, left⟩ := done.freed
    exact ⟨after, list', _, handles cells', freed, ran, ⟨cells', done.chain, rfl⟩, logged,
      fun c member => ⟨held.live (left c member).1, left c member⟩⟩
  · obtain ⟨after, list', ran, done⟩ := llFree_done held
    exact ⟨after, list', by simp [run, ran], done.owns.released_perm fun _ => by simp⟩

/-- Over every run on one list, the heap is its chain and nothing else. -/
theorem list_run_disciplined (before : LinkedList) {es : List (Unit × Call)}
    {vs : List (Option Int32)} {s : State Unit}
    (run : (machine Unit).Run (start fun _ => before) es vs s) :
    ∃ nodes, Disciplined s.heap (s.lists ()) nodes := by
  have keeps : (machine Unit).Keeps fun s => ∃ cells, Represents s cells := by
    rintro s e ⟨cells, shape⟩ may
    obtain ⟨t, cells', ran, -, shape', -⟩ := step_represents shape e.1 e.2 may
    exact ⟨t, _, ran, _, shape'⟩
  obtain ⟨cells, shape⟩ := keeps.run run ⟨_, start_represents fun _ => before⟩
  exact ⟨_, shape.disciplined⟩

theorem list_run_disciplined_reuse : ∃ s : State Unit,
    (machine Unit).Run (start fun _ => { head := none, length := 2 })
      [((), .pushBack 5 ⟨16, ⟨0, none⟩⟩), ((), .pushBack 6 ⟨32, ⟨0, none⟩⟩),
        ((), .pushBack 7 ⟨48, ⟨0, none⟩⟩), ((), .remove 6), ((), .pushFront 8 ⟨32, ⟨0, none⟩⟩),
        ((), .popFront)]
      [none, none, none, some 1, none, some 8] s ∧
    ∃ nodes, Disciplined s.heap (s.lists ()) nodes :=
  Machine.exists_run (by decide) fun _ run => list_run_disciplined _ run

end Syseng.CForProgrammers.LinkedList
