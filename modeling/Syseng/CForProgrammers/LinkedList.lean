import Syseng.Support.Machine
import Syseng.Support.Ownership
import Syseng.Support.Chain
import Mathlib.Data.List.Perm.Basic

/-! The singly linked list of ints. Several lists share one heap; `malloc` returns any
address that is not in use, with arbitrary bytes in the new node. Each walk is bounded
by the list's own length field and ends in the fault `diverged` past that bound, so a
call that returns has walked a chain that ends. Lengths are below the 2^60 nodes that fit
in a 64-bit address space and are kept as natural numbers. -/

namespace Syseng.CForProgrammers
open Support

structure LlNode where
  value : Int32
  next : Option Nat
  deriving DecidableEq

structure LinkedList where
  head : Option Nat
  length : Nat
  deriving DecidableEq

namespace LinkedList

abbrev Heap := Table Nat LlNode

/-- What `malloc(sizeof(ll_node_t))` returned: an address, and the bytes found there. -/
structure Malloc where
  addr : Nat
  junk : LlNode
  deriving DecidableEq

def llInit (list : LinkedList) : LinkedList :=
  { list with head := none, length := 0 }

def llPushFront (heap : Heap) (list : LinkedList) (value : Int32) (malloc : Malloc) :
    Except Fault (Heap × LinkedList) := do
  let heap ← heap.acquire malloc.addr malloc.junk
  let n := some malloc.addr
  let heap ← heap.assign n fun node => { node with value := value }
  let heap ← heap.assign n fun node => { node with next := list.head }
  .ok (heap, { head := n, length := list.length + 1 })

/-- `while (cur->next) cur = cur->next`. -/
def walkToLast (heap : Heap) : Nat → Option Nat → Except Fault (Option Nat)
  | 0, _ => .error .diverged
  | bound + 1, cur => do
    let node ← heap.deref cur
    match node.next with
    | none => .ok cur
    | some next => walkToLast heap bound (some next)

def llPushBack (heap : Heap) (list : LinkedList) (value : Int32) (malloc : Malloc) :
    Except Fault (Heap × LinkedList) := do
  let heap ← heap.acquire malloc.addr malloc.junk
  let n := some malloc.addr
  let heap ← heap.assign n fun node => { node with next := none }
  let heap ← heap.assign n fun node => { node with value := value }
  if list.length = 0 then
    .ok (heap, { head := n, length := list.length + 1 })
  else
    let cur ← walkToLast heap list.length list.head
    let heap ← heap.assign cur fun node => { node with next := n }
    .ok (heap, { list with length := list.length + 1 })

def llPopFront (heap : Heap) (list : LinkedList) : Except Fault (Heap × LinkedList × Int32) := do
  let node ← heap.deref list.head
  let val := node.value
  let cur := list.head
  let node ← heap.deref cur
  let list := { list with head := node.next }
  let heap ← heap.free cur
  .ok (heap, { list with length := list.length - 1 }, val)

def containsFrom (heap : Heap) (value : Int32) : Nat → Option Nat → Except Fault Int32
  | _, none => .ok 0
  | 0, some _ => .error .diverged
  | bound + 1, some cur => do
    let node ← heap.deref (some cur)
    if node.value = value then .ok 1 else containsFrom heap value bound node.next

def llContains (heap : Heap) (list : LinkedList) (value : Int32) : Except Fault Int32 :=
  containsFrom heap value list.length list.head

/-- `for (steps = 0; steps < i; ++steps) cur = cur->next`. -/
def walk (heap : Heap) : Nat → Option Nat → Except Fault (Option Nat)
  | 0, cur => .ok cur
  | steps + 1, cur => do
    let node ← heap.deref cur
    walk heap steps node.next

def llGet (heap : Heap) (list : LinkedList) (i : Nat) : Except Fault Int32 := do
  let cur ← walk heap i list.head
  let node ← heap.deref cur
  .ok node.value

/-- The search loop of `ll_remove`; the flag says whether a node was removed. -/
def removeFrom (value : Int32) : Nat → Heap → Option Nat → Option Nat → Except Fault (Heap × Bool)
  | _, heap, _, none => .ok (heap, false)
  | 0, _, _, some _ => .error .diverged
  | bound + 1, heap, prev, some cur => do
    let node ← heap.deref (some cur)
    if node.value = value then
      let heap ← heap.assign prev fun before => { before with next := node.next }
      let heap ← heap.free (some cur)
      .ok (heap, true)
    else
      removeFrom value bound heap (some cur) node.next

def llRemove (heap : Heap) (list : LinkedList) (value : Int32) :
    Except Fault (Heap × LinkedList × Int32) := do
  if list.length = 0 then
    .ok (heap, list, 0)
  else
    let head ← heap.deref list.head
    if head.value = value then
      let old := list.head
      let node ← heap.deref old
      let list := { list with head := node.next }
      let heap ← heap.free old
      .ok (heap, { list with length := list.length - 1 }, 1)
    else
      let (heap, found) ← removeFrom value list.length heap list.head head.next
      if found then .ok (heap, { list with length := list.length - 1 }, 1)
      else .ok (heap, list, 0)

/-- Each node is read for its successor before it is freed. -/
def freeFrom : Nat → Heap → Option Nat → Except Fault Heap
  | _, heap, none => .ok heap
  | 0, _, some _ => .error .diverged
  | bound + 1, heap, some cur => do
    let prev := some cur
    let node ← heap.deref prev
    let heap ← heap.free prev
    freeFrom bound heap node.next

def llFree (heap : Heap) (list : LinkedList) : Except Fault (Heap × LinkedList) := do
  let heap ← freeFrom list.length heap list.head
  .ok (heap, { list with head := none, length := 0 })

inductive Call where
  | pushFront (value : Int32) (malloc : Malloc)
  | pushBack (value : Int32) (malloc : Malloc)
  | popFront
  | contains (value : Int32)
  | get (i : Nat)
  | remove (value : Int32)
  | free
  deriving DecidableEq

def run (heap : Heap) (list : LinkedList) : Call → Except Fault (Heap × LinkedList × Option Int32)
  | .pushFront value malloc => do
    let (heap, list) ← llPushFront heap list value malloc
    .ok (heap, list, none)
  | .pushBack value malloc => do
    let (heap, list) ← llPushBack heap list value malloc
    .ok (heap, list, none)
  | .popFront => do
    let (heap, list, val) ← llPopFront heap list
    .ok (heap, list, some val)
  | .contains value => do .ok (heap, list, some (← llContains heap list value))
  | .get i => do .ok (heap, list, some (← llGet heap list i))
  | .remove value => do
    let (heap, list, removed) ← llRemove heap list value
    .ok (heap, list, some removed)
  | .free => do
    let (heap, list) ← llFree heap list
    .ok (heap, list, none)

def allowed (heap : Heap) (list : LinkedList) : Call → Prop
  | .pushFront _ malloc => ¬ heap.Live malloc.addr
  | .pushBack _ malloc => ¬ heap.Live malloc.addr
  | .popFront => list.length ≠ 0
  | .get i => i < list.length
  | _ => True

instance (heap : Heap) (list : LinkedList) (call : Call) : Decidable (allowed heap list call) := by
  cases call <;> unfold allowed <;> infer_instance

structure State (ι : Type) where
  heap : Heap
  lists : ι → LinkedList

/-- `ι` names the lists; a call is made on one of them. -/
def machine (ι : Type) [DecidableEq ι] : Machine (State ι) (ι × Call) (Option Int32) Fault where
  allowed := fun s e => allowed s.heap (s.lists e.1) e.2
  step := fun s e => do
    let (heap, list, value) ← run s.heap (s.lists e.1) e.2
    .ok ({ heap, lists := Function.update s.lists e.1 list }, value)

instance (ι : Type) [DecidableEq ι] (s : State ι) (e : ι × Call) :
    Decidable ((machine ι).allowed s e) :=
  inferInstanceAs (Decidable (allowed s.heap (s.lists e.1) e.2))

def start {ι : Type} (before : ι → LinkedList) : State ι where
  heap := .empty
  lists := fun i => llInit (before i)

/-- The same calls on mathematical lists. -/
def listCall (xs : List Int32) : Call → List Int32 × Option Int32
  | .pushFront value _ => (value :: xs, none)
  | .pushBack value _ => (xs ++ [value], none)
  | .popFront => (xs.tail, xs.head?)
  | .contains value => (xs, some (if value ∈ xs then 1 else 0))
  | .get i => (xs, xs[i]?)
  | .remove value => (xs.erase value, some (if value ∈ xs then 1 else 0))
  | .free => ([], none)

end LinkedList
end Syseng.CForProgrammers
