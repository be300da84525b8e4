import Syseng.ModernCpp.OwnedBlocks

/-! `Buffer`, the heap byte array with copies and moves that count themselves, where any
`new` may fail. A throw is a result, not a fault: the run goes on with what it left. -/

namespace Syseng.ModernCpp

structure Buffers (ι : Type) extends Blocks ι UInt8 where
  sCopies : Int32
  sMoves : Int32

namespace Buffer
open Support Blocks

/-- `alloc` is the address that `new` finds, or `none` where it throws `bad_alloc`. -/
inductive Call (ι : Type) where
  | sized (this : ι) (size : Nat) (alloc : Option Nat)
  | copyConstruct (this other : ι) (alloc : Option Nat)
  | copyAssign (this other : ι) (alloc : Option Nat)
  | moveConstruct (this other : ι)
  | moveAssign (this other : ι)
  | write (this : ι) (i : Nat) (x : UInt8)
  | read (this : ι) (i : Nat)
  | size (this : ι)
  | resetCounters
  | destroy (this : ι)
  deriving DecidableEq, Repr

inductive Value where
  | done
  | threw
  | byte (x : UInt8)
  | count (n : Nat)
  deriving DecidableEq, Repr

variable {ι : Type}

/-- The loop `while (num++ < other.size_)`, with `left` rounds to go; `ptr` and `ptr2` are
`num` bytes into the blocks `dst` and `src`. -/
def copyLoop (mem : Table Nat (List UInt8)) (dst src : Option Nat) (num : Nat) :
    Nat → Except Fault (Table Nat (List UInt8))
  | 0 => .ok mem
  | left + 1 => do
    let byte ← mem.load src num
    let mem ← mem.store dst num byte
    copyLoop mem dst src (num + 1) left

section Model
variable [DecidableEq ι]

/-- A constructor that throws leaves no object behind. -/
def sized (s : Buffers ι) (this : ι) (size : Nat) :
    Option Nat → Except Fault (Buffers ι × Value)
  | none => .ok (s, .threw)
  | some addr => do
    let b := s.toBlocks.set this { data := none, size := 0 }
    let b ← b.newData this addr (List.replicate size 0)
    let b ← b.setSize this size
    .ok ({ s with toBlocks := b }, .done)

/-- What the copies do from `new` on. `other` may be `this`, so its members are read again. -/
def deepCopy (b : Blocks ι UInt8) (this other : ι) (addr : Nat) :
    Except Fault (Blocks ι UInt8) := do
  let src ← b.object other
  let b ← b.newData this addr (List.replicate src.size 0)
  let src ← b.object other
  let b ← b.setSize this src.size
  let cur ← b.object this
  let src ← b.object other
  let mem ← copyLoop b.mem cur.data src.data 0 src.size
  .ok { b with mem }

def copyConstruct (s : Buffers ι) (this other : ι) :
    Option Nat → Except Fault (Buffers ι × Value)
  | none => .ok (s, .threw)
  | some addr => do
    let b ← deepCopy (s.toBlocks.set this { data := none, size := 0 }) this other addr
    .ok ({ s with toBlocks := b, sCopies := s.sCopies + 1 }, .done)

/-- The old block is gone before `new` is tried. -/
def copyAssign (s : Buffers ι) (this other : ι) (alloc : Option Nat) :
    Except Fault (Buffers ι × Value) := do
  let b ← s.toBlocks.deleteData this
  match alloc with
  | none => .ok ({ s with toBlocks := b }, .threw)
  | some addr => do
    let b ← deepCopy b this other addr
    .ok ({ s with toBlocks := b, sCopies := s.sCopies + 1 }, .done)

def moveConstruct (s : Buffers ι) (this other : ι) : Except Fault (Buffers ι) := do
  let b ← s.toBlocks.moveConstruct this other
  .ok { s with toBlocks := b, sMoves := s.sMoves + 1 }

def moveAssign (s : Buffers ι) (this other : ι) : Except Fault (Buffers ι) := do
  let b ← s.toBlocks.moveAssign this other
  .ok { s with toBlocks := b, sMoves := s.sMoves + 1 }

def destroy (s : Buffers ι) (this : ι) : Except Fault (Buffers ι) := do
  let b ← s.toBlocks.deleteData this
  .ok { s with toBlocks := b }

end Model

def start : Buffers ι := { Blocks.start with sCopies := 0, sMoves := 0 }

def resetCounters (s : Buffers ι) : Buffers ι := { s with sCopies := 0, sMoves := 0 }

/-- Constructors run on storage that holds no live object, `new` finds a free address (in a
copy assignment it may be the one just freed), and bytes are accessed below `size()`. -/
def allowed (s : Buffers ι) : Call ι → Prop
  | .sized this _ alloc => s.objs this = none ∧ ∀ addr ∈ alloc, ¬ s.mem.Live addr
  | .copyConstruct this other alloc =>
    s.objs this = none ∧ (s.objs other).isSome ∧ ∀ addr ∈ alloc, ¬ s.mem.Live addr
  | .copyAssign this other alloc => (s.objs this).isSome ∧ (s.objs other).isSome ∧
    ∀ addr ∈ alloc, s.mem.Live addr → addr ∈ own s.toBlocks this
  | .moveConstruct this other => s.objs this = none ∧ (s.objs other).isSome
  | .moveAssign this other => (s.objs this).isSome ∧ (s.objs other).isSome
  | .write this i _ => ∃ h ∈ s.objs this, i < h.size
  | .read this i => ∃ h ∈ s.objs this, i < h.size
  | .size this => (s.objs this).isSome
  | .resetCounters => True
  | .destroy this => (s.objs this).isSome

def step [DecidableEq ι] (s : Buffers ι) : Call ι → Except Fault (Buffers ι × Value)
  | .sized this size alloc => sized s this size alloc
  | .copyConstruct this other alloc => copyConstruct s this other alloc
  | .copyAssign this other alloc => copyAssign s this other alloc
  | .moveConstruct this other => do .ok (← moveConstruct s this other, .done)
  | .moveAssign this other => do .ok (← moveAssign s this other, .done)
  | .write this i x => do
    let b ← s.toBlocks.write this i x
    .ok ({ s with toBlocks := b }, .done)
  | .read this i => do .ok (s, .byte (← s.toBlocks.read this i))
  | .size this => do .ok (s, .count (← s.object this).size)
  | .resetCounters => .ok (resetCounters s, .done)
  | .destroy this => do
    let s ← destroy s this
    .ok ({ s with toBlocks := s.toBlocks.bury this }, .done)

def machine (ι : Type) [DecidableEq ι] : Machine (Buffers ι) (Call ι) Value Fault where
  allowed := allowed
  step := step

instance (s : Buffers ι) (e : Call ι) : Decidable (allowed s e) := by
  cases e <;> unfold allowed <;> infer_instance

instance [DecidableEq ι] (s : Buffers ι) (e : Call ι) : Decidable ((machine ι).allowed s e) :=
  inferInstanceAs (Decidable (allowed s e))

end Buffer
end Syseng.ModernCpp
