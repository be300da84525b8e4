import Syseng.Support.Machine
import Syseng.Support.Pointer
import Syseng.Support.Ownership

/-! `int_vec_t`, the growable array of ints. Sizes are computed modulo 2^64, and `malloc`
and `realloc` may return NULL at any call. -/

namespace Syseng.CForProgrammers
open Support

structure IntVec where
  data : Option Nat
  length : UInt64
  capacity : UInt64
  deriving DecidableEq, Repr

namespace IntVec

/-- The block that an allocation finds: its address, and what its ints happen to hold. -/
structure Malloc where
  addr : Nat
  junk : Nat → Int32

def sizeofInt : UInt64 := 4

def fill (old : List Int32) (bytes : UInt64) (junk : Nat → Int32) : List Int32 :=
  (List.range (bytes.toNat / 4)).map fun i => old[i]?.getD (junk i)

def malloc (mem : Table Nat (List Int32)) (bytes : UInt64) :
    Option Malloc → Except Fault (Table Nat (List Int32) × Option Nat)
  | none => .ok (mem, none)
  | some m => do
    let mem ← mem.acquire m.addr (fill [] bytes m.junk)
    .ok (mem, some m.addr)

/-- Where it fails the old block stays, else the new one has its contents. -/
def realloc (mem : Table Nat (List Int32)) (p : Option Nat) (bytes : UInt64) (got : Option Malloc) :
    Except Fault (Table Nat (List Int32) × Option Nat) :=
  match p with
  | none => malloc mem bytes got
  | some k => do
    let old ← mem.deref (some k)
    match got with
    | none => .ok (mem, none)
    | some m => do
      let mem ← mem.release k
      let mem ← mem.acquire m.addr (fill old bytes m.junk)
      .ok (mem, some m.addr)

/-- `data` keeps its value. -/
def vecFree (mem : Table Nat (List Int32)) (v : IntVec) :
    Except Fault (Table Nat (List Int32) × IntVec) := do
  let mem ← mem.free v.data
  .ok (mem, { v with length := 0, capacity := 0 })

/-- `length` and `capacity` are set before anything reads them. -/
def vecInit (mem : Table Nat (List Int32)) (initialCapacity : UInt64) (got : Option Malloc) :
    Except Fault (Table Nat (List Int32) × IntVec) := do
  let (mem, data) ← malloc mem (initialCapacity * sizeofInt) got
  let v : IntVec := { data, length := 0, capacity := 0 }
  let (mem, v) ← (if v.data = none then vecFree mem v else .ok (mem, v))
  .ok (mem, { v with length := 0, capacity := initialCapacity })

/-- The branch of `vec_push` for a full vector. A failure falls through to the doubling. -/
def grow (mem : Table Nat (List Int32)) (v : IntVec) (got : Option Malloc) :
    Except Fault (Table Nat (List Int32) × IntVec) := do
  let (mem, data) ← realloc mem v.data (v.capacity * 2 * sizeofInt) got
  let v := { v with data }
  let (mem, v) ← (if v.data = none then vecFree mem v else .ok (mem, v))
  .ok (mem, { v with capacity := v.capacity * 2 })

def vecPush (mem : Table Nat (List Int32)) (v : IntVec) (val : Int32) (got : Option Malloc) :
    Except Fault (Table Nat (List Int32) × IntVec) := do
  let (mem, v) ← (if v.length = v.capacity then grow mem v got else .ok (mem, v))
  let mem ← mem.store v.data v.length.toNat val
  .ok (mem, { v with length := v.length + 1 })

def vecPop (mem : Table Nat (List Int32)) (v : IntVec) : Except Fault (IntVec × Int32) := do
  let v := { v with length := v.length - 1 }
  let val ← mem.load v.data v.length.toNat
  .ok (v, val)

def vecGet (mem : Table Nat (List Int32)) (v : IntVec) (i : UInt64) : Except Fault Int32 :=
  mem.load v.data i.toNat

structure State where
  mem : Table Nat (List Int32)
  vec : Option IntVec

inductive Call where
  | vecInit (initialCapacity : UInt64) (got : Option Malloc)
  | vecPush (val : Int32) (got : Option Malloc)
  | vecPop
  | vecGet (i : UInt64)
  | vecFree

def start : State := { mem := .empty, vec := none }

def State.object (s : State) : Except Fault IntVec :=
  match s.vec with
  | some v => .ok v
  | none => .error .deadObject

/-- An allocation finds a free address; `realloc` may also leave the block where it is. The
caller does not pop an empty vector, and gets at indices below the length. -/
def allowed (s : State) : Call → Prop
  | .vecInit _ got => s.vec = none ∧ ∀ m ∈ got, ¬ s.mem.Live m.addr
  | .vecPush _ got =>
    ∃ v ∈ s.vec, ∀ m ∈ got, s.mem.Live m.addr → v.data = some m.addr
  | .vecPop => ∃ v ∈ s.vec, 0 < v.length
  | .vecGet i => ∃ v ∈ s.vec, i < v.length
  | .vecFree => s.vec.isSome

def step (s : State) : Call → Except Fault (State × Option Int32)
  | .vecInit initialCapacity got => do
    let (mem, v) ← vecInit s.mem initialCapacity got
    .ok ({ mem, vec := some v }, none)
  | .vecPush val got => do
    let v ← s.object
    let (mem, v) ← vecPush s.mem v val got
    .ok ({ mem, vec := some v }, none)
  | .vecPop => do
    let v ← s.object
    let (v, val) ← vecPop s.mem v
    .ok ({ s with vec := some v }, some val)
  | .vecGet i => do
    let v ← s.object
    let val ← vecGet s.mem v i
    .ok (s, some val)
  | .vecFree => do
    let v ← s.object
    let (mem, _) ← vecFree s.mem v
    .ok ({ mem, vec := none }, none)

def machine : Machine State Call (Option Int32) Fault where
  allowed := allowed
  step := step

instance (s : State) (e : Call) : Decidable (allowed s e) := by
  cases e <;> unfold allowed <;> infer_instance

instance (s : State) (e : Call) : Decidable (machine.allowed s e) :=
  inferInstanceAs (Decidable (allowed s e))

end IntVec
end Syseng.CForProgrammers
