import Syseng.Support.Machine
import Syseng.CForProgrammers.StringAlgebra
import Syseng.CForProgrammers.StringReverse

/-! The string functions called in any order, on pointers into any number of blocks. What the calls do is
told by the texts in the blocks. -/

namespace Syseng.CForProgrammers.Strings
open Support

/-- A literal is never written, and only a block of `malloc` is freed. -/
inductive Storage where
  | literal
  | array
  | heap
  deriving DecidableEq

/-- A block of `room` bytes, and the text at its beginning where there is one. -/
structure Buffer where
  room : Nat
  text : Option CString
  storage : Storage
  fits : ∀ a ∈ text, a.bytes.length < room
  limit : room < 2 ^ 63

namespace Buffer

def textAt (b : Buffer) (i : Nat) : Option CString :=
  b.text.bind fun a => if i ≤ a.bytes.length then some (a.drop i) else none

/-- The characters before the `i`th byte. Before the first byte there are none, whatever the block holds. -/
def front (b : Buffer) (i : Nat) : Option CString :=
  if i = 0 then some .empty
  else b.text.bind fun a => if i ≤ a.bytes.length then some (a.take i) else none

def put (b : Buffer) (i : Nat) (t : CString) : Option Buffer :=
  (b.front i).bind fun front =>
    if fits : (front.append t).bytes.length < b.room ∧ b.storage ≠ .literal then
      some { b with
        text := some (front.append t)
        fits := by
          rintro a ⟨⟩
          exact fits.1 }
    else none

def ofText (t : CString) (small : t.bytes.length < 2 ^ 31 - 1) : Buffer where
  room := t.bytes.length + 1
  text := some t
  storage := .heap
  fits := by
    rintro a ⟨⟩
    exact Nat.lt_succ_self _
  limit := by omega

end Buffer

abbrev Store := Nat → Option Buffer

structure Place where
  block : Nat
  offset : Nat

def start (k : Nat) : CharPtr := { block := some k, offset := 0 }

def Place.pointer (p : Place) : CharPtr := { block := some p.block, offset := p.offset }

theorem Place.pointer_eq (p : Place) : p.pointer = (start p.block).plus p.offset := by
  simp [pointer, start, Ptr.plus]

inductive Call where
  | myStrlen (s : Place)
  | myStrcpy (dst src : Place)
  | myStrcmp (a b : Place)
  | myStrcat (dst src : Place)
  | myStrdup (s : Place) (got : Malloc)
  | strJoin (a b : Place) (got : Malloc)
  | strReverse (s : Place)
  | strIsPalindrome (s : Place)
  | free (k : Nat)

inductive Value where
  | size (n : UInt64)
  | int (r : Int32)
  | pointer (p : CharPtr)
  | none
  deriving DecidableEq

def Place.Behind (s : Place) (p : CharPtr) : Prop := p.block = some s.block ∧ s.offset ≤ p.offset

/-- The bytes that a call may change: from its destination on, or those of the block that it makes or frees. -/
def Call.Writes : Call → CharPtr → Prop
  | .myStrcpy dst _ => dst.Behind
  | .myStrcat dst _ => dst.Behind
  | .strReverse s => s.Behind
  | .myStrdup _ got => fun p => p.block = some got.addr
  | .strJoin _ _ got => fun p => p.block = some got.addr
  | .free k => fun p => p.block = some k
  | _ => fun _ => False

def perform (plain : PlainChar) (mem : Bytes) : Call → Except Fault (Bytes × Value)
  | .myStrlen s => do
    let (mem, n) ← myStrlen mem s.pointer
    .ok (mem, .size n)
  | .myStrcpy dst src => do
    let (mem, p) ← myStrcpy mem dst.pointer src.pointer
    .ok (mem, .pointer p)
  | .myStrcmp a b => do
    let (mem, r) ← myStrcmp plain mem a.pointer b.pointer
    .ok (mem, .int r)
  | .myStrcat dst src => do
    let (mem, p) ← myStrcat mem dst.pointer src.pointer
    .ok (mem, .pointer p)
  | .myStrdup s got => do
    let (mem, p) ← myStrdup mem s.pointer (some got)
    .ok (mem, .pointer p)
  | .strJoin a b got => do
    let (mem, p) ← strJoin mem a.pointer b.pointer (some got)
    .ok (mem, .pointer p)
  | .strReverse s => do
    let mem ← strReverse mem s.pointer
    .ok (mem, .none)
  | .strIsPalindrome s => do
    let (mem, r) ← strIsPalindrome plain mem s.pointer
    .ok (mem, .int r)
  | .free k => do
    let mem ← mem.free (start k)
    .ok (mem, .none)

def machine (plain : PlainChar) : Machine Bytes Call Value Fault where
  allowed _ _ := True
  step := perform plain

namespace Store

def textAt (st : Store) (p : Place) : Option CString := (st p.block).bind (·.textAt p.offset)

def put (st : Store) (p : Place) (t : CString) : Option Store := do
  let b ← st p.block
  let b ← b.put p.offset t
  some (Function.update st p.block (some b))

/-- A block that `malloc` finds is not in use. -/
def make (st : Store) (m : Malloc) (t : CString) : Option Store :=
  if small : t.bytes.length < 2 ^ 31 - 1 then
    if (st m.addr).isNone then some (Function.update st m.addr (some (.ofText t small))) else none
  else none

/-- The calls on the texts. Texts that are copied do not overlap with the bytes they are copied to, there is
room for them, and the lengths that become an `int` fit into one. -/
def next (st : Store) : Call → Option (Store × Value)
  | .myStrlen s => do
    let a ← st.textAt s
    some (st, .size (UInt64.ofNat a.bytes.length))
  | .myStrcpy dst src => do
    let b ← st.textAt src
    if dst.pointer.Apart (b.bytes.length + 1) src.pointer (b.bytes.length + 1) then
      let st ← st.put dst b
      some (st, .pointer dst.pointer)
    else none
  | .myStrcmp s t => do
    let a ← st.textAt s
    let b ← st.textAt t
    some (st, .int (Int32.ofInt (CString.difference a.bytes b.bytes)))
  | .myStrcat dst src => do
    let a ← st.textAt dst
    let b ← st.textAt src
    if dst.pointer.Apart ((a.append b).bytes.length + 1) src.pointer (b.bytes.length + 1) ∧
        a.bytes.length < 2 ^ 31 then
      let st ← st.put dst (a.append b)
      some (st, .pointer dst.pointer)
    else none
  | .myStrdup s got => do
    let a ← st.textAt s
    let st ← st.make got a
    some (st, .pointer got.pointer)
  | .strJoin s t got => do
    let a ← st.textAt s
    let b ← st.textAt t
    let st ← st.make got (a.append b)
    some (st, .pointer got.pointer)
  | .strReverse s => do
    let a ← st.textAt s
    let st ← st.put s a.reverse
    some (st, .none)
  | .strIsPalindrome s => do
    let a ← st.textAt s
    some (st, .int (if a.bytes.reverse = a.bytes then 1 else 0))
  | .free k => do
    let b ← st k
    if b.storage = .heap then some (Function.update st k none, .none) else none

def ofLiteral (k : Nat) (t : CString) (small : t.bytes.length < 2 ^ 31 - 1) : Store :=
  Function.update (fun _ => none) k (some { Buffer.ofText t small with storage := .literal })

def machine : Machine Store Call Value Unit where
  allowed _ _ := True
  step st call := (st.next call).elim (.error ()) .ok

end Store

end Syseng.CForProgrammers.Strings
