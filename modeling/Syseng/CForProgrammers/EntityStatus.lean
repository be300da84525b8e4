import Syseng.CForProgrammers.Entity
import Syseng.CForProgrammers.Strings
import Syseng.Support.Text

/-! `entity_status`, which prints an entity into a buffer of 128 bytes. -/

namespace Syseng.CForProgrammers.Entity
open Support Strings

/-- What `%s` prints of an array: the bytes before the first zero, which there has to be. -/
def printed {size : Nat} (array : Vector UInt8 size) : Except Fault (List UInt8) :=
  if 0 ∈ array.toList then .ok (array.toList.takeWhile (· ≠ 0)) else .error .outOfRange

inductive Piece where
  | text (literal : String)
  | s (bytes : List UInt8)
  | d (x : Int32)

def Piece.bytes : Piece → List UInt8
  | .text literal => Text.ascii literal
  | .s bytes => bytes
  | .d x => Text.decimal x.toInt

def sprintf (mem : Bytes) (buf : CharPtr) (pieces : List Piece) : Except Fault Bytes :=
  mem.storeAll buf (pieces.flatMap Piece.bytes ++ [0])

def entityStatus (mem : Bytes) (e : Entity) (buf : CharPtr) : Except Fault Bytes := do
  let name ← printed e.name
  if e.alive ≠ 0 then
    sprintf mem buf [.s name, .text " (", .d e.x, .text ",", .d e.y, .text ") HP: ", .d e.hp, .text "/",
      .d e.maxHp, .text " [ALIVE]"]
  else
    sprintf mem buf [.s name, .text " (", .d e.x, .text ",", .d e.y, .text ") HP: ", .d e.hp, .text "/",
      .d e.maxHp, .text " [DEAD]"]

def Named (e : Entity) (name : CString) : Prop :=
  ∃ (raw : Entity) (x y maxHp : Int32), e.name = (entityInit raw name x y maxHp).name

section Naming
variable {e e' : Entity} {name : CString}

theorem noNul_take (name : CString) (n : Nat) : 0 ∉ name.bytes.take n :=
  fun member => name.noNul (List.mem_of_mem_take member)

theorem Named.toList (named : Named e name) :
    e.name.toList = name.bytes.take 63 ++ List.replicate (64 - min 63 name.bytes.length) 0 := by
  obtain ⟨raw, x, y, maxHp, same⟩ := named
  rw [same]
  exact CString.strncpy_terminated raw.name name

theorem Named.terminated (named : Named e name) : 0 ∈ e.name.toList := by
  rw [named.toList]
  apply List.mem_append_right
  apply List.mem_replicate.mpr
  exact ⟨by omega, rfl⟩

theorem Named.chars (named : Named e name) :
    e.name.toList.takeWhile (· ≠ 0) = name.bytes.take 63 := by
  rw [named.toList]
  exact CString.takeWhile_terminated (noNul_take name 63) _

theorem Named.printed (named : Named e name) : printed e.name = .ok (name.bytes.take 63) := by
  rw [Entity.printed, if_pos named.terminated, named.chars]

theorem Named.same_array {name' : CString} (named : Named e name) (named' : Named e' name')
    (same : name.bytes.take 63 = name'.bytes.take 63) : e.name = e'.name := by
  have lengths := congrArg List.length same
  rw [List.length_take, List.length_take] at lengths
  apply Vector.toList_inj.mp
  rw [named.toList, named'.toList, same, lengths]

end Naming

def fields (e : Entity) : List (UInt8 × List UInt8) :=
  [(Text.byte '(', Text.decimal e.x.toInt),
    (Text.byte ',', Text.decimal e.y.toInt ++ Text.ascii ") HP:"),
    (Text.byte ' ', Text.decimal e.hp.toInt),
    (Text.byte '/', Text.decimal e.maxHp.toInt ++ Text.ascii " "),
    (Text.byte '[', Text.ascii (if e.alive ≠ 0 then "ALIVE]" else "DEAD]"))]

def status (name : List UInt8) (e : Entity) : List UInt8 := Text.line (name ++ Text.ascii " ") (fields e)

theorem entityStatus_eq {e : Entity} {name : CString} (named : Named e name) (mem : Bytes) (buf : CharPtr) :
    entityStatus mem e buf = mem.storeAll buf (status (name.bytes.take 63) e ++ [0]) := by
  unfold entityStatus status fields
  rw [named.printed]
  split
  · simp [sprintf, Piece.bytes, Text.line, Text.ascii]
  · simp [sprintf, Piece.bytes, Text.line, Text.ascii]

theorem not_in_decimal {c : UInt8} (x : Int32) (sign : c ≠ Text.byte '-')
    (digit : ¬(48 ≤ c.toNat ∧ c.toNat ≤ 57)) : c ∉ Text.decimal x.toInt := by
  intro member
  rcases Text.decimal_range member with minus | range
  · exact sign minus
  · exact digit range

theorem length_int (x : Int32) : (Text.decimal x.toInt).length ≤ 11 := by
  apply Text.length_decimal (k := 10) (by decide)
  have low := x.le_toInt
  have high := x.toInt_lt
  omega

theorem fields_separated (e : Entity) : ∀ f ∈ fields e, f.1 ∉ f.2 := by
  simp only [fields, List.forall_mem_cons, List.mem_append, not_or]
  refine ⟨?_, ⟨?_, by decide⟩, ?_, ⟨?_, by decide⟩, ?_, by simp⟩
  · exact not_in_decimal e.x (by decide) (by decide)
  · exact not_in_decimal e.y (by decide) (by decide)
  · exact not_in_decimal e.hp (by decide) (by decide)
  · exact not_in_decimal e.maxHp (by decide) (by decide)
  · split <;> decide

theorem fields_noNul (e : Entity) : ∀ f ∈ fields e, ¬(0 = f.1 ∨ 0 ∈ f.2) := by
  have number : ∀ x : Int32, 0 ∉ Text.decimal x.toInt := fun x => not_in_decimal x (by decide) (by decide)
  simp only [fields, List.forall_mem_cons, List.mem_append, not_or]
  refine ⟨⟨by decide, number _⟩, ⟨by decide, number _, by decide⟩, ⟨by decide, number _⟩,
    ⟨by decide, number _, by decide⟩, ⟨by decide, ?_⟩, by simp⟩
  split <;> decide

theorem status_noNul {name : List UInt8} (noNul : 0 ∉ name) (e : Entity) : 0 ∉ status name e := by
  intro member
  rcases Text.mem_line.mp member with body | ⟨f, inside, here⟩
  · rcases List.mem_append.mp body with char | blank
    · exact noNul char
    · exact absurd blank (by decide)
  · exact fields_noNul e f inside here

theorem length_status {name : List UInt8} (short : name.length ≤ 63) (e : Entity) :
    (status name e).length + 1 ≤ 128 := by
  have x := length_int e.x
  have y := length_int e.y
  have hp := length_int e.hp
  have maxHp := length_int e.maxHp
  have state : (Text.ascii (if e.alive ≠ 0 then "ALIVE]" else "DEAD]")).length ≤ 6 := by split <;> decide
  have literals : (Text.ascii " ").length = 1 ∧ (Text.ascii ") HP:").length = 5 := by decide
  simp only [status, fields, Text.line, List.length_append, List.length_cons, literals]
  omega

/-- The same name, position and hit points, and both alive or both dead. -/
structure Alike (e e' : Entity) : Prop where
  name : e.name = e'.name
  x : e.x = e'.x
  y : e.y = e'.y
  hp : e.hp = e'.hp
  maxHp : e.maxHp = e'.maxHp
  alive : e.alive = 0 ↔ e'.alive = 0

theorem decimal_int {x y : Int32} (same : Text.decimal x.toInt = Text.decimal y.toInt) : x = y :=
  Int32.toInt_inj.mp (Text.decimal_injective same)

theorem state_injective {a b : Int32}
    (same : Text.ascii (if a ≠ 0 then "ALIVE]" else "DEAD]") = Text.ascii (if b ≠ 0 then "ALIVE]" else "DEAD]")) :
    a = 0 ↔ b = 0 := by
  by_cases deadA : a = 0
  · by_cases deadB : b = 0
    · exact iff_of_true deadA deadB
    · rw [if_neg (not_not_intro deadA), if_pos deadB] at same
      exact absurd same (by decide)
  · by_cases deadB : b = 0
    · rw [if_pos deadA, if_neg (not_not_intro deadB)] at same
      exact absurd same (by decide)
    · exact iff_of_false deadA deadB

theorem status_injective {e e' : Entity} {name name' : CString} (named : Named e name)
    (named' : Named e' name')
    (same : status (name.bytes.take 63) e = status (name'.bytes.take 63) e') : Alike e e' := by
  have separators : (fields e).map Prod.fst = (fields e').map Prod.fst := by
    unfold fields
    simp only [List.map_cons, List.map_nil]
  obtain ⟨bodies, contents⟩ := Text.line_injective separators (fields_separated e) (fields_separated e') same
  have chars := List.append_cancel_right bodies
  simp only [fields, List.cons.injEq, Prod.mk.injEq, true_and, and_true, List.append_cancel_right_eq] at contents
  obtain ⟨x, y, hp, maxHp, alive⟩ := contents
  refine ⟨named.same_array named' chars, decimal_int x, decimal_int y, decimal_int hp, decimal_int maxHp,
    state_injective alive⟩

/-- A call that leaves a status string in `buf`, and has touched at most 128 bytes for it. -/
structure Prints (mem : Bytes) (e : Entity) (buf : CharPtr) (u : Bytes) (text : CString) : Prop where
  done : entityStatus mem e buf = .ok u
  holds : Holds u buf text
  fits : text.bytes.length + 1 ≤ 128
  touches : mem.Touches u (fun _ => False) (buf.Covers (text.bytes.length + 1))

def statusOf (e : Entity) (name : CString) : CString where
  bytes := status (name.bytes.take 63) e
  noNul := status_noNul (noNul_take name 63) e

theorem statusOf_fits (e : Entity) (name : CString) : (statusOf e name).stored.length ≤ 128 := by
  have short : (name.bytes.take 63).length ≤ 63 := by
    rw [List.length_take]
    exact Nat.min_le_left _ _
  rw [CString.length_stored]
  exact length_status short e

theorem entityStatus_ok {e : Entity} {name : CString} (named : Named e name) {mem : Bytes} {buf : CharPtr}
    (room : mem.Room buf (statusOf e name).stored.length) : ∃ u, Prints mem e buf u (statusOf e name) := by
  obtain ⟨u, done, stores, touches⟩ := Memory.storeAll_ok (statusOf e name).stored room
  have fits := statusOf_fits e name
  rw [CString.length_stored] at fits touches
  exact ⟨u, (entityStatus_eq named mem buf).trans done, stores, fits, touches⟩

theorem entityStatus_text {e : Entity} {name text : CString} (named : Named e name) {mem u : Bytes}
    {buf : CharPtr} (done : entityStatus mem e buf = .ok u) (holds : Holds u buf text) :
    text = statusOf e name := by
  have stored := (entityStatus_eq named mem buf).symm.trans done
  obtain ⟨v, prints⟩ := entityStatus_ok named (Memory.storeAll_room stored)
  have same : u = v := Except.ok.inj (done.symm.trans prints.done)
  exact holds.unique (same ▸ prints.holds)

theorem entity_status_identifies {e e' : Entity} {name name' : CString} (named : Named e name)
    (named' : Named e' name') :
    (0 ∈ e.name.toList ∧
      e.name.toList.takeWhile (· ≠ 0) = name.bytes.take (min 63 name.bytes.length)) ∧
    (∀ (mem : Bytes) (buf : CharPtr), mem.Room buf 128 → ∃ u text, Prints mem e buf u text) ∧
    ∀ (mem mem' u u' : Bytes) (buf buf' : CharPtr) (text : CString),
      entityStatus mem e buf = .ok u → Holds u buf text →
      entityStatus mem' e' buf' = .ok u' → Holds u' buf' text → Alike e e' := by
  refine ⟨⟨named.terminated, ?_⟩, ?_, ?_⟩
  · rw [named.chars]
    exact List.take_eq_take_min
  · intro mem buf room
    obtain ⟨u, prints⟩ := entityStatus_ok named (room.shorter (statusOf_fits e name))
    exact ⟨u, statusOf e name, prints⟩
  · intro mem mem' u u' buf buf' text done holds done' holds'
    have same : statusOf e name = statusOf e' name' :=
      (entityStatus_text named done holds).symm.trans (entityStatus_text named' done' holds')
    exact status_injective named named' (congrArg CString.bytes same)

def goblin (name : CString) (x : Int32) : Entity :=
  entityInit { name := Vector.replicate 64 0, x := 0, y := 0, hp := 0, maxHp := 0, alive := 0 } name x 2 4

theorem entity_status_identifies_imitation : ∃ (mem u : Bytes) (buf : CharPtr) (text : CString),
    Prints mem (goblin ⟨Text.ascii "Goblin (1,2) HP: 3/4 [DEAD]", by decide⟩ 5) buf u text ∧
    ∀ u', entityStatus mem (goblin ⟨Text.ascii "Goblin", by decide⟩ 1) buf = .ok u' → ¬Holds u' buf text := by
  obtain ⟨mem, stores, -⟩ := Memory.exists_stores 10 (List.replicate 128 (0 : UInt8))
  have room := stores.room
  rw [List.length_replicate] at room
  have named : ∀ name x, Named (goblin name x) name := fun _ _ => ⟨_, _, _, _, rfl⟩
  obtain ⟨-, prints, alike⟩ := entity_status_identifies
    (named ⟨Text.ascii "Goblin (1,2) HP: 3/4 [DEAD]", by decide⟩ 5)
    (named ⟨Text.ascii "Goblin", by decide⟩ 1)
  obtain ⟨u, text, printed⟩ := prints mem ⟨some 10, 0⟩ room
  refine ⟨mem, u, ⟨some 10, 0⟩, text, printed, fun u' done holds => ?_⟩
  have x : (5 : Int32) = 1 := (alike mem mem u u' _ _ text printed.done printed.holds done holds).x
  exact absurd x (by decide)

end Syseng.CForProgrammers.Entity
