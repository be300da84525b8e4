import Mathlib.Algebra.Order.Ring.Int
import Mathlib.Algebra.Order.Ring.Nat
import Mathlib.Logic.Function.Basic
import Syseng.Support.Framing
import Syseng.Support.Machine

/-! `send_all` and `recv_exact` over connections to a server that echoes. The system takes and
gives bytes in pieces of any size, in order, and the server answers whenever it likes. -/

namespace Syseng.Networking.StreamTransfer
open Support

variable {φ : Type}

inductive Op (φ : Type) where
  | sendAll (fd : φ) (buf : List UInt8)
  | recvExact (fd : φ) (len : Nat)
  deriving DecidableEq

namespace Op

def fd : Op φ → φ
  | .sendAll fd _ => fd
  | .recvExact fd _ => fd

def len : Op φ → Nat
  | .sendAll _ buf => buf.length
  | .recvExact _ len => len

end Op

structure Outcome (φ : Type) where
  op : Op φ
  ok : Bool
  bytes : List UInt8
  deriving DecidableEq

/-- `moved` is `sent` or `got` of the call that is first in `todo`, and `buf` what `recv_exact` has
put into its buffer so far. -/
structure State (φ : Type) where
  toPeer : φ → List UInt8
  fromPeer : φ → List UInt8
  todo : List (Op φ)
  moved : Nat
  buf : List UInt8
  log : List (Outcome φ)

/-- `::send` or `::recv` returns `n` to the running call, the loop test fails, or the server takes
`k` bytes and sends them back. -/
inductive Event (φ : Type) where
  | returns (n : Int)
  | finish
  | echo (fd : φ) (k : Nat)

def start (program : List (Op φ)) : State φ where
  toPeer := fun _ => []
  fromPeer := fun _ => []
  todo := program
  moved := 0
  buf := []
  log := []

namespace State

def bytes (s : State φ) : Op φ → List UInt8
  | .sendAll _ buf => buf.take s.moved
  | .recvExact _ _ => s.buf

def leave (s : State φ) (op : Op φ) (rest : List (Op φ)) (ok : Bool) : State φ :=
  { s with todo := rest, moved := 0, buf := [], log := s.log ++ [⟨op, ok, s.bytes op⟩] }

variable [DecidableEq φ]

/-- One round of `send_all`. -/
def sendRound (s : State φ) (fd : φ) (buf : List UInt8) (rest : List (Op φ)) (n : Int) :
    State φ × Option Bool :=
  if n ≤ 0 then (s.leave (.sendAll fd buf) rest false, some false)
  else
    let taken := (buf.drop s.moved).take n.toNat
    ({ s with toPeer := Function.update s.toPeer fd (s.toPeer fd ++ taken), moved := s.moved + n.toNat },
      none)

/-- One round of `recv_exact`. -/
def recvRound (s : State φ) (fd : φ) (len : Nat) (rest : List (Op φ)) (n : Int) :
    State φ × Option Bool :=
  if n ≤ 0 then (s.leave (.recvExact fd len) rest false, some false)
  else
    let given := (s.fromPeer fd).take n.toNat
    ({ s with
        fromPeer := Function.update s.fromPeer fd ((s.fromPeer fd).drop n.toNat)
        moved := s.moved + n.toNat
        buf := s.buf ++ given }, none)

def echo (s : State φ) (fd : φ) (k : Nat) : State φ :=
  { s with
    toPeer := Function.update s.toPeer fd ((s.toPeer fd).drop k)
    fromPeer := Function.update s.fromPeer fd (s.fromPeer fd ++ (s.toPeer fd).take k) }

end State

/-- What the system may return: no more than was asked for, than there is room for on the way to
the server, or than has come back. -/
def mayReturn (up : Nat) (s : State φ) (n : Int) : Op φ → Prop
  | .sendAll fd buf => s.moved < buf.length ∧
    n ≤ (min (buf.length - s.moved) (up - (s.toPeer fd).length) : Nat)
  | .recvExact fd len => s.moved < len ∧ n ≤ (min (len - s.moved) (s.fromPeer fd).length : Nat)

/-- There is room for `up` bytes on the way to the server, and for `down` on the way back. -/
def allowed (up down : Nat) (s : State φ) : Event φ → Prop
  | .returns n => ∃ op ∈ s.todo.head?, mayReturn up s n op
  | .finish => ∃ op ∈ s.todo.head?, ¬ s.moved < op.len
  | .echo fd k => 0 < k ∧ k ≤ (s.toPeer fd).length ∧ (s.fromPeer fd).length + k ≤ down

def step [DecidableEq φ] (s : State φ) (e : Event φ) : Except Unit (State φ × Option Bool) :=
  match e, s.todo with
  | .returns n, .sendAll fd buf :: rest => .ok (s.sendRound fd buf rest n)
  | .returns n, .recvExact fd len :: rest => .ok (s.recvRound fd len rest n)
  | .finish, op :: rest => .ok (s.leave op rest true, some true)
  | .echo fd k, _ => .ok (s.echo fd k, none)
  | _, [] => .error ()

def machine (φ : Type) [DecidableEq φ] (up down : Nat) :
    Machine (State φ) (Event φ) (Option Bool) Unit where
  allowed := allowed up down
  step := step

instance (up : Nat) (s : State φ) (n : Int) : (op : Op φ) → Decidable (mayReturn up s n op)
  | .sendAll _ buf => inferInstanceAs (Decidable (s.moved < buf.length ∧ n ≤ (_ : Nat)))
  | .recvExact _ len => inferInstanceAs (Decidable (s.moved < len ∧ n ≤ (_ : Nat)))

instance (up down : Nat) (s : State φ) : (e : Event φ) → Decidable (allowed up down s e)
  | .returns n => inferInstanceAs (Decidable (∃ op ∈ s.todo.head?, mayReturn up s n op))
  | .finish => inferInstanceAs (Decidable (∃ op ∈ s.todo.head?, ¬ s.moved < op.len))
  | .echo _ k => inferInstanceAs (Decidable (0 < k ∧ k ≤ _ ∧ _ ≤ down))

instance [DecidableEq φ] (up down : Nat) (s : State φ) (e : Event φ) :
    Decidable ((machine φ up down).allowed s e) :=
  inferInstanceAs (Decidable (allowed up down s e))

def State.outcomes (s : State φ) : List (Outcome φ) :=
  s.log ++ (s.todo.head?.map fun op => ⟨op, false, s.bytes op⟩).toList

def Outcome.Right (o : Outcome φ) : Prop :=
  o.bytes.length ≤ o.op.len ∧ (o.ok = true ↔ o.bytes.length = o.op.len) ∧
    match o.op with
    | .sendAll _ buf => o.bytes <+: buf
    | .recvExact _ _ => True

section Traffic
variable [DecidableEq φ]

def sentOn (fd : φ) (o : Outcome φ) : List UInt8 :=
  match o.op with
  | .sendAll own _ => if own = fd then o.bytes else []
  | .recvExact _ _ => []

def receivedOn (fd : φ) (o : Outcome φ) : List UInt8 :=
  match o.op with
  | .sendAll _ _ => []
  | .recvExact own _ => if own = fd then o.bytes else []

/-- What holds between the events. In `conserved`, no byte is lost, doubled or overtaken on the way
to the server and back. -/
structure Consistent (program : List (Op φ)) (s : State φ) : Prop where
  program : s.log.map Outcome.op ++ s.todo = program
  conserved : ∀ fd, s.outcomes.flatMap (receivedOn fd) ++ (s.fromPeer fd ++ s.toPeer fd) =
    s.outcomes.flatMap (sentOn fd)
  moved : ∀ op ∈ s.todo.head?, s.moved ≤ op.len ∧ (s.bytes op).length = s.moved
  right : ∀ o ∈ s.log, o.Right

omit [DecidableEq φ] in
theorem outcomes_cons {s : State φ} {op : Op φ} {rest : List (Op φ)} (running : s.todo = op :: rest) :
    s.outcomes = s.log ++ [⟨op, false, s.bytes op⟩] := by
  simp [State.outcomes, running]

omit [DecidableEq φ] in
theorem flatMap_begun (s : State φ) (op : Op φ) (rest : List (Op φ)) (ok : Bool)
    (bytesOf : Outcome φ → List UInt8) (empty : ∀ o, o.bytes = [] → bytesOf o = []) :
    (s.leave op rest ok).outcomes.flatMap bytesOf =
      (s.log ++ [Outcome.mk op ok (s.bytes op)]).flatMap bytesOf := by
  cases rest with
  | nil => simp [State.outcomes, State.leave]
  | cons next rest =>
    have nothing : bytesOf ⟨next, false, (s.leave op (next :: rest) ok).bytes next⟩ = [] := by
      apply empty
      cases next <;> simp [State.bytes, State.leave]
    rw [outcomes_cons rfl, List.flatMap_append, List.flatMap_singleton, nothing, List.append_nil]
    rfl

theorem sentOn_empty (fd : φ) (o : Outcome φ) (empty : o.bytes = []) : sentOn fd o = [] := by
  unfold sentOn
  cases o.op <;> simp [empty]

theorem receivedOn_empty (fd : φ) (o : Outcome φ) (empty : o.bytes = []) : receivedOn fd o = [] := by
  unfold receivedOn
  cases o.op <;> simp [empty]

theorem leave_consistent {program : List (Op φ)} {s : State φ} (consistent : Consistent program s)
    {op : Op φ} {rest : List (Op φ)} (running : s.todo = op :: rest) {ok : Bool}
    (through : ok = true ↔ s.moved = op.len) : Consistent program (s.leave op rest ok) where
  program := by
    have whole := consistent.program
    rw [running] at whole
    simpa [State.leave] using whole
  conserved := by
    intro fd
    have before := consistent.conserved fd
    rw [outcomes_cons running] at before
    rw [flatMap_begun _ _ _ _ _ (sentOn_empty fd), flatMap_begun _ _ _ _ _ (receivedOn_empty fd)]
    simpa [sentOn, receivedOn, State.leave] using before
  moved := by
    intro next member
    cases next <;> simp [State.leave, State.bytes]
  right := by
    intro o member
    rcases List.mem_append.mp member with old | new
    · exact consistent.right o old
    · obtain ⟨below, length⟩ := consistent.moved op (by simp [running])
      rw [List.mem_singleton.mp new]
      refine ⟨length ▸ below, length ▸ through, ?_⟩
      cases op with
      | sendAll fd buf => exact List.take_prefix _ _
      | recvExact fd len => trivial

theorem sendRound_consistent {program : List (Op φ)} {s : State φ} (consistent : Consistent program s)
    {fd : φ} {buf : List UInt8} {rest : List (Op φ)} (running : s.todo = .sendAll fd buf :: rest) {n : Int}
    (going : s.moved < buf.length) (fits : n ≤ (buf.length - s.moved : Nat)) :
    Consistent program (s.sendRound fd buf rest n).1 := by
  unfold State.sendRound
  split
  next failed =>
    apply leave_consistent consistent running
    simp only [Bool.false_eq_true, false_iff, Op.len]
    omega
  next sent =>
    have taken : buf.take (s.moved + n.toNat) = buf.take s.moved ++ (buf.drop s.moved).take n.toNat :=
      List.take_add
    refine ⟨consistent.program, ?_, ?_, consistent.right⟩
    · intro other
      have before := consistent.conserved other
      rw [outcomes_cons running] at before
      rw [outcomes_cons (by exact running)]
      by_cases same : fd = other
      · subst same
        simp only [List.flatMap_append, List.flatMap_singleton, receivedOn, sentOn, State.bytes, if_true,
          List.append_nil] at before ⊢
        rw [Function.update_self, taken, ← List.append_assoc (List.flatMap _ _) (List.take _ _), ← before]
        simp only [List.append_assoc]
      · simpa [receivedOn, sentOn, same, Function.update_of_ne (Ne.symm same)] using before
    · intro op member
      have first : op = .sendAll fd buf := by simpa [running, eq_comm] using member
      subst first
      simp only [State.bytes, Op.len, List.length_take]
      omega

theorem recvRound_consistent {program : List (Op φ)} {s : State φ} (consistent : Consistent program s)
    {fd : φ} {len : Nat} {rest : List (Op φ)} (running : s.todo = .recvExact fd len :: rest) {n : Int}
    (going : s.moved < len) (fits : n ≤ (min (len - s.moved) (s.fromPeer fd).length : Nat)) :
    Consistent program (s.recvRound fd len rest n).1 := by
  unfold State.recvRound
  split
  next failed =>
    apply leave_consistent consistent running
    simp only [Bool.false_eq_true, false_iff, Op.len]
    omega
  next got =>
    refine ⟨consistent.program, ?_, ?_, consistent.right⟩
    · intro other
      have before := consistent.conserved other
      rw [outcomes_cons running] at before
      rw [outcomes_cons (by exact running)]
      by_cases same : fd = other
      · subst same
        simp only [List.flatMap_append, List.flatMap_singleton, receivedOn, sentOn, State.bytes, if_true,
          List.append_nil] at before ⊢
        rw [Function.update_self, ← before]
        have split := List.take_append_drop n.toNat (s.fromPeer fd)
        nth_rewrite 3 [← split]
        simp only [List.append_assoc]
      · simpa [receivedOn, sentOn, same, Function.update_of_ne (Ne.symm same)] using before
    · intro op member
      have first : op = .recvExact fd len := by simpa [running, eq_comm] using member
      subst first
      have length : s.buf.length = s.moved := (consistent.moved (.recvExact fd len) (by simp [running])).2
      simp only [State.bytes, Op.len, List.length_append, List.length_take]
      omega

theorem echo_consistent {program : List (Op φ)} {s : State φ} (consistent : Consistent program s)
    (fd : φ) (k : Nat) : Consistent program (s.echo fd k) := by
  refine ⟨consistent.program, ?_, consistent.moved, consistent.right⟩
  intro other
  have before := consistent.conserved other
  change s.outcomes.flatMap _ ++ _ = s.outcomes.flatMap _
  rw [← before]
  by_cases same : other = fd
  · subst same
    simp [State.echo]
  · simp [State.echo, same]

theorem start_consistent (program : List (Op φ)) : Consistent program (start program) where
  program := rfl
  conserved := by
    intro fd
    cases program with
    | nil => rfl
    | cons op rest => cases op <;> simp [State.outcomes, start, State.bytes, sentOn, receivedOn]
  moved := by
    intro op member
    cases op <;> simp [start, State.bytes]
  right := by simp [start]

variable {up down : Nat}

omit [DecidableEq φ] in
theorem allowed_cases {s : State φ} {e : Event φ} (may : allowed up down s e) :
    (∃ n op rest, e = .returns n ∧ s.todo = op :: rest ∧ mayReturn up s n op) ∨
      (∃ op rest, e = .finish ∧ s.todo = op :: rest ∧ ¬ s.moved < op.len) ∨
      ∃ fd k, e = .echo fd k ∧ 0 < k ∧ k ≤ (s.toPeer fd).length ∧ (s.fromPeer fd).length + k ≤ down := by
  cases e with
  | returns n =>
    obtain ⟨op, first, within⟩ := may
    obtain ⟨rest, running⟩ := List.head?_eq_some_iff.mp first
    exact Or.inl ⟨n, op, rest, rfl, running, within⟩
  | finish =>
    obtain ⟨op, first, ended⟩ := may
    obtain ⟨rest, running⟩ := List.head?_eq_some_iff.mp first
    exact Or.inr (Or.inl ⟨op, rest, rfl, running, ended⟩)
  | echo fd k => exact Or.inr (Or.inr ⟨fd, k, rfl, may⟩)

theorem step_consistent (program : List (Op φ)) : (machine φ up down).Keeps (Consistent program) := by
  intro s e consistent may
  rcases allowed_cases may with ⟨n, op, rest, rfl, running, within⟩ | ⟨op, rest, rfl, running, ended⟩ |
    ⟨fd, k, rfl, -⟩
  · cases op with
    | sendAll fd buf =>
      refine ⟨_, _, by simp [machine, step, running]; rfl, ?_⟩
      exact sendRound_consistent consistent running within.1 (by have := within.2; omega)
    | recvExact fd len =>
      refine ⟨_, _, by simp [machine, step, running]; rfl, ?_⟩
      exact recvRound_consistent consistent running within.1 within.2
  · refine ⟨s.leave op rest true, some true, by simp [machine, step, running], ?_⟩
    apply leave_consistent consistent running
    have below := (consistent.moved op (by simp [running])).1
    simp only [true_iff]
    omega
  · exact ⟨s.echo fd k, none, by simp [machine, step], echo_consistent consistent fd k⟩

theorem run_consistent {program : List (Op φ)} {es : List (Event φ)} {vs : List (Option Bool)}
    {s : State φ} (run : (machine φ up down).Run (start program) es vs s) : Consistent program s :=
  (step_consistent program).run run (start_consistent program)

def Op.message (fd : φ) : Op φ → Option (List UInt8)
  | .sendAll own buf => if own = fd then some buf else none
  | .recvExact _ _ => none

def Op.wanted (fd : φ) : Op φ → Option Nat
  | .sendAll _ _ => none
  | .recvExact own len => if own = fd then some len else none

def answer (fd : φ) (o : Outcome φ) : Option (List UInt8) :=
  match o.op with
  | .sendAll _ _ => none
  | .recvExact own _ => if own = fd then some o.bytes else none

/-- On each connection the client asks for the messages back in the order and with the lengths in
which it has sent them, and for none before it has sent it. -/
def Matched (program : List (Op φ)) : Prop :=
  ∀ fd, ∀ k ≤ program.length, (program.take k).filterMap (Op.wanted fd) <+:
    ((program.take k).filterMap (Op.message fd)).map List.length

theorem received_eq (fd : φ) (log : List (Outcome φ)) :
    log.flatMap (receivedOn fd) = (log.filterMap (answer fd)).flatten := by
  induction log with
  | nil => rfl
  | cons o log ih =>
    rw [List.flatMap_cons, ih]
    cases op : o.op with
    | sendAll own buf => simp [receivedOn, answer, op]
    | recvExact own len =>
      by_cases same : own = fd
      · simp [receivedOn, answer, op, same]
      · simp [receivedOn, answer, op, same]

theorem sent_eq (fd : φ) {log : List (Outcome φ)} (right : ∀ o ∈ log, o.Right)
    (fine : ∀ o ∈ log, o.ok = true) :
    log.flatMap (sentOn fd) = ((log.map Outcome.op).filterMap (Op.message fd)).flatten := by
  induction log with
  | nil => rfl
  | cons o log ih =>
    obtain ⟨first, rest⟩ := List.forall_mem_cons.mp right
    obtain ⟨okay, okays⟩ := List.forall_mem_cons.mp fine
    rw [List.flatMap_cons, ih rest okays, List.map_cons]
    obtain ⟨-, through, source⟩ := first
    cases op : o.op with
    | sendAll own buf =>
      simp only [op] at source through
      have whole : o.bytes = buf := source.eq_of_length (through.mp okay)
      by_cases same : own = fd
      · simp [sentOn, Op.message, op, same, whole, -List.filterMap_map]
      · simp [sentOn, Op.message, op, same, -List.filterMap_map]
    | recvExact own len => simp [sentOn, Op.message, op, List.filterMap_cons, -List.filterMap_map]

theorem wanted_eq (fd : φ) {log : List (Outcome φ)} (right : ∀ o ∈ log, o.Right)
    (fine : ∀ o ∈ log, o.ok = true) :
    (log.filterMap (answer fd)).map List.length = (log.map Outcome.op).filterMap (Op.wanted fd) := by
  induction log with
  | nil => rfl
  | cons o log ih =>
    obtain ⟨first, rest⟩ := List.forall_mem_cons.mp right
    obtain ⟨okay, okays⟩ := List.forall_mem_cons.mp fine
    obtain ⟨-, through, -⟩ := first
    have tail := ih rest okays
    have length := through.mp okay
    rw [List.map_cons, List.filterMap_cons, List.filterMap_cons]
    cases op : o.op with
    | sendAll own buf => simpa only [answer, Op.wanted, op] using tail
    | recvExact own len =>
      rw [op] at length
      by_cases same : own = fd
      · simp only [answer, Op.wanted, op, same, if_true, List.map_cons, length, tail]
        rfl
      · simpa only [answer, Op.wanted, op, same, if_false] using tail

theorem matched_log {program : List (Op φ)} (matched : Matched program) {s : State φ}
    (consistent : Consistent program s) (fd : φ) :
    (s.log.map Outcome.op).filterMap (Op.wanted fd) <+:
      ((s.log.map Outcome.op).filterMap (Op.message fd)).map List.length := by
  have front : program.take (s.log.map Outcome.op).length = s.log.map Outcome.op := by
    rw [← consistent.program, List.take_left]
  have short : (s.log.map Outcome.op).length ≤ program.length := by
    rw [← consistent.program, List.length_append]
    omega
  have sizes := matched fd (s.log.map Outcome.op).length short
  rwa [front] at sizes

/-- However the system cuts up the bytes and whenever the server answers, the bytes on their way are
those sent and not yet received, in order; and where the client asks for whole messages, each
`recv_exact` has got exactly the message whose turn it was, as long as every call goes through. -/
theorem messages_delivered {program : List (Op φ)} {es : List (Event φ)} {vs : List (Option Bool)}
    {s : State φ} (run : (machine φ up down).Run (start program) es vs s) :
    Consistent program s ∧ (Matched program → (∀ o ∈ s.log, o.ok = true) → ∀ fd,
      s.log.filterMap (answer fd) <+: (s.log.map Outcome.op).filterMap (Op.message fd)) := by
  have consistent := run_consistent run
  refine ⟨consistent, fun matched fine fd => ?_⟩
  have sizes := matched_log matched consistent fd
  rw [← wanted_eq fd consistent.right fine] at sizes
  have conserved := consistent.conserved fd
  rw [State.outcomes, List.flatMap_append, List.flatMap_append, received_eq,
    sent_eq fd consistent.right fine, List.append_assoc] at conserved
  exact Framing.cuts_agree conserved sizes

theorem messages_delivered_pieces : ∃ s : State Bool, (machine Bool 8 8).Run
      (start [.sendAll false [1, 2], .sendAll true [3], .recvExact true 1, .recvExact false 2])
      [.returns 1, .returns 1, .echo false 2, .finish, .returns 1, .finish, .echo true 1, .returns 1, .finish,
        .returns 1, .returns 1, .finish]
      [none, none, none, some true, none, some true, none, none, some true, none, none, some true] s ∧
    (Consistent [.sendAll false [1, 2], .sendAll true [3], .recvExact true 1, .recvExact false 2] s ∧
      ((∀ o ∈ s.log, o.ok = true) → ∀ fd,
        s.log.filterMap (answer fd) <+: (s.log.map Outcome.op).filterMap (Op.message fd))) := by
  have matched : Matched [.sendAll false [1, 2], .sendAll true [3], .recvExact true 1, .recvExact false 2] := by
    unfold Matched
    decide
  exact Machine.exists_run (by decide) fun _ run =>
    ⟨(messages_delivered run).1, (messages_delivered run).2 matched⟩

end Traffic
end Syseng.Networking.StreamTransfer
