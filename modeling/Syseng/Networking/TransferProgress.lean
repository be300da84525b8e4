import Mathlib.Algebra.BigOperators.Group.Finset.Basic
import Mathlib.Data.Finset.Dedup
import Syseng.Networking.StreamTransfer

/-! How long `send_all` and `recv_exact` take, and which programs of them can be brought to an end.
A client that writes too much before it reads, or reads what it has not written, waits for good. -/

namespace Syseng.Networking.StreamTransfer
open Support

variable {φ : Type} [DecidableEq φ] {up down : Nat}

def sentBy (ops : List (Op φ)) (fd : φ) : Nat := (ops.filterMap (Op.message fd)).flatten.length

def askedBy (ops : List (Op φ)) (fd : φ) : Nat := (ops.filterMap (Op.wanted fd)).sum

/-- After the calls `before`: what is outstanding with a message fits on the way there and back, and
nothing is asked for that has not been sent. -/
def Op.Fits (up down : Nat) (before : List (Op φ)) : Op φ → Prop
  | .sendAll fd buf => 0 < up ∧ sentBy before fd + buf.length ≤ askedBy before fd + up + down
  | .recvExact fd len => 0 < down ∧ askedBy before fd + len ≤ sentBy before fd

/-- A call that has no byte to move needs nothing. -/
def Fits (up down : Nat) (program : List (Op φ)) : Prop :=
  ∀ before op rest, program = before ++ op :: rest → 0 < op.len → op.Fits up down before

def State.Finished (s : State φ) : Prop :=
  s.todo = [] ∧ ∀ o ∈ s.log, o.ok = true

inductive Happens (up down : Nat) (s : State φ) : Event φ → State φ → Prop where
  | failed {n : Int} {op : Op φ} {rest : List (Op φ)} (nothing : n ≤ 0) (running : s.todo = op :: rest) :
    Happens up down s (.returns n) (s.leave op rest false)
  | sent {n : Nat} {fd : φ} {buf : List UInt8} {rest : List (Op φ)} (some_ : 0 < n)
    (running : s.todo = .sendAll fd buf :: rest) (left : n ≤ buf.length - s.moved)
    (room : n ≤ up - (s.toPeer fd).length) :
    Happens up down s (.returns n) { s with
      toPeer := Function.update s.toPeer fd (s.toPeer fd ++ (buf.drop s.moved).take n)
      moved := s.moved + n }
  | got {n : Nat} {fd : φ} {len : Nat} {rest : List (Op φ)} (some_ : 0 < n)
    (running : s.todo = .recvExact fd len :: rest) (left : n ≤ len - s.moved)
    (come : n ≤ (s.fromPeer fd).length) :
    Happens up down s (.returns n) { s with
      fromPeer := Function.update s.fromPeer fd ((s.fromPeer fd).drop n)
      moved := s.moved + n
      buf := s.buf ++ (s.fromPeer fd).take n }
  | finished {op : Op φ} {rest : List (Op φ)} (running : s.todo = op :: rest) (ended : ¬ s.moved < op.len) :
    Happens up down s .finish (s.leave op rest true)
  | echoed {fd : φ} {k : Nat} (some_ : 0 < k) (there : k ≤ (s.toPeer fd).length)
    (room : (s.fromPeer fd).length + k ≤ down) : Happens up down s (.echo fd k) (s.echo fd k)

theorem step_happens {s t : State φ} {e : Event φ} {v : Option Bool} (may : allowed up down s e)
    (now : step s e = .ok (t, v)) : Happens up down s e t := by
  rcases allowed_cases may with ⟨n, op, rest, rfl, running, within⟩ | ⟨op, rest, rfl, running, ended⟩ |
    ⟨fd, k, rfl, some_, there, room⟩
  · by_cases nothing : n ≤ 0
    · have left : t = s.leave op rest false := by
        cases op <;> simp [step, running, State.sendRound, State.recvRound, nothing] at now <;> exact now.1.symm
      exact left ▸ .failed nothing running
    · obtain ⟨count, rfl⟩ := Int.eq_ofNat_of_zero_le (Int.le_of_lt (Int.not_le.mp nothing))
      cases op with
      | sendAll fd buf =>
        obtain ⟨going, fits⟩ := within
        simp only [step, running, State.sendRound, if_neg nothing, Int.toNat_natCast] at now
        cases now
        rw [← running]
        exact .sent (by omega) running (by omega) (by omega)
      | recvExact fd len =>
        obtain ⟨going, fits⟩ := within
        simp only [step, running, State.recvRound, if_neg nothing, Int.toNat_natCast] at now
        cases now
        rw [← running]
        exact .got (by omega) running (by omega) (by omega)
  · simp only [step, running] at now
    cases now
    exact .finished running ended
  · cases now
    exact .echoed some_ there room

/-- The events that a call still takes at most, with the echoes of the bytes that it sends. -/
def Op.left (moved : Nat) : Op φ → Nat
  | .sendAll _ buf => 2 * (buf.length - moved) + 1
  | .recvExact _ len => len - moved + 1

def State.owed (s : State φ) : Nat :=
  match s.todo with
  | [] => 0
  | op :: rest => op.left s.moved + (rest.map (Op.left 0)).sum

def State.unanswered (program : List (Op φ)) (s : State φ) : Nat :=
  ∑ fd ∈ (program.map Op.fd).toFinset, (s.toPeer fd).length

omit [DecidableEq φ] in
theorem Op.left_pos (op : Op φ) (moved : Nat) : 0 < op.left moved := by
  cases op <;> simp [Op.left]

omit [DecidableEq φ] in
theorem owed_cons {s : State φ} {op : Op φ} {rest : List (Op φ)} (running : s.todo = op :: rest) :
    s.owed = op.left s.moved + (rest.map (Op.left 0)).sum := by
  rw [State.owed, running]

omit [DecidableEq φ] in
theorem owed_leave (s : State φ) (op : Op φ) (rest : List (Op φ)) (ok : Bool) :
    (s.leave op rest ok).owed = (rest.map (Op.left 0)).sum := by
  cases rest with
  | nil => rfl
  | cons next rest => rfl

theorem sum_update {fds : Finset φ} {fd : φ} (member : fd ∈ fds) (wire : φ → List UInt8) (bytes : List UInt8) :
    (∑ x ∈ fds, (Function.update wire fd bytes x).length) + (wire fd).length =
      (∑ x ∈ fds, (wire x).length) + bytes.length := by
  have others : ∑ x ∈ fds.erase fd, (Function.update wire fd bytes x).length =
      ∑ x ∈ fds.erase fd, (wire x).length := by
    apply Finset.sum_congr rfl
    intro x other
    rw [Function.update_of_ne (Finset.ne_of_mem_erase other)]
  rw [← Finset.add_sum_erase fds _ member, ← Finset.add_sum_erase fds (fun x => (wire x).length) member,
    others, Function.update_self]
  omega

theorem running_member {program : List (Op φ)} {s : State φ} (consistent : Consistent program s) {op : Op φ}
    {rest : List (Op φ)} (running : s.todo = op :: rest) : op.fd ∈ (program.map Op.fd).toFinset := by
  rw [List.mem_toFinset, ← consistent.program, running]
  simp

theorem wire_member {program : List (Op φ)} {s : State φ} (consistent : Consistent program s) {fd : φ}
    (some_ : 0 < (s.toPeer fd).length) : fd ∈ (program.map Op.fd).toFinset := by
  by_contra absent
  have silent : ∀ o ∈ s.outcomes, sentOn fd o = [] := by
    intro o member
    have known : o.op ∈ program := by
      rw [← consistent.program]
      rcases List.mem_append.mp member with old | new
      · exact List.mem_append_left _ (List.mem_map_of_mem old)
      · obtain ⟨op, first, rfl⟩ := Option.map_eq_some_iff.mp (Option.mem_toList.mp new)
        exact List.mem_append_right _ (List.mem_of_head? first)
    have other : o.op.fd ≠ fd := by
      rintro rfl
      exact absent (List.mem_toFinset.mpr (List.mem_map_of_mem known))
    unfold sentOn
    cases op : o.op with
    | sendAll own buf =>
      rw [op] at other
      exact if_neg other
    | recvExact own len => rfl
  have conserved := consistent.conserved fd
  rw [List.flatMap_eq_nil_iff.mpr silent] at conserved
  simp only [List.append_eq_nil_iff] at conserved
  rw [conserved.2.2] at some_
  exact Nat.lt_irrefl 0 some_

theorem step_uses {program : List (Op φ)} {s t : State φ} (consistent : Consistent program s) {e : Event φ}
    (happens : Happens up down s e t) : t.owed + t.unanswered program + 1 ≤ s.owed + s.unanswered program := by
  cases happens with
  | @failed n op rest nothing running =>
    have left := owed_leave s op rest false
    have same : (s.leave op rest false).unanswered program = s.unanswered program := rfl
    have owed := owed_cons running
    have positive := op.left_pos s.moved
    omega
  | @sent n fd buf rest some_ running left room =>
    have moved := sum_update (running_member consistent running) s.toPeer
      (s.toPeer fd ++ (buf.drop s.moved).take n)
    have owed := owed_cons running
    simp only [Op.fd, List.length_append, List.length_take, List.length_drop] at moved
    simp only [State.owed, running, State.unanswered, Op.left] at owed ⊢
    omega
  | @got n fd len rest some_ running left come =>
    have owed := owed_cons running
    simp only [State.owed, running, State.unanswered, Op.left] at owed ⊢
    omega
  | @finished op rest running ended =>
    have left := owed_leave s op rest true
    have same : (s.leave op rest true).unanswered program = s.unanswered program := rfl
    have owed := owed_cons running
    have positive := op.left_pos s.moved
    omega
  | @echoed fd k some_ there room =>
    have moved := sum_update (wire_member consistent (by omega : 0 < (s.toPeer fd).length)) s.toPeer
      ((s.toPeer fd).drop k)
    have same : (s.echo fd k).owed = s.owed := rfl
    simp only [List.length_drop] at moved
    simp only [State.unanswered, State.echo] at same ⊢
    omega

theorem run_bounded {program : List (Op φ)} {es : List (Event φ)} {vs : List (Option Bool)} {s : State φ}
    (run : (machine φ up down).Run (start program) es vs s) :
    es.length ≤ (program.map (Op.left 0)).sum := by
  have bounded := (step_consistent program).bounded (fun s => s.owed + s.unanswered program)
    (fun s e t v consistent may now => step_uses consistent (step_happens may now)) run
    (start_consistent program)
  have begins : (start program).owed = (program.map (Op.left 0)).sum := by
    cases program <;> rfl
  have quiet : (start program).unanswered program = 0 := by simp [State.unanswered, start]
  omega

theorem in_flight {program : List (Op φ)} {s : State φ} (consistent : Consistent program s)
    (fine : ∀ o ∈ s.log, o.ok = true) {op : Op φ} {rest : List (Op φ)} (running : s.todo = op :: rest)
    (fd : φ) :
    askedBy (s.log.map Outcome.op) fd + (receivedOn fd ⟨op, false, s.bytes op⟩).length +
        ((s.fromPeer fd).length + (s.toPeer fd).length) =
      sentBy (s.log.map Outcome.op) fd + (sentOn fd ⟨op, false, s.bytes op⟩).length := by
  have conserved := congrArg List.length (consistent.conserved fd)
  have asked : (s.log.filterMap (answer fd)).flatten.length = askedBy (s.log.map Outcome.op) fd := by
    rw [List.length_flatten, wanted_eq fd consistent.right fine, askedBy]
  rw [outcomes_cons running, List.flatMap_append, List.flatMap_append, List.flatMap_singleton,
    List.flatMap_singleton, received_eq, sent_eq fd consistent.right fine] at conserved
  simpa only [List.length_append, asked, sentBy] using conserved

def Event.Moves : Event φ → Prop
  | .returns n => 0 < n
  | _ => True

/-- A client that keeps to what fits never waits for good. -/
theorem moves_on {program : List (Op φ)} (fits : Fits up down program) {s : State φ}
    (consistent : Consistent program s) (fine : ∀ o ∈ s.log, o.ok = true) (more : s.todo ≠ []) :
    ∃ e, allowed up down s e ∧ e.Moves := by
  obtain ⟨op, rest, running⟩ := List.exists_cons_of_ne_nil more
  have head : s.todo.head? = some op := by rw [running]; rfl
  obtain ⟨below, length⟩ := consistent.moved op head
  by_cases going : s.moved < op.len
  · have flight := in_flight consistent fine running op.fd
    have split : program = s.log.map Outcome.op ++ op :: rest := by rw [← consistent.program, running]
    have room := fits _ op rest split (by omega)
    -- a byte that has not come back can go on, if the running call itself cannot
    have echoes : 0 < (s.toPeer op.fd).length → (s.fromPeer op.fd).length < down →
        ∃ e, allowed up down s e ∧ e.Moves := fun some_ room =>
      ⟨.echo op.fd 1, ⟨Nat.one_pos, some_, room⟩, trivial⟩
    cases op with
    | sendAll fd buf =>
      obtain ⟨way, outstanding⟩ := room
      simp only [receivedOn, sentOn, if_true, List.length_nil, length, Op.fd, Op.len] at flight going
      by_cases space : (s.toPeer fd).length < up
      · have may : mayReturn up s 1 (.sendAll fd buf) := ⟨going, by omega⟩
        exact ⟨.returns 1, ⟨_, head, may⟩, Int.one_pos⟩
      · exact echoes (by simp only [Op.fd]; omega) (by simp only [Op.fd]; omega)
    | recvExact fd len =>
      obtain ⟨way, asked⟩ := room
      simp only [receivedOn, sentOn, if_true, List.length_nil, length, Op.fd, Op.len] at flight going
      by_cases come : 0 < (s.fromPeer fd).length
      · have may : mayReturn up s 1 (.recvExact fd len) := ⟨going, by omega⟩
        exact ⟨.returns 1, ⟨_, head, may⟩, Int.one_pos⟩
      · exact echoes (by simp only [Op.fd]; omega) (by simp only [Op.fd]; omega)
  · exact ⟨.finish, ⟨op, head, going⟩, trivial⟩

theorem moves_fine {s t : State φ} {e : Event φ} (fine : ∀ o ∈ s.log, o.ok = true)
    (happens : Happens up down s e t) (moves : e.Moves) : ∀ o ∈ t.log, o.ok = true := by
  cases happens with
  | failed nothing running => exact absurd moves (Int.not_lt.mpr nothing)
  | sent => exact fine
  | got => exact fine
  | finished running ended =>
    intro o member
    rcases List.mem_append.mp member with old | new
    · exact fine o old
    · rw [List.mem_singleton.mp new]
  | echoed => exact fine

theorem finishes {program : List (Op φ)} (fits : Fits up down program) {s : State φ}
    (consistent : Consistent program s) (fine : ∀ o ∈ s.log, o.ok = true) :
    (machine φ up down).Reaches State.Finished s := by
  refine Machine.reaches_of_progress (fun s => Consistent program s ∧ ∀ o ∈ s.log, o.ok = true)
    (fun s => s.owed + s.unanswered program) ?_ ⟨consistent, fine⟩
  intro s held unfinished
  obtain ⟨consistent, fine⟩ := held
  have more : s.todo ≠ [] := fun ended => unfinished ⟨ended, fine⟩
  obtain ⟨e, may, moves⟩ := moves_on fits consistent fine more
  obtain ⟨t, v, now, kept⟩ := step_consistent program s e consistent may
  have happens := step_happens may now
  exact ⟨e, t, v, may, now, ⟨kept, moves_fine fine happens moves⟩, step_uses consistent happens⟩

/-- What a run never goes beyond: the room on the way, and, where no call has failed, what fits. -/
structure Within (up down : Nat) (s : State φ) : Prop where
  toPeer : ∀ fd, (s.toPeer fd).length ≤ up
  fromPeer : ∀ fd, (s.fromPeer fd).length ≤ down
  begun : 0 < s.moved → ∀ op ∈ s.todo.head?, match op with
    | .sendAll _ _ => 0 < up
    | .recvExact _ _ => 0 < down
  fits : (∀ o ∈ s.log, o.ok = true) → Fits up down (s.log.map Outcome.op)

theorem length_update {wire : φ → List UInt8} {most : Nat} (short : ∀ fd, (wire fd).length ≤ most) {fd : φ}
    {bytes : List UInt8} (fits : bytes.length ≤ most) (other : φ) :
    (Function.update wire fd bytes other).length ≤ most := by
  by_cases same : other = fd
  · subst same
    rwa [Function.update_self]
  · rw [Function.update_of_ne same]
    exact short other

theorem Fits.snoc {ops : List (Op φ)} {op : Op φ} (fits : Fits up down ops)
    (last : 0 < op.len → op.Fits up down ops) : Fits up down (ops ++ [op]) := by
  intro before next rest split positive
  rcases List.eq_nil_or_concat rest with rfl | ⟨middle, final, rfl⟩
  · obtain ⟨rfl, same⟩ := List.append_inj' split rfl
    cases same
    exact last positive
  · rw [List.concat_eq_append, ← List.cons_append, ← List.append_assoc] at split
    exact fits before next middle (List.append_inj' split rfl).1 positive

theorem returned_fits {program : List (Op φ)} {s : State φ} (consistent : Consistent program s)
    (within : Within up down s) (fine : ∀ o ∈ s.log, o.ok = true) {op : Op φ} {rest : List (Op φ)}
    (running : s.todo = op :: rest) (ended : ¬ s.moved < op.len) (positive : 0 < op.len) :
    op.Fits up down (s.log.map Outcome.op) := by
  have head : op ∈ s.todo.head? := by rw [running]; rfl
  have flight := in_flight consistent fine running op.fd
  have way := within.begun (by omega) op head
  obtain ⟨below, length⟩ := consistent.moved op head
  have there := within.toPeer op.fd
  have back := within.fromPeer op.fd
  cases op with
  | sendAll fd buf =>
    simp only [receivedOn, sentOn, if_true, List.length_nil, length, Op.fd, Op.len] at flight there back ended
    exact ⟨way, by omega⟩
  | recvExact fd len =>
    simp only [receivedOn, sentOn, if_true, List.length_nil, length, Op.fd, Op.len] at flight there back ended
    exact ⟨way, by omega⟩

theorem leave_within {program : List (Op φ)} {s : State φ} (consistent : Consistent program s)
    (within : Within up down s) {op : Op φ} {rest : List (Op φ)} (running : s.todo = op :: rest) {ok : Bool}
    (through : ok = true → ¬ s.moved < op.len) : Within up down (s.leave op rest ok) where
  toPeer := within.toPeer
  fromPeer := within.fromPeer
  begun := fun begun => absurd begun (Nat.lt_irrefl 0)
  fits := by
    intro fine
    obtain ⟨before, last⟩ := List.forall_mem_append.mp fine
    have okay : ok = true := last _ (List.mem_singleton_self _)
    simp only [State.leave, List.map_append, List.map_cons, List.map_nil]
    exact (within.fits before).snoc (returned_fits consistent within before running (through okay))

theorem step_within {program : List (Op φ)} {s t : State φ} (consistent : Consistent program s)
    (within : Within up down s) {e : Event φ} (happens : Happens up down s e t) : Within up down t := by
  cases happens with
  | failed nothing running => exact leave_within consistent within running (by simp)
  | finished running ended => exact leave_within consistent within running fun _ => ended
  | @sent n fd buf rest some_ running left room =>
    refine ⟨length_update within.toPeer ?_, within.fromPeer, ?_, within.fits⟩
    · rw [List.length_append, List.length_take]
      omega
    · intro begun op member
      have first : op = .sendAll fd buf := by simpa [running, eq_comm] using member
      subst first
      exact Nat.lt_of_lt_of_le some_ (by omega)
  | @got n fd len rest some_ running left come =>
    refine ⟨within.toPeer, length_update within.fromPeer ?_, ?_, within.fits⟩
    · rw [List.length_drop]
      have := within.fromPeer fd
      omega
    · intro begun op member
      have first : op = .recvExact fd len := by simpa [running, eq_comm] using member
      subst first
      have := within.fromPeer fd
      change 0 < down
      omega
  | @echoed fd k some_ there room =>
    refine ⟨length_update within.toPeer ?_, length_update within.fromPeer ?_, within.begun, within.fits⟩
    · rw [List.length_drop]
      have := within.toPeer fd
      omega
    · rw [List.length_append, List.length_take]
      omega

theorem start_within (program : List (Op φ)) : Within up down (start program) where
  toPeer := fun _ => Nat.zero_le up
  fromPeer := fun _ => Nat.zero_le down
  begun := fun begun => absurd begun (Nat.lt_irrefl 0)
  fits := by
    intro fine before op rest split
    simp [start] at split

/-- A program that has come to its end fits. -/
theorem fits_of_finished {program : List (Op φ)} {es : List (Event φ)} {vs : List (Option Bool)} {s : State φ}
    (run : (machine φ up down).Run (start program) es vs s) (finished : s.Finished) : Fits up down program := by
  have held : Consistent program s ∧ Within up down s := by
    apply run.preserves ⟨start_consistent program, start_within program⟩
    intro s e t v before may now
    obtain ⟨consistent, within⟩ := before
    obtain ⟨u, w, stepped, kept⟩ := step_consistent program s e consistent may
    cases now.symm.trans stepped
    exact ⟨kept, step_within consistent within (step_happens may now)⟩
  have whole := held.1.program
  rw [finished.1, List.append_nil] at whole
  exact whole ▸ held.2.fits finished.2

/-- Every run of every program is short. Where no call has failed yet, the program can still be
brought to its end exactly when each of its calls fits. -/
theorem transfers_end {program : List (Op φ)} {es : List (Event φ)} {vs : List (Option Bool)} {s : State φ}
    (run : (machine φ up down).Run (start program) es vs s) :
    es.length ≤ (program.map (Op.left 0)).sum ∧ ((∀ o ∈ s.log, o.ok = true) →
      ((machine φ up down).Reaches State.Finished s ↔ Fits up down program)) := by
  refine ⟨run_bounded run, fun fine => ⟨?_, ?_⟩⟩
  · intro reaches
    obtain ⟨later, ws, t, rest, finished⟩ := reaches
    exact fits_of_finished (run.append rest) finished
  · intro fits
    exact finishes fits (run_consistent run) fine

theorem transfers_end_narrow : ∃ s : State Unit, (machine Unit 1 1).Run
      (start [.sendAll () [1, 2], .recvExact () 2]) [.returns 1, .echo () 1, .returns 1, .finish, .returns 1]
      [none, none, none, some true, none] s ∧
    5 ≤ ([.sendAll () [1, 2], .recvExact () 2].map (Op.left 0)).sum ∧
      (machine Unit 1 1).Reaches State.Finished s := by
  have fits : Fits 1 1 [Op.sendAll () [1, 2], .recvExact () 2] := by
    intro before op rest split positive
    rcases before with _ | ⟨first, _ | ⟨second, later⟩⟩
    · cases split
      exact ⟨by decide, by decide⟩
    · cases split
      exact ⟨by decide, by decide⟩
    · simp at split
  have ran : ((machine Unit 1 1).exec (start [.sendAll () [1, 2], .recvExact () 2])
      [.returns 1, .echo () 1, .returns 1, .finish, .returns 1]).map
        (fun r => (decide (∀ o ∈ r.1.log, o.ok = true), r.2)) =
      some (true, [none, none, none, some true, none]) := by decide
  obtain ⟨s, run, fine⟩ := Machine.exists_run_seen (fun s : State Unit => decide (∀ o ∈ s.log, o.ok = true)) ran
  obtain ⟨short, finishable⟩ := transfers_end run
  exact ⟨s, run, short, (finishable (of_decide_eq_true fine)).mpr fits⟩

end Syseng.Networking.StreamTransfer
