import Syseng.ModernCpp.ScopedFd
import Syseng.ModernCpp.UniqueBuffer
import Syseng.ModernCpp.BufferRuns

/-! Assignments whose two sides may be one object. -/

namespace Syseng.ModernCpp
open Support

variable {ι : Type} [DecidableEq ι]

namespace Buffer
open Blocks

/-- `a = b` has made `a` a copy of what `b` was, in a block of its own. -/
structure Copied (s t : Buffers ι) (a b : ι) : Prop where
  size : (t.objs a).map Handle.size = (s.objs b).map Handle.size
  bytes : bytes t.view a = bytes s.view b
  source : Buffer.bytes t.view b = Buffer.bytes s.view b
  own : ∀ x g h, x ≠ a → t.objs a = some g → t.objs x = some h → g.data ≠ h.data
  others : ∀ x, x ≠ a → x ≠ b → t.objs x = s.objs x ∧ t.view x = s.view x
  count : t.sCopies.toInt = s.sCopies.toInt + 1

theorem deepCopy_objs {b c : Blocks ι UInt8} {this other x : ι} {addr : Nat} (differs : x ≠ this)
    (done : deepCopy b this other addr = .ok c) : c.objs x = b.objs x := by
  obtain ⟨src, -, done⟩ := bind_ok done
  obtain ⟨b₁, made, done⟩ := bind_ok done
  obtain ⟨src₁, -, done⟩ := bind_ok done
  obtain ⟨b₂, sized, done⟩ := bind_ok done
  obtain ⟨cur₂, -, done⟩ := bind_ok done
  obtain ⟨src₂, -, done⟩ := bind_ok done
  obtain ⟨mem, -, done⟩ := bind_ok done
  obtain ⟨mem₁, -, made⟩ := bind_ok made
  obtain ⟨cur, -, made⟩ := bind_ok made
  obtain ⟨cur₁, -, sized⟩ := bind_ok sized
  cases done
  cases sized
  cases made
  simp [differs]

theorem copyAssign_objs {s t : Buffers ι} {this other x : ι} {addr : Nat} {v : Value}
    (differs : x ≠ this) (done : copyAssign s this other (some addr) = .ok (t, v)) :
    t.objs x = s.objs x := by
  obtain ⟨b, deleted, done⟩ := bind_ok done
  obtain ⟨c, copied, done⟩ := bind_ok done
  obtain ⟨cur, -, deleted⟩ := bind_ok deleted
  obtain ⟨mem, -, deleted⟩ := bind_ok deleted
  cases done
  cases deleted
  have kept := deepCopy_objs differs copied
  exact kept

theorem copied_eq_iff {s : Buffers ι} {a b : ι} {src : Handle} (sound : Sound s.toBlocks)
    (source : s.objs b = some src) : copied s.view a b src.size = contents (s.view b).join ↔
      (a = b → ∀ x ∈ contents (s.view b).join, x = 0) := by
  have sized := sound.sized b src source
  have shown : (s.view b).join = src.data.bind s.mem.entry := by rw [view_some source, Option.join_some]
  unfold copied
  by_cases same : b = a
  · rw [if_pos same, shown, sized, eq_comm, List.eq_replicate_iff]
    exact ⟨fun zeros _ => zeros.2, fun zeros => ⟨rfl, zeros same.symm⟩⟩
  · rw [if_neg same]
    exact iff_of_true rfl fun wrong => absurd wrong.symm same

/-- A copy assignment is right between two objects, and of an object to itself where all of
its bytes are zero. -/
theorem copyAssign_copied_iff {s : Buffers ι} (sound : Sound s.toBlocks) {a b : ι} {addr : Nat}
    (may : allowed s (.copyAssign a b (some addr))) :
    ∃ t, copyAssign s a b (some addr) = .ok (t, .done) ∧ (Copied s t a b ↔
      s.sCopies.toInt < 2 ^ 31 - 1 ∧ (a = b → ∀ x ∈ contents (s.view b).join, x = 0)) := by
  obtain ⟨cur, live⟩ := Option.isSome_iff_exists.mp may.1
  obtain ⟨src, source⟩ := Option.isSome_iff_exists.mp may.2.1
  obtain ⟨blocks, done, becomes⟩ := copyAssign_becomes sound live source (may.2.2 addr rfl)
  refine ⟨_, done, ?_⟩
  have shown := becomes.view
  have target : bytes blocks.view a = some (copied s.view a b src.size) := by
    rw [shown, bytes_update, Function.update_self]
    rfl
  rw [← copied_eq_iff sound source]
  constructor
  · intro right
    have bytes := right.bytes
    rw [target, bytes_some source] at bytes
    refine ⟨?_, Option.some.inj bytes⟩
    have count : (s.sCopies + 1).toInt = s.sCopies.toInt + 1 := right.count
    have bound := (s.sCopies + 1).toInt_lt
    omega
  · rintro ⟨room, same⟩
    have moved : bytes blocks.view a = bytes s.view b := by
      rw [target, same, bytes_some source]
    constructor
    · rw [((shows_of_sound becomes.sound (s := { s with toBlocks := blocks })) a).1,
        ((shows_of_sound sound) b).1]
      exact congrArg _ moved
    · exact moved
    · by_cases one : b = a
      · subst one
        exact moved
      · change bytes blocks.view b = bytes s.view b
        rw [shown, bytes_update, Function.update_of_ne one]
    · intro x g h differs left right shared
      have block : g.data ≠ none := by
        intro null
        have viewed := view_some (s := blocks) left
        rw [shown, Function.update_self, null] at viewed
        cases viewed
      exact differs (becomes.sound.alone left right block shared).symm
    · intro x notA notB
      refine ⟨copyAssign_objs notA done, ?_⟩
      change blocks.view x = s.view x
      rw [shown, Function.update_of_ne notA]
    · exact toInt_succ room

theorem copyAssign_copied_iff_zero : ∃ s : Buffers Bool,
    ((machine Bool).restrict fun _ e => Succeeds e).Run start [.sized false 2 (some 10)] [.done] s ∧
      ∃ t, copyAssign s false false (some 10) = .ok (t, .done) ∧ (Copied s t false false ↔
        s.sCopies.toInt < 2 ^ 31 - 1 ∧
          (false = false → ∀ x ∈ contents (s.view false).join, x = 0)) := by
  obtain ⟨s, run, may⟩ : ∃ s, ((machine Bool).restrict fun _ e => Succeeds e).Run start
      [.sized false 2 (some 10)] [.done] s ∧
        decide (allowed s (.copyAssign false false (some 10))) = true :=
    Machine.exists_run_seen (fun s => decide (allowed s (.copyAssign false false (some 10))))
      (by decide)
  exact ⟨s, run, copyAssign_copied_iff (keeps_sound.run run sound_start) (of_decide_eq_true may)⟩

/-- A byte that is not zero is lost by the assignment of an object to itself. -/
theorem copyAssign_self_zeroes : ∃ s t : Buffers Bool,
    (machine Bool).Run start [.sized false 1 (some 10), .write false 0 7] [.done, .done] s ∧
      copyAssign s false false (some 20) = .ok (t, .done) ∧ ¬ Copied s t false false := by
  obtain ⟨s, ⟨t, v⟩, run, before, done, seen⟩ : ∃ s r, (machine Bool).Run start
      [.sized false 1 (some 10), .write false 0 7] [.done, .done] s ∧
        bytes s.view false = some [7] ∧ copyAssign s false false (some 20) = .ok r ∧
          (bytes r.1.view false, r.2) = (some [0], .done) :=
    Machine.exists_run_then _ (fun s : Buffers Bool => bytes s.view false)
      (fun r : Buffers Bool × Value => (bytes r.1.view false, r.2)) (by decide)
  obtain ⟨after, rfl⟩ := Prod.mk.inj seen
  refine ⟨s, t, run, done, fun right => ?_⟩
  have same := right.bytes
  rw [before, after] at same
  exact absurd same (by decide)

end Buffer

namespace ScopedFd

/-- `a = std::move(b)` has brought `a` the number that `b` held, still open, and closed
another one that `a` held. -/
structure Delivered (s t : World ι) (a b : ι) : Prop where
  holds : t.wrapper a = s.wrapper b
  stillOpen : ∀ w, s.wrapper b = some w → w.fd ≠ -1 → t.table.entry w.fd = s.table.entry w.fd
  closed : ∀ v w, s.wrapper a = some v → s.wrapper b = some w → v.fd ≠ -1 → v.fd ≠ w.fd →
    ∃ n, s.table.issueOf v.fd = some n ∧ t.table.released = (v.fd, n) :: s.table.released
  emptied : a ≠ b → t.wrapper b = some { fd := -1 }

omit [DecidableEq ι] in
theorem close_current {s : World ι} {cur : ScopedFd} (open_ : cur.fd ≠ -1 → s.table.Live cur.fd) :
    ∃ table, (if cur.valid then s.close cur.fd else .ok s) = .ok { s with table } ∧
      (∀ k, k ≠ cur.fd → table.entry k = s.table.entry k) ∧
      (cur.fd ≠ -1 → ∃ n, s.table.issueOf cur.fd = some n ∧
        table.released = (cur.fd, n) :: s.table.released) := by
  by_cases valid : cur.valid = true
  · obtain ⟨_, held⟩ := Option.isSome_iff_exists.mp (open_ ((valid_iff cur).mp valid))
    obtain ⟨table, n, dropped, -⟩ := Table.release_ok held
    obtain ⟨e, found, entries, released⟩ := Table.entry_release dropped
    refine ⟨table, by simp [valid, World.close, dropped], fun k other => ?_, fun _ => ?_⟩
    · rw [entries, Function.update_of_ne other]
    · exact ⟨e.issue, by simp [Table.issueOf, found], released⟩
  · refine ⟨s.table, by simp [valid], fun _ _ => rfl, fun wrong => ?_⟩
    exact absurd ((valid_iff cur).mpr wrong) valid

theorem moveAssign_delivered_iff {s : World ι} (owns : Owns s.table (own s)) {a b : ι}
    {cur src : ScopedFd} (live : s.wrapper a = some cur) (source : s.wrapper b = some src) :
    ∃ t, s.moveAssign a b = .ok t ∧ (Delivered s t a b ↔ a ≠ b ∨ src.fd = -1) := by
  have held : cur.fd ≠ -1 → s.table.Live cur.fd :=
    fun valid => (owns.live_iff _).mpr ⟨_, mem_own live valid⟩
  obtain ⟨table, cleaned, kept, dropped⟩ := close_current held
  refine ⟨({ s with table }.set a { fd := src.fd }).set b { fd := -1 }, ?_, ?_⟩
  · have reads : ({ s with table } : World ι).object b = .ok src := object_some source
    simp [World.moveAssign, object_some live, cleaned, reads]
  constructor
  · intro delivered
    by_cases same : a = b
    · right
      have holds := delivered.holds
      subst same
      rw [source] at holds
      exact congrArg ScopedFd.fd (by simpa [World.set] using holds.symm)
    · exact Or.inl same
  · intro apart
    have closed : ∀ v w, s.wrapper a = some v → s.wrapper b = some w → v.fd ≠ -1 → v.fd ≠ w.fd →
        ∃ n, s.table.issueOf v.fd = some n ∧ table.released = (v.fd, n) :: s.table.released := by
      intro v w left _ valid _
      cases live.symm.trans left
      exact dropped valid
    by_cases same : a = b
    · subst same
      have nothing : src.fd = -1 := apart.resolve_left fun differs => differs rfl
      refine ⟨?_, fun w held valid => ?_, closed, fun differs => absurd rfl differs⟩
      · simp [World.set, source, ← nothing]
      · cases source.symm.trans held
        exact absurd nothing valid
    · refine ⟨?_, fun w held valid => ?_, closed, fun _ => by simp [World.set]⟩
      · simp [World.set, same, source]
      · apply kept
        intro number
        cases source.symm.trans held
        have other := mem_own live (number ▸ valid)
        rw [← number] at other
        exact same (Option.some.inj (owns.apart other (mem_own source valid)))

omit [DecidableEq ι] in
theorem own_eq_nil_iff {s : World ι} {x : ι} {w : ScopedFd} (live : s.wrapper x = some w) :
    own s (some x) = [] ↔ w.fd = -1 := by
  rw [own_some live, held]
  split
  · next closed => exact iff_of_true rfl closed
  · next valid => exact iff_of_false (List.cons_ne_nil _ _) valid

end ScopedFd

namespace Blocks
variable {α : Type}

structure Delivered (s t : Blocks ι α) (a b : ι) : Prop where
  holds : t.objs a = s.objs b
  contents : t.view a = s.view b
  deleted : ∀ e, s.view a = some (some e) → s.view b ≠ some (some e) → freed t = e.issue :: freed s
  emptied : a ≠ b → t.objs b = some { data := none, size := 0 }

theorem moveAssign_objs {s t : Blocks ι α} {a b : ι} (done : s.moveAssign a b = .ok t) :
    t.objs = Function.update (Function.update s.objs a (s.objs b)) b
      (some { data := none, size := 0 }) := by
  obtain ⟨s₁, deleted, done⟩ := bind_ok done
  obtain ⟨cur, -, deleted⟩ := bind_ok deleted
  obtain ⟨mem, -, deleted⟩ := bind_ok deleted
  obtain ⟨src, read, done⟩ := bind_ok done
  cases deleted
  cases done
  cases source : s.objs b with
  | none => simp [object, source] at read
  | some h =>
    cases (object_some (s := { s with mem }) source).symm.trans read
    rfl

theorem moveAssign_delivered_iff {s : Blocks ι α} (sound : Sound s) {a b : ι} {cur src : Handle}
    (live : s.objs a = some cur) (source : s.objs b = some src) :
    ∃ t, s.moveAssign a b = .ok t ∧ (Delivered s t a b ↔ a ≠ b ∨ src.data = none) := by
  obtain ⟨t, done, becomes⟩ := becomes_moveAssigned sound live source
  have objects := moveAssign_objs done
  refine ⟨t, done, ?_⟩
  constructor
  · intro delivered
    by_cases same : a = b
    · right
      have holds := delivered.holds
      rw [objects, same, Function.update_self, source] at holds
      exact (congrArg Handle.data (Option.some.inj holds)).symm
    · exact Or.inl same
  · intro apart
    by_cases same : a = b
    · subst same
      have nothing : src.data = none := apart.resolve_left fun differs => differs rfl
      rcases sound.cases source with ⟨null, zero, viewed⟩ | ⟨p, e, data, -⟩
      · have whole : src = { data := none, size := 0 } := by
          cases src
          cases null
          cases zero
          rfl
        refine ⟨?_, ?_, fun e held => ?_, fun differs => absurd rfl differs⟩
        · rw [objects, Function.update_self, source, whole]
        · rw [becomes.view, Function.update_self, viewed]
        · cases viewed.symm.trans held
      · cases nothing.symm.trans data
    · refine ⟨?_, ?_, fun e held _ => ?_, fun _ => ?_⟩
      · rw [objects, Function.update_of_ne same, Function.update_self]
      · rw [becomes.view, Function.update_of_ne same, Function.update_self]
      · rw [becomes.freed, held]
        rfl
      · rw [objects, Function.update_self]

omit [DecidableEq ι] in
theorem own_eq_nil_iff {s : Blocks ι α} {x : ι} {h : Handle} (live : s.objs x = some h) :
    own s x = [] ↔ h.data = none := by
  rw [own_some live, Option.toList_eq_nil_iff]

end Blocks

/-- A move assignment delivers between two objects, and from an object to itself where it
holds nothing. -/
theorem moveAssign_delivers_iff {α : Type} (a b : ι) :
    (∀ s : ScopedFd.World ι, Owns s.table (ScopedFd.own s) → (s.wrapper a).isSome →
      (s.wrapper b).isSome → ∃ t, s.moveAssign a b = .ok t ∧
        (ScopedFd.Delivered s t a b ↔ a ≠ b ∨ ScopedFd.own s (some b) = [])) ∧
    (∀ s : Blocks ι α, Blocks.Sound s → (s.objs a).isSome → (s.objs b).isSome →
      ∃ t, UniqueBuffer.moveAssign s a b = .ok t ∧
        (Blocks.Delivered s t a b ↔ a ≠ b ∨ Blocks.own s b = [])) ∧
    (∀ s : Buffers ι, Blocks.Sound s.toBlocks → (s.objs a).isSome → (s.objs b).isSome →
      ∃ t, Buffer.moveAssign s a b = .ok t ∧
        (Blocks.Delivered s.toBlocks t.toBlocks a b ↔ a ≠ b ∨ Blocks.own s.toBlocks b = [])) := by
  refine ⟨fun s owns left right => ?_, fun s sound left right => ?_, fun s sound left right => ?_⟩
  · obtain ⟨cur, live⟩ := Option.isSome_iff_exists.mp left
    obtain ⟨src, source⟩ := Option.isSome_iff_exists.mp right
    rw [ScopedFd.own_eq_nil_iff source]
    exact ScopedFd.moveAssign_delivered_iff owns live source
  · obtain ⟨cur, live⟩ := Option.isSome_iff_exists.mp left
    obtain ⟨src, source⟩ := Option.isSome_iff_exists.mp right
    rw [Blocks.own_eq_nil_iff source]
    exact Blocks.moveAssign_delivered_iff sound live source
  · obtain ⟨cur, live⟩ := Option.isSome_iff_exists.mp left
    obtain ⟨src, source⟩ := Option.isSome_iff_exists.mp right
    obtain ⟨t, moved, iff⟩ := Blocks.moveAssign_delivered_iff sound live source
    rw [Blocks.own_eq_nil_iff source]
    exact ⟨{ s with toBlocks := t, sMoves := s.sMoves + 1 }, by simp [Buffer.moveAssign, moved], iff⟩

theorem moveAssign_delivers_iff_two :
    (∃ s : ScopedFd.World Bool, (ScopedFd.machine Bool).Run ScopedFd.World.start
      [.openAndWrap false 3, .openAndWrap true 4] [none, none] s ∧
        ∃ t, s.moveAssign false true = .ok t ∧
          (ScopedFd.Delivered s t false true ↔ false ≠ true ∨ ScopedFd.own s (some true) = [])) ∧
    (∃ s : Blocks Bool Nat, (UniqueBuffer.machine Bool Nat).Run Blocks.start
      [.construct false 1 10 fun _ => 5, .construct true 2 20 fun _ => 6] [none, none] s ∧
        ∃ t, UniqueBuffer.moveAssign s false true = .ok t ∧
          (Blocks.Delivered s t false true ↔ false ≠ true ∨ Blocks.own s true = [])) ∧
    (∃ s : Buffers Bool, ((Buffer.machine Bool).restrict fun _ e => Buffer.Succeeds e).Run Buffer.start
      [.sized false 1 (some 10), .sized true 2 (some 20)] [.done, .done] s ∧
        ∃ t, Buffer.moveAssign s false true = .ok t ∧
          (Blocks.Delivered s.toBlocks t.toBlocks false true ↔
            false ≠ true ∨ Blocks.own s.toBlocks true = [])) := by
  obtain ⟨wrappers, blocks, buffers⟩ := moveAssign_delivers_iff (α := Nat) false true
  refine ⟨?_, ?_, ?_⟩
  · obtain ⟨s, run, seen⟩ : ∃ s, (ScopedFd.machine Bool).Run ScopedFd.World.start
        [.openAndWrap false 3, .openAndWrap true 4] [none, none] s ∧
          ((s.wrapper false).isSome, (s.wrapper true).isSome) = (true, true) :=
      Machine.exists_run_seen
        (fun s : ScopedFd.World Bool => ((s.wrapper false).isSome, (s.wrapper true).isSome)) (by decide)
    obtain ⟨left, right⟩ := Prod.mk.inj seen
    exact ⟨s, run, wrappers s (ScopedFd.keeps_owned.run run ScopedFd.start_owned) left right⟩
  · obtain ⟨s, run, seen⟩ : ∃ s, (UniqueBuffer.machine Bool Nat).Run Blocks.start
        [.construct false 1 10 fun _ => 5, .construct true 2 20 fun _ => 6] [none, none] s ∧
          ((s.objs false).isSome, (s.objs true).isSome) = (true, true) :=
      Machine.exists_run_seen
        (fun s : Blocks Bool Nat => ((s.objs false).isSome, (s.objs true).isSome)) (by decide)
    obtain ⟨left, right⟩ := Prod.mk.inj seen
    have sound := (UniqueBuffer.step_refines.run run UniqueBuffer.tracks_start).1.sound
    exact ⟨s, run, blocks s sound left right⟩
  · obtain ⟨s, run, seen⟩ : ∃ s, ((Buffer.machine Bool).restrict fun _ e => Buffer.Succeeds e).Run
        Buffer.start [.sized false 1 (some 10), .sized true 2 (some 20)] [.done, .done] s ∧
          ((s.objs false).isSome, (s.objs true).isSome) = (true, true) :=
      Machine.exists_run_seen
        (fun s : Buffers Bool => ((s.objs false).isSome, (s.objs true).isSome)) (by decide)
    obtain ⟨left, right⟩ := Prod.mk.inj seen
    exact ⟨s, run, buffers s (Buffer.keeps_sound.run run Blocks.sound_start) left right⟩

/-- An object moved to itself closes its file, or deletes its block, and ends up empty. -/
theorem moveAssign_self_loses :
    (∃ s t : ScopedFd.World Bool, (ScopedFd.machine Bool).Run ScopedFd.World.start
      [.openAndWrap false 3] [none] s ∧ s.moveAssign false false = .ok t ∧
        ¬ t.table.Live 3 ∧ ¬ ScopedFd.Delivered s t false false) ∧
    (∃ s t : Blocks Bool Nat, (UniqueBuffer.machine Bool Nat).Run Blocks.start
      [.construct false 1 10 fun _ => 5] [none] s ∧ UniqueBuffer.moveAssign s false false = .ok t ∧
        ¬ t.mem.Live 10 ∧ ¬ Blocks.Delivered s t false false) ∧
    (∃ s t : Buffers Bool, (Buffer.machine Bool).Run Buffer.start
      [.sized false 1 (some 10)] [.done] s ∧ Buffer.moveAssign s false false = .ok t ∧
        ¬ t.mem.Live 10 ∧ ¬ Blocks.Delivered s.toBlocks t.toBlocks false false) := by
  refine ⟨?_, ?_, ?_⟩
  · obtain ⟨s, t, run, before, done, after⟩ : ∃ s t, (ScopedFd.machine Bool).Run ScopedFd.World.start
        [.openAndWrap false 3] [none] s ∧ s.wrapper false = some ⟨3⟩ ∧
          s.moveAssign false false = .ok t ∧
            (t.wrapper false, (t.table.lookup 3).isSome) = (some ⟨-1⟩, false) :=
      Machine.exists_run_then (fun s : ScopedFd.World Bool => s.moveAssign false false)
        (fun s => s.wrapper false) (fun t => (t.wrapper false, (t.table.lookup 3).isSome)) (by decide)
    obtain ⟨empty, closed⟩ := Prod.mk.inj after
    refine ⟨s, t, run, done, by simp [closed], fun delivered => ?_⟩
    have same := delivered.holds
    rw [before, empty] at same
    exact absurd same (by decide)
  · obtain ⟨s, t, run, before, done, after⟩ : ∃ s t, (UniqueBuffer.machine Bool Nat).Run Blocks.start
        [.construct false 1 10 fun _ => 5] [none] s ∧ s.objs false = some ⟨some 10, 1⟩ ∧
          UniqueBuffer.moveAssign s false false = .ok t ∧
            (t.objs false, (t.mem.lookup 10).isSome) = (some ⟨none, 0⟩, false) :=
      Machine.exists_run_then (fun s : Blocks Bool Nat => UniqueBuffer.moveAssign s false false)
        (fun s => s.objs false) (fun t => (t.objs false, (t.mem.lookup 10).isSome)) (by decide)
    obtain ⟨empty, deleted⟩ := Prod.mk.inj after
    refine ⟨s, t, run, done, by simp [deleted], fun delivered => ?_⟩
    have same := delivered.holds
    rw [before, empty] at same
    exact absurd same (by decide)
  · obtain ⟨s, t, run, before, done, after⟩ : ∃ s t, (Buffer.machine Bool).Run Buffer.start
        [.sized false 1 (some 10)] [.done] s ∧ s.objs false = some ⟨some 10, 1⟩ ∧
          Buffer.moveAssign s false false = .ok t ∧
            (t.objs false, (t.mem.lookup 10).isSome) = (some ⟨none, 0⟩, false) :=
      Machine.exists_run_then (fun s : Buffers Bool => Buffer.moveAssign s false false)
        (fun s => s.objs false) (fun t => (t.objs false, (t.mem.lookup 10).isSome)) (by decide)
    obtain ⟨empty, deleted⟩ := Prod.mk.inj after
    refine ⟨s, t, run, done, by simp [deleted], fun delivered => ?_⟩
    have same := delivered.holds
    rw [before, empty] at same
    exact absurd same (by decide)

end Syseng.ModernCpp
