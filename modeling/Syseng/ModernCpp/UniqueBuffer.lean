import Syseng.ModernCpp.OwnedBlocks

/-! `UniqueBuffer<T>`, the move-only heap array. The ledger below says what it is for:
blocks hop between objects and keep the elements that were written into them. -/

namespace Syseng.ModernCpp.UniqueBuffer
open Support Blocks

variable {ι α : Type}

/-- `addr` is where `new T[n]` puts the block and `fresh` what its elements start as. -/
inductive Call (ι α : Type) where
  | construct (this : ι) (n addr : Nat) (fresh : Nat → α)
  | moveConstruct (this other : ι)
  | moveAssign (this other : ι)
  | write (this : ι) (i : Nat) (x : α)
  | read (this : ι) (i : Nat)
  | destroy (this : ι)

section Model
variable [DecidableEq ι]

def construct (s : Blocks ι α) (this : ι) (n addr : Nat) (fresh : Nat → α) :
    Except Fault (Blocks ι α) := do
  let s := s.set this { data := none, size := 0 }
  let s ← s.setSize this n
  s.newData this addr ((List.range n).map fresh)

def moveConstruct (s : Blocks ι α) (this other : ι) : Except Fault (Blocks ι α) :=
  s.moveConstruct this other

def moveAssign (s : Blocks ι α) (this other : ι) : Except Fault (Blocks ι α) :=
  s.moveAssign this other

def destroy (s : Blocks ι α) (this : ι) : Except Fault (Blocks ι α) :=
  s.deleteData this

end Model

/-- Constructors run on storage that holds no live object, `new` finds a free address, and
elements are accessed below `size()`. The two sides of a move assignment may be one object. -/
def allowed (s : Blocks ι α) : Call ι α → Prop
  | .construct this _ addr _ => s.objs this = none ∧ ¬ s.mem.Live addr
  | .moveConstruct this other => s.objs this = none ∧ (s.objs other).isSome
  | .moveAssign this other => (s.objs this).isSome ∧ (s.objs other).isSome
  | .write this i _ => ∃ h ∈ s.objs this, i < h.size
  | .read this i => ∃ h ∈ s.objs this, i < h.size
  | .destroy this => (s.objs this).isSome

def step [DecidableEq ι] (s : Blocks ι α) : Call ι α → Except Fault (Blocks ι α × Option α)
  | .construct this n addr fresh => do .ok (← construct s this n addr fresh, none)
  | .moveConstruct this other => do .ok (← moveConstruct s this other, none)
  | .moveAssign this other => do .ok (← moveAssign s this other, none)
  | .write this i x => do .ok (← s.write this i x, none)
  | .read this i => do .ok (s, some (← s.read this i))
  | .destroy this => do .ok ((← destroy s this).bury this, none)

def machine (ι α : Type) [DecidableEq ι] : Machine (Blocks ι α) (Call ι α) (Option α) Fault where
  allowed := allowed
  step := step

instance (s : Blocks ι α) (e : Call ι α) : Decidable (allowed s e) := by
  cases e <;> unfold allowed <;> infer_instance

instance [DecidableEq ι] (s : Blocks ι α) (e : Call ι α) :
    Decidable ((machine ι α).allowed s e) :=
  inferInstanceAs (Decidable (allowed s e))

/-- Blocks by number, in the order they were made. `owner` has the live objects, with the
block each answers for; `history` has what was put into which block at which position,
latest first; `freed` the blocks given back, latest first. -/
structure Ledger (ι α : Type) where
  made : Nat
  owner : ι → Option (Option Nat)
  history : List ((Nat × Nat) × α)
  freed : List Nat

namespace Ledger

def start : Ledger ι α := { made := 0, owner := fun _ => none, history := [], freed := [] }

def block (l : Ledger ι α) (x : ι) : Option Nat := (l.owner x).join

/-- The element put last at a position of the block that an object answers for. -/
def latest (l : Ledger ι α) (x : ι) (i : Nat) : Option α :=
  (l.block x).bind fun n => l.history.lookup (n, i)

variable [DecidableEq ι]

def handOver (l : Ledger ι α) (this other : ι) : ι → Option (Option Nat) :=
  Function.update (Function.update l.owner this (l.owner other)) other (some none)

def next (l : Ledger ι α) : Call ι α → Ledger ι α × Option α
  | .construct this n _ fresh => ({ l with
      made := l.made + 1
      owner := Function.update l.owner this (some (some l.made))
      history := (List.range n).map (fun i => ((l.made, i), fresh i)) ++ l.history }, none)
  | .moveConstruct this other => ({ l with owner := l.handOver this other }, none)
  | .moveAssign this other => ({ l with
      owner := l.handOver this other
      freed := (l.block this).toList ++ l.freed }, none)
  | .write this i x => ({ l with
      history := (l.block this).toList.map (fun n => ((n, i), x)) ++ l.history }, none)
  | .read this i => (l, l.latest this i)
  | .destroy this => ({ l with
      owner := Function.update l.owner this none
      freed := (l.block this).toList ++ l.freed }, none)

end Ledger

def owners (view : ι → Option (Option (Entry (List α)))) (x : ι) : Option (Option Nat) :=
  (view x).map (Option.map Entry.issue)

def Recorded (view : ι → Option (Option (Entry (List α)))) (history : List ((Nat × Nat) × α)) :
    Prop :=
  ∀ x e i v, view x = some (some e) → e.contents[i]? = some v → history.lookup (e.issue, i) = some v

structure Tracks (s : Blocks ι α) (l : Ledger ι α) : Prop where
  sound : Sound s
  made : l.made = s.mem.issued
  owner : l.owner = owners s.view
  freed : l.freed = freed s
  recorded : Recorded s.view l.history

theorem tracks_start : Tracks (Blocks.start : Blocks ι α) Ledger.start where
  sound := sound_start
  made := rfl
  owner := rfl
  freed := rfl
  recorded := by simp [Recorded, view, Blocks.start]

theorem Tracks.block {s : Blocks ι α} {l : Ledger ι α} (tracks : Tracks s l) (x : ι) :
    l.block x = (s.view x).join.map Entry.issue := by
  rw [Ledger.block, tracks.owner, owners]
  cases s.view x <;> rfl

theorem Tracks.gone {s : Blocks ι α} {l : Ledger ι α} (tracks : Tracks s l) (x : ι) :
    (l.block x).toList = issues (s.view x).join :=
  congrArg Option.toList (tracks.block x)

theorem Tracks.becomes {s t : Blocks ι α} {l : Ledger ι α} (tracks : Tracks s l)
    {after : ι → Option (Option (Entry (List α)))} {born : Nat} {gone : List Nat}
    (becomes : Becomes s t after born gone) {owner : ι → Option (Option Nat)}
    {history : List ((Nat × Nat) × α)} (owned : owner = owners after)
    (recorded : Recorded after history) :
    Tracks t { made := l.made + born, owner, history, freed := gone ++ l.freed } where
  sound := becomes.sound
  made := by rw [becomes.issued, tracks.made]
  owner := by rw [becomes.view, owned]
  freed := by rw [becomes.freed, tracks.freed]
  recorded := becomes.view ▸ recorded

theorem lookup_other {k l : Nat × Nat} (differs : k ≠ l) (x : α)
    (history : List ((Nat × Nat) × α)) :
    List.lookup k ((l, x) :: history) = history.lookup k := by
  rw [List.lookup_cons, beq_eq_false_iff_ne.mpr differs]

theorem lookup_born (block k n i : Nat) (fresh : Nat → α) :
    ((List.range n).map fun i => ((block, i), fresh i)).lookup (k, i) =
      if k = block ∧ i < n then some (fresh i) else none := by
  induction n with
  | zero => simp
  | succ n ih =>
    rw [List.range_succ, List.map_append, List.lookup_append, ih]
    by_cases here : (k, i) = (block, n)
    · cases here
      simp
    · have beyond : k = block ∧ i < n + 1 ↔ k = block ∧ i < n := by
        rw [Prod.mk.injEq] at here
        omega
      rw [List.map_singleton, lookup_other here, if_congr beyond rfl rfl, List.lookup_nil,
        Option.or_none]

variable [DecidableEq ι]

theorem owners_update (view : ι → Option (Option (Entry (List α)))) (x : ι)
    (shown : Option (Option (Entry (List α)))) :
    owners (Function.update view x shown) =
      Function.update (owners view) x (shown.map (Option.map Entry.issue)) := by
  funext y
  by_cases same : y = x
  · subst same; simp [owners]
  · simp [owners, same]

theorem Tracks.handOver {s : Blocks ι α} {l : Ledger ι α} (tracks : Tracks s l) (this other : ι) :
    l.handOver this other = owners
      (Function.update (Function.update s.view this (s.view other)) other (some none)) := by
  rw [owners_update, owners_update, Ledger.handOver, tracks.owner]
  rfl

theorem Recorded.move {view : ι → Option (Option (Entry (List α)))}
    {history : List ((Nat × Nat) × α)} (recorded : Recorded view history) (this other : ι) :
    Recorded (Function.update (Function.update view this (view other)) other (some none))
      history := by
  intro x e i v shown
  rcases Table.update_eq_some.mp shown with ⟨-, impossible⟩ | ⟨-, shown⟩
  · cases impossible
  · rcases Table.update_eq_some.mp shown with ⟨-, moved⟩ | ⟨-, kept⟩
    · exact recorded other e i v moved
    · exact recorded x e i v kept

theorem Recorded.destroyed {view : ι → Option (Option (Entry (List α)))}
    {history : List ((Nat × Nat) × α)} (recorded : Recorded view history) (this : ι) :
    Recorded (Function.update view this none) history := by
  intro x e i v shown
  rcases Table.update_eq_some.mp shown with ⟨-, impossible⟩ | ⟨-, kept⟩
  · cases impossible
  · exact recorded x e i v kept

theorem Tracks.born {s : Blocks ι α} {l : Ledger ι α} (tracks : Tracks s l) (this : ι) (n : Nat)
    (fresh : Nat → α) :
    Recorded (Function.update s.view this (some (some ⟨s.mem.issued, (List.range n).map fresh⟩)))
      ((List.range n).map (fun i => ((l.made, i), fresh i)) ++ l.history) := by
  intro x e i v shown there
  rw [List.lookup_append, lookup_born, tracks.made]
  rcases Table.update_eq_some.mp shown with ⟨-, new⟩ | ⟨-, old⟩
  · cases new
    obtain ⟨j, counted, rfl⟩ : ∃ j, (List.range n)[i]? = some j ∧ fresh j = v := by
      simpa using there
    obtain ⟨within, rfl⟩ := List.getElem?_eq_some_iff.mp counted
    have below : i < n := by simpa using within
    simp [below]
  · have older := issue_lt old
    rw [if_neg (by omega)]
    simpa using tracks.recorded x e i v old there

theorem Tracks.written {s : Blocks ι α} {l : Ledger ι α} (tracks : Tracks s l) {this : ι} {i : Nat}
    {e : Entry (List α)} (viewed : s.view this = some (some e)) (within : i < e.contents.length)
    (x : α) :
    Recorded (Function.update s.view this (some (some ⟨e.issue, e.contents.set i x⟩)))
      (((e.issue, i), x) :: l.history) := by
  intro y f j v shown there
  rcases Table.update_eq_some.mp shown with ⟨-, new⟩ | ⟨differs, old⟩
  · cases new
    by_cases here : j = i
    · subst here
      simpa [within] using there
    · rw [List.getElem?_set_ne (Ne.symm here)] at there
      rw [lookup_other (by simpa using here)]
      exact tracks.recorded this e j v viewed there
  · have blocks : f.issue ≠ e.issue := fun same =>
      differs (tracks.sound.issue_injective old viewed same)
    rw [lookup_other (by simp [blocks])]
    exact tracks.recorded y f j v old there

theorem construct_becomes {s : Blocks ι α} (sound : Sound s) {this : ι} (n : Nat) {addr : Nat}
    (fresh : Nat → α) (unborn : s.objs this = none) (vacant : s.mem.lookup addr = none) :
    ∃ t, construct s this n addr fresh = .ok t ∧ Becomes s t
      (Function.update s.view this (some (some ⟨s.mem.issued, (List.range n).map fresh⟩))) 1 [] := by
  obtain ⟨mem, acquired, becomes⟩ :=
    becomes_new sound (own_none unborn) ((List.range n).map fresh) vacant
  refine ⟨_, ?_, becomes⟩
  have empty : (s.set this { data := none, size := 0 }).objs this =
      some { data := none, size := 0 } := by simp
  have sized : (s.set this { data := none, size := n }).objs this =
      some { data := none, size := n } := by simp
  rw [construct, setSize_ok empty, ok_bind, set_set, newData_ok sized acquired,
    set_mem_set, List.length_map, List.length_range]

theorem step_refines : (machine ι α).Refines Ledger.next Tracks := by
  intro s l e tracks may
  have sound := tracks.sound
  cases e with
  | construct this n addr fresh =>
    have vacant : s.mem.lookup addr = none := by simpa [Table.Live] using may.2
    obtain ⟨t, made, becomes⟩ := construct_becomes sound n fresh may.1 vacant
    refine ⟨t, by simp [machine, step, made, Ledger.next],
      tracks.becomes becomes ?_ (tracks.born this n fresh)⟩
    rw [owners_update, ← tracks.owner, tracks.made]
    rfl
  | moveConstruct this other =>
    obtain ⟨src, source⟩ := Option.isSome_iff_exists.mp may.2
    obtain ⟨t, moved, becomes⟩ := becomes_moveConstructed sound may.1 source
    exact ⟨t, by simp [machine, step, moveConstruct, moved, Ledger.next],
      tracks.becomes becomes (tracks.handOver this other) (tracks.recorded.move this other)⟩
  | moveAssign this other =>
    obtain ⟨h, live⟩ := Option.isSome_iff_exists.mp may.1
    obtain ⟨src, source⟩ := Option.isSome_iff_exists.mp may.2
    obtain ⟨t, moved, becomes⟩ := becomes_moveAssigned sound live source
    refine ⟨t, by simp [machine, step, moveAssign, moved, Ledger.next], ?_⟩
    rw [← tracks.gone] at becomes
    exact tracks.becomes becomes (tracks.handOver this other) (tracks.recorded.move this other)
  | write this i x =>
    obtain ⟨h, live, inside⟩ := may
    obtain ⟨t, e, written, viewed, within, becomes⟩ := becomes_written sound live inside x
    refine ⟨t, by simp [machine, step, written, Ledger.next], ?_⟩
    have block : l.block this = some e.issue := by simp [tracks.block, viewed]
    refine tracks.becomes becomes ?_ ?_
    · have same : owners s.view this = some (some e.issue) := by simp [owners, viewed]
      rw [owners_update, tracks.owner, Option.map_some, Option.map_some, ← same,
        Function.update_eq_self]
    · rw [block]
      exact tracks.written viewed within x
  | read this i =>
    obtain ⟨h, live, inside⟩ := may
    obtain ⟨e, x, viewed, there, reads⟩ := read_ok sound live inside
    have latest : l.latest this i = some x := by
      simp [Ledger.latest, tracks.block, viewed, tracks.recorded this e i x viewed there]
    exact ⟨s, by simp [machine, step, reads, Ledger.next, latest], tracks⟩
  | destroy this =>
    obtain ⟨h, live⟩ := Option.isSome_iff_exists.mp may
    obtain ⟨t, gone, becomes⟩ := becomes_destroyed sound live
    refine ⟨t.bury this, by simp [machine, step, destroy, gone, Ledger.next], ?_⟩
    rw [← tracks.gone] at becomes
    refine tracks.becomes becomes ?_ (tracks.recorded.destroyed this)
    rw [owners_update, tracks.owner]
    rfl

/-- What holds between calls, `l` being the ledger of the run. `calls` says that no call
faults, `overwritten` that a move assignment gives back the block it overwrites; since
`freed` never lists a block twice, nothing gives it back again. -/
structure Carried (s : Blocks ι α) (l : Ledger ι α) : Prop where
  calls : ∀ e, allowed s e → ∃ t v, step s e = .ok (t, v)
  one_owner : ∀ x y g h, s.objs x = some g → s.objs y = some h → g.data ≠ none →
    g.data = h.data → x = y
  owner : ∀ x h, s.objs x = some h → l.owner x = some (h.data.bind s.mem.issueOf)
  elements : ∀ x h i, s.objs x = some h → i < h.size →
    ∃ v, s.read x i = .ok v ∧ l.latest x i = some v
  emptied : ∀ x, l.owner x = some none → s.objs x = some { data := none, size := 0 }
  freed : l.freed = freed s ∧ l.freed.Nodup
  overwritten : ∀ this other h p, allowed s (.moveAssign this other) → s.objs this = some h →
    h.data = some p → ∃ t v n, step s (.moveAssign this other) = .ok (t, v) ∧
      s.mem.issueOf p = some n ∧ Blocks.freed t = n :: Blocks.freed s
  allFreed : (∀ x, s.objs x = none) → l.freed.Perm (List.range s.mem.issued)

theorem Tracks.carried {s : Blocks ι α} {l : Ledger ι α} (tracks : Tracks s l) : Carried s l := by
  have sound := tracks.sound
  have issue : ∀ h : Handle, (h.data.bind s.mem.entry).map Entry.issue = h.data.bind s.mem.issueOf := by
    intro h
    cases h.data <;> rfl
  constructor
  · intro e may
    obtain ⟨t, done, -⟩ := step_refines s l e tracks may
    exact ⟨t, _, done⟩
  · exact fun x y g h => sound.alone
  · intro x h live
    rw [tracks.owner, owners, view_some live, Option.map_some, issue]
  · intro x h i live inside
    obtain ⟨e, v, viewed, there, reads⟩ := read_ok sound live inside
    refine ⟨v, reads, ?_⟩
    simp [Ledger.latest, tracks.block, viewed, tracks.recorded x e i v viewed there]
  · intro x moved
    rw [tracks.owner, owners] at moved
    obtain ⟨block, viewed, none_left⟩ := Option.map_eq_some_iff.mp moved
    obtain ⟨h, live, -⟩ := Option.map_eq_some_iff.mp viewed
    rcases sound.cases live with ⟨data, size, -⟩ | ⟨p, e, -, -, -, held⟩
    · rw [live, ← data, ← size]
    · rw [held] at viewed
      cases viewed
      cases none_left
  · exact ⟨tracks.freed, tracks.freed ▸ s.mem.released_nodup⟩
  · intro this other h p may live data
    obtain ⟨src, source⟩ := Option.isSome_iff_exists.mp may.2
    obtain ⟨t, moved, becomes⟩ := becomes_moveAssigned sound live source
    rcases sound.cases live with ⟨null, -, -⟩ | ⟨q, e, held, found, -, viewed⟩
    · cases null.symm.trans data
    · cases held.symm.trans data
      refine ⟨t, none, e.issue, by simp [step, moveAssign, moved], by simp [Table.issueOf, found], ?_⟩
      rw [becomes.freed, viewed]
      rfl
  · intro dead
    rw [tracks.freed]
    exact sound.all_freed dead

end Syseng.ModernCpp.UniqueBuffer
