import Syseng.Support.Machine
import Syseng.Support.Ownership
import Syseng.Support.Pointer

/-! What `UniqueBuffer` and `Buffer` have in common: objects with the members `data_`
and `size_` over one heap of blocks made by `new[]`, with the steal that their moves
share and the `delete[]` that their moves and destructors share. -/

namespace Syseng.ModernCpp
open Support

/-- The members `data_` and `size_`; `none` is the null pointer. -/
structure Handle where
  data : Option Nat
  size : Nat
  deriving DecidableEq, Repr

structure Blocks (ι α : Type) where
  mem : Table Nat (List α)
  objs : ι → Option Handle

namespace Blocks
variable {ι α : Type}

def start : Blocks ι α := { mem := .empty, objs := fun _ => none }

def object (s : Blocks ι α) (x : ι) : Except Fault Handle :=
  match s.objs x with
  | some h => .ok h
  | none => .error .deadObject

def read (s : Blocks ι α) (this : ι) (i : Nat) : Except Fault α := do
  let cur ← s.object this
  s.mem.load cur.data i

def write (s : Blocks ι α) (this : ι) (i : Nat) (x : α) : Except Fault (Blocks ι α) := do
  let cur ← s.object this
  let mem ← s.mem.store cur.data i x
  .ok { s with mem }

/-- `delete[] data_`, which leaves the pointer as it is. -/
def deleteData (s : Blocks ι α) (this : ι) : Except Fault (Blocks ι α) := do
  let cur ← s.object this
  let mem ← s.mem.free cur.data
  .ok { s with mem }

variable [DecidableEq ι]

def set (s : Blocks ι α) (x : ι) (h : Handle) : Blocks ι α :=
  { s with objs := Function.update s.objs x (some h) }

def setSize (s : Blocks ι α) (this : ι) (size : Nat) : Except Fault (Blocks ι α) := do
  let cur ← s.object this
  .ok (s.set this { cur with size })

/-- `data_ = new T[..]`, where the new block is at `addr` and first holds `xs`. -/
def newData (s : Blocks ι α) (this : ι) (addr : Nat) (xs : List α) :
    Except Fault (Blocks ι α) := do
  let mem ← s.mem.acquire addr xs
  let cur ← s.object this
  .ok ({ s with mem }.set this { cur with data := some addr })

def steal (s : Blocks ι α) (this other : ι) : Except Fault (Blocks ι α) := do
  let src ← s.object other
  let s := s.set this src
  .ok (s.set other { data := none, size := 0 })

def moveConstruct (s : Blocks ι α) (this other : ι) : Except Fault (Blocks ι α) :=
  (s.set this { data := none, size := 0 }).steal this other

def moveAssign (s : Blocks ι α) (this other : ι) : Except Fault (Blocks ι α) := do
  let s ← s.deleteData this
  s.steal this other

def bury (s : Blocks ι α) (this : ι) : Blocks ι α :=
  { s with objs := Function.update s.objs this none }

end Blocks

namespace Blocks
variable {ι α : Type} {s t : Blocks ι α} {this other : ι} {h src : Handle}

def own (s : Blocks ι α) (x : ι) : List Nat := ((s.objs x).bind Handle.data).toList

def view (s : Blocks ι α) (x : ι) : Option (Option (Entry (List α))) :=
  (s.objs x).map fun h => h.data.bind s.mem.entry

def contents (block : Option (Entry (List α))) : List α := (block.map Entry.contents).getD []

def freed (s : Blocks ι α) : List Nat := s.mem.released.map Prod.snd

def issues (block : Option (Entry (List α))) : List Nat := (block.map Entry.issue).toList

/-- Every block has one owner, and every object the size of its block. -/
structure Sound (s : Blocks ι α) : Prop where
  owns : Owns s.mem (own s)
  sized : ∀ x h, s.objs x = some h → h.size = (contents (h.data.bind s.mem.entry)).length

/-- A call leads from `s` to the sound `t`, which shows its objects as `after`; `born` blocks
are new and `gone` are given back. -/
structure Becomes (s t : Blocks ι α) (after : ι → Option (Option (Entry (List α)))) (born : Nat)
    (gone : List Nat) : Prop where
  sound : Sound t
  view : t.view = after
  issued : t.mem.issued = s.mem.issued + born
  freed : freed t = gone ++ freed s

theorem Becomes.trans {u : Blocks ι α} {after final : ι → Option (Option (Entry (List α)))}
    {born more : Nat} {gone also : List Nat} (first : Becomes s t after born gone)
    (second : Becomes t u final more also) : Becomes s u final (born + more) (also ++ gone) where
  sound := second.sound
  view := second.view
  issued := by rw [second.issued, first.issued, Nat.add_assoc]
  freed := by rw [second.freed, first.freed, List.append_assoc]

theorem object_some (live : s.objs this = some h) : s.object this = .ok h := by
  simp [object, live]

theorem own_some (live : s.objs this = some h) : own s this = h.data.toList := by
  simp [own, live]

theorem own_none (dead : s.objs this = none) : own s this = [] := by
  simp [own, dead]

theorem view_some (live : s.objs this = some h) : s.view this = some (h.data.bind s.mem.entry) := by
  simp [view, live]

theorem view_none (dead : s.objs this = none) : s.view this = none := by
  simp [view, dead]

theorem sound_start : Sound (start : Blocks ι α) where
  owns := Owns.empty
  sized := by simp [start]

theorem Sound.cases (sound : Sound s) (live : s.objs this = some h) :
    h.data = none ∧ h.size = 0 ∧ s.view this = some none ∨
    ∃ p e, h.data = some p ∧ s.mem.entry p = some e ∧ h.size = e.contents.length ∧
      s.view this = some (some e) := by
  have sized := sound.sized this h live
  have viewed := view_some live
  cases data : h.data with
  | none => exact Or.inl ⟨rfl, by simpa [data, contents] using sized, by simpa [data] using viewed⟩
  | some p =>
    have member : p ∈ own s this := by simp [own_some live, data]
    obtain ⟨xs, held⟩ := sound.owns.lookup_of_mem member
    obtain ⟨n, found⟩ := (Table.lookup_eq_some _ _ _).mp held
    refine Or.inr ⟨p, ⟨n, xs⟩, rfl, found, ?_, ?_⟩
    · simpa [data, found, contents] using sized
    · simpa [data, found] using viewed

theorem lookup_of_entry {p : Nat} {e : Entry (List α)} (found : s.mem.entry p = some e) :
    s.mem.lookup p = some e.contents :=
  (Table.lookup_eq_some _ _ _).mpr ⟨e.issue, found⟩

theorem entry_of_not_own {f : Nat → Option (Entry (List α))} {p : Nat} {e : Option (Entry (List α))}
    (changed : f = Function.update s.mem.entry p e) (live : s.objs this = some h)
    (elsewhere : p ∉ own s this) : h.data.bind f = h.data.bind s.mem.entry := by
  cases data : h.data with
  | none => rfl
  | some q =>
    have differs : q ≠ p := by
      rintro rfl
      simp [own_some live, data] at elsewhere
    simp [changed, differs]

theorem Sound.others (sound : Sound s) {p : Nat} (owned : own s this = [p])
    {mem : Table Nat (List α)} {e : Option (Entry (List α))}
    (changed : mem.entry = Function.update s.mem.entry p e) {y : ι} {g : Handle} (differs : y ≠ this)
    (live : s.objs y = some g) : g.data.bind mem.entry = g.data.bind s.mem.entry :=
  entry_of_not_own changed live fun member => differs (sound.owns.apart member (by simp [owned]))

theorem Sound.inside (sound : Sound s) (live : s.objs this = some h) {i : Nat} (inside : i < h.size) :
    ∃ p e, h.data = some p ∧ s.mem.entry p = some e ∧ i < e.contents.length ∧
      s.view this = some (some e) := by
  rcases sound.cases live with ⟨-, zero, -⟩ | ⟨p, e, data, found, sized, viewed⟩
  · omega
  · exact ⟨p, e, data, found, by omega, viewed⟩

theorem Sound.alone (sound : Sound s) {x y : ι} {g h : Handle} (left : s.objs x = some g)
    (right : s.objs y = some h) (block : g.data ≠ none) (same : g.data = h.data) : x = y := by
  obtain ⟨p, data⟩ := Option.ne_none_iff_exists'.mp block
  apply sound.owns.apart (k := p)
  · simp [own_some left, data]
  · simp [own_some right, ← same, data]

theorem Sound.issue_injective (sound : Sound s) {x y : ι} {e f : Entry (List α)}
    (left : s.view x = some (some e)) (right : s.view y = some (some f))
    (same : e.issue = f.issue) : x = y := by
  obtain ⟨g, liveX, heldX⟩ := Option.map_eq_some_iff.mp left
  obtain ⟨h, liveY, heldY⟩ := Option.map_eq_some_iff.mp right
  obtain ⟨p, dataX, foundX⟩ := Option.bind_eq_some_iff.mp heldX
  obtain ⟨q, dataY, foundY⟩ := Option.bind_eq_some_iff.mp heldY
  have pointers : p = q := s.mem.issue_injective foundX foundY same
  apply sound.owns.apart (k := p)
  · simp [own_some liveX, dataX]
  · simp [own_some liveY, dataY, pointers]

theorem issue_lt {x : ι} {e : Entry (List α)} (held : s.view x = some (some e)) :
    e.issue < s.mem.issued := by
  obtain ⟨h, -, bound⟩ := Option.map_eq_some_iff.mp held
  obtain ⟨p, -, found⟩ := Option.bind_eq_some_iff.mp bound
  exact s.mem.issue_lt found

theorem Sound.all_freed (sound : Sound s) (dead : ∀ x, s.objs x = none) :
    (freed s).Perm (List.range s.mem.issued) :=
  sound.owns.released_perm fun x => own_none (dead x)

theorem read_ok (sound : Sound s) (live : s.objs this = some h) {i : Nat} (inside : i < h.size) :
    ∃ e x, s.view this = some (some e) ∧ e.contents[i]? = some x ∧ s.read this i = .ok x := by
  obtain ⟨p, e, data, found, within, viewed⟩ := sound.inside live inside
  have there : e.contents[i]? = some e.contents[i] := List.getElem?_eq_getElem within
  exact ⟨e, e.contents[i], viewed, there,
    by simp [read, object_some live, data, Table.load_ok (lookup_of_entry found) there]⟩

variable [DecidableEq ι]

@[simp] theorem mem_set (s : Blocks ι α) (x : ι) (h : Handle) : (s.set x h).mem = s.mem := rfl

@[simp] theorem mem_bury (s : Blocks ι α) (x : ι) : (s.bury x).mem = s.mem := rfl

@[simp] theorem objs_set (s : Blocks ι α) (x : ι) (h : Handle) :
    (s.set x h).objs = Function.update s.objs x (some h) := rfl

@[simp] theorem objs_bury (s : Blocks ι α) (x : ι) :
    (s.bury x).objs = Function.update s.objs x none := rfl

@[simp] theorem set_set (s : Blocks ι α) (x : ι) (g h : Handle) :
    (s.set x g).set x h = s.set x h := by
  simp [set]

@[simp] theorem bury_set (s : Blocks ι α) (x : ι) (h : Handle) : (s.set x h).bury x = s.bury x := by
  simp [set, bury]

@[simp] theorem set_mem_set (s : Blocks ι α) (x : ι) (g h : Handle) (mem : Table Nat (List α)) :
    ({ s.set x g with mem } : Blocks ι α).set x h = ({ s with mem } : Blocks ι α).set x h := by
  simp [set]

theorem setSize_ok (live : s.objs this = some h) (size : Nat) :
    s.setSize this size = .ok (s.set this { h with size }) := by
  simp [setSize, object_some live]

theorem newData_ok (live : s.objs this = some h) {addr : Nat} {xs : List α}
    {mem : Table Nat (List α)} (acquired : s.mem.acquire addr xs = .ok mem) :
    s.newData this addr xs = .ok (({ s with mem } : Blocks ι α).set this { h with data := some addr }) := by
  simp [newData, acquired, object, live]

theorem own_set (s : Blocks ι α) (x : ι) (h : Handle) :
    own (s.set x h) = Function.update (own s) x h.data.toList := by
  funext y
  by_cases same : y = x
  · subst same; simp [own]
  · simp [own, same]

theorem own_nulled (s : Blocks ι α) (x : ι) : own (s.set x { data := none, size := 0 }) x = [] := by
  simp [own_set]

theorem own_bury (s : Blocks ι α) (x : ι) : own (s.bury x) = Function.update (own s) x [] := by
  funext y
  by_cases same : y = x
  · subst same; simp [own]
  · simp [own, same]

theorem view_set (s : Blocks ι α) (x : ι) (h : Handle) :
    (s.set x h).view = Function.update s.view x (some (h.data.bind s.mem.entry)) := by
  funext y
  by_cases same : y = x
  · subst same; simp [view]
  · simp [view, same]

theorem view_bury (s : Blocks ι α) (x : ι) :
    (s.bury x).view = Function.update s.view x none := by
  funext y
  by_cases same : y = x
  · subst same; simp [view]
  · simp [view, same]

theorem view_changed {mem : Table Nat (List α)} (live : s.objs this = some h)
    (others : ∀ {y g}, y ≠ this → s.objs y = some g →
      g.data.bind mem.entry = g.data.bind s.mem.entry) :
    ({ s with mem } : Blocks ι α).view =
      Function.update s.view this (some (h.data.bind mem.entry)) := by
  funext y
  by_cases same : y = this
  · subst same; simp [view, live]
  · rw [Function.update_of_ne same]
    cases alive : s.objs y with
    | none => simp [view, alive]
    | some g => simp [view, alive, others same alive]

theorem sized_set (sized : ∀ x h, s.objs x = some h → x ≠ this →
      h.size = (contents (h.data.bind s.mem.entry)).length)
    (fits : h.size = (contents (h.data.bind s.mem.entry)).length) :
    ∀ x g, (s.set this h).objs x = some g →
      g.size = (contents (g.data.bind (s.set this h).mem.entry)).length := by
  intro x g live
  rcases Table.update_eq_some.mp live with ⟨-, new⟩ | ⟨differs, old⟩
  · cases new
    exact fits
  · exact sized x g old differs

theorem becomes_new (sound : Sound s) (empty : own s this = []) {addr : Nat} (xs : List α)
    (vacant : s.mem.lookup addr = none) :
    ∃ mem, s.mem.acquire addr xs = .ok mem ∧
      Becomes s ({ s with mem }.set this { data := some addr, size := xs.length })
        (Function.update s.view this (some (some ⟨s.mem.issued, xs⟩))) 1 [] := by
  obtain ⟨mem, acquired, changed, issued, released⟩ := Table.acquire_ok xs vacant
  have entries := Table.entry_acquire acquired
  have others : ∀ {y g}, s.objs y = some g → g.data.bind mem.entry = g.data.bind s.mem.entry :=
    fun live => entry_of_not_own entries live (sound.owns.not_mem_of_vacant vacant _)
  have found : mem.entry addr = some ⟨s.mem.issued, xs⟩ := by simp [entries]
  refine ⟨mem, acquired, ⟨?_, sized_set ?_ ?_⟩, ?_, issued, ?_⟩
  · have owned := sound.owns.acquire vacant (Table.live_acquire changed) this
    rw [empty] at owned
    rw [own_set]
    exact owned
  · intro x g live _
    change g.size = (contents (g.data.bind mem.entry)).length
    rw [others live]
    exact sound.sized x g live
  · change xs.length = (contents (mem.entry addr)).length
    rw [found]
    rfl
  · have same : ({ s with mem } : Blocks ι α).view = s.view := by
      funext y
      cases live : s.objs y with
      | none => simp [view, live]
      | some g => simp [view, live, others live]
    rw [view_set, same]
    exact congrArg (Function.update s.view this ∘ some) found
  · exact congrArg (List.map Prod.snd) released

theorem becomes_nulled (sound : Sound s) (empty : own s this = []) :
    Becomes s (s.set this { data := none, size := 0 })
      (Function.update s.view this (some none)) 0 [] := by
  refine ⟨⟨?_, sized_set (fun x g live _ => sound.sized x g live) rfl⟩, view_set s this _, rfl, rfl⟩
  rw [own_set]
  change Owns s.mem (Function.update (own s) this [])
  rw [← empty, Function.update_eq_self]
  exact sound.owns

/-- After `delete[] data_` the memory is as if the object held the null pointer, until its
members are looked at again. -/
theorem becomes_deleted (sound : Sound s) (live : s.objs this = some h) :
    ∃ mem, s.mem.free h.data = .ok mem ∧
      Becomes s ({ s with mem }.set this { data := none, size := 0 })
        (Function.update s.view this (some none)) 0 (issues (s.view this).join) := by
  rcases sound.cases live with ⟨null, -, viewed⟩ | ⟨p, e, data, found, -, viewed⟩
  · have nothing : own s this = [] := by simp [own_some live, null]
    refine ⟨s.mem, by simp [null], ?_⟩
    rw [viewed]
    exact becomes_nulled sound nothing
  · have owned : own s this = [p] := by simp [own_some live, data]
    obtain ⟨mem, n, dropped, changed, issued, -⟩ := Table.free_ok (lookup_of_entry found)
    obtain ⟨e', found', entries, released⟩ := Table.entry_release dropped
    cases found.symm.trans found'
    refine ⟨mem, by rw [data, dropped], ⟨?_, sized_set ?_ rfl⟩, ?_, issued, ?_⟩
    · rw [own_set]
      exact sound.owns.release (List.Perm.of_eq owned) (Table.live_release changed)
    · intro x g alive differs
      change g.size = (contents (g.data.bind mem.entry)).length
      rw [sound.others owned entries differs alive]
      exact sound.sized x g alive
    · rw [view_set, view_changed live (sound.others owned entries), Function.update_idem]
      rfl
    · simp [viewed, issues, freed, released]

theorem becomes_stolen (sound : Sound s) (empty : own s this = [])
    (source : s.objs other = some src) :
    Becomes s ((s.set this src).set other { data := none, size := 0 })
      (Function.update (Function.update s.view this (s.view other)) other (some none)) 0 [] := by
  refine ⟨⟨?_, sized_set ?_ rfl⟩, ?_, rfl, rfl⟩
  · rw [own_set, own_set, ← own_some source]
    exact sound.owns.transfer this other empty
  · intro x g live _
    exact sized_set (fun x g live _ => sound.sized x g live) (sound.sized other src source) x g live
  · rw [view_set, view_set, view_some source]
    rfl

theorem becomes_buried (sound : Sound s) (empty : own s this = []) :
    Becomes s (s.bury this) (Function.update s.view this none) 0 [] := by
  refine ⟨⟨?_, ?_⟩, view_bury s this, rfl, rfl⟩
  · rw [own_bury, ← empty, Function.update_eq_self]
    exact sound.owns
  · intro x g live
    rcases Table.update_eq_some.mp live with ⟨-, impossible⟩ | ⟨-, old⟩
    · cases impossible
    · exact sound.sized x g old

theorem becomes_moveConstructed (sound : Sound s) (unborn : s.objs this = none)
    (source : s.objs other = some src) :
    ∃ t, s.moveConstruct this other = .ok t ∧ Becomes s t
      (Function.update (Function.update s.view this (s.view other)) other (some none)) 0 [] := by
  have distinct : other ≠ this := by
    rintro rfl
    simp [unborn] at source
  have reads : (s.set this { data := none, size := 0 }).object other = .ok src :=
    object_some (by simpa [distinct] using source)
  refine ⟨(s.set this src).set other { data := none, size := 0 }, ?_,
    becomes_stolen sound (own_none unborn) source⟩
  simp [moveConstruct, steal, reads]

/-- A self move deletes the block, takes the stale pointer over, and then nulls it. -/
theorem becomes_moveAssigned (sound : Sound s) (live : s.objs this = some h)
    (source : s.objs other = some src) :
    ∃ t, s.moveAssign this other = .ok t ∧ Becomes s t
      (Function.update (Function.update s.view this (s.view other)) other (some none)) 0
      (issues (s.view this).join) := by
  obtain ⟨mem, dropped, emptied⟩ := becomes_deleted sound live
  have reads : ({ s with mem } : Blocks ι α).object other = .ok src := object_some source
  refine ⟨({ s with mem }.set this src).set other { data := none, size := 0 }, ?_, ?_⟩
  · simp [moveAssign, deleteData, object_some live, dropped, steal, reads]
  · by_cases same : other = this
    · subst same
      simpa using emptied
    · have there : (({ s with mem }.set this { data := none, size := 0 }) : Blocks ι α).objs other =
          some src := by
        simpa [same] using source
      have moved := emptied.trans (becomes_stolen emptied.sound (own_nulled _ this) there)
      simpa [emptied.view, same] using moved

theorem becomes_destroyed (sound : Sound s) (live : s.objs this = some h) :
    ∃ t, s.deleteData this = .ok t ∧
      Becomes s (t.bury this) (Function.update s.view this none) 0 (issues (s.view this).join) := by
  obtain ⟨mem, dropped, emptied⟩ := becomes_deleted sound live
  refine ⟨{ s with mem }, ?_, ?_⟩
  · simp [deleteData, object_some live, dropped]
  · have buried := emptied.trans (becomes_buried emptied.sound (own_nulled _ this))
    simpa [emptied.view] using buried

theorem becomes_changed (sound : Sound s) (live : s.objs this = some h) {p : Nat}
    {e : Entry (List α)} (data : h.data = some p) (found : s.mem.entry p = some e) {xs : List α}
    (length : xs.length = e.contents.length) {mem : Table Nat (List α)}
    (changed : mem.entry = Function.update s.mem.entry p (some ⟨e.issue, xs⟩))
    (issued : mem.issued = s.mem.issued) (released : mem.released = s.mem.released) :
    Becomes s { s with mem } (Function.update s.view this (some (some ⟨e.issue, xs⟩))) 0 [] := by
  have owned : own s this = [p] := by simp [own_some live, data]
  have here : h.data.bind mem.entry = some ⟨e.issue, xs⟩ := by simp [data, changed]
  refine ⟨⟨?_, ?_⟩, ?_, issued, congrArg (List.map Prod.snd) released⟩
  · exact sound.owns.modify (lookup_of_entry found) (Table.lookup_of_entry_update changed rfl)
  · intro y g alive
    change g.size = (contents (g.data.bind mem.entry)).length
    by_cases same : y = this
    · subst same
      cases live.symm.trans alive
      have sized := sound.sized y h live
      rw [data, Option.bind_some, found] at sized
      rw [here, sized]
      exact length.symm
    · rw [sound.others owned changed same alive]
      exact sound.sized y g alive
  · rw [view_changed live (sound.others owned changed), here]

theorem becomes_written (sound : Sound s) (live : s.objs this = some h) {i : Nat}
    (inside : i < h.size) (x : α) :
    ∃ t e, s.write this i x = .ok t ∧ s.view this = some (some e) ∧ i < e.contents.length ∧
      Becomes s t (Function.update s.view this (some (some ⟨e.issue, e.contents.set i x⟩))) 0 [] := by
  obtain ⟨p, e, data, found, within, viewed⟩ := sound.inside live inside
  have held := lookup_of_entry found
  obtain ⟨mem, stored, -, issued, released⟩ := Table.modify_ok (·.set i x) held
  obtain ⟨e', found', changed⟩ := Table.entry_modify stored
  cases found.symm.trans found'
  refine ⟨{ s with mem }, e, ?_, viewed, within,
    becomes_changed sound live data found (List.length_set ..) changed issued released⟩
  simp [write, object_some live, data, Table.store_ok held within, stored]

end Blocks
end Syseng.ModernCpp
