import Syseng.ModernCpp.Buffer

/-! What the calls of `Buffer` do to sound memory: the byte loop, the deep copy under
aliasing, and the copy assignment whose `new` fails. -/

namespace Syseng.ModernCpp.Buffer
open Support Blocks

variable {ι : Type}

theorem take_of_set {α : Type} {xs ys : List α} {n : Nat} {x : α} (copied : ys.take n = xs.take n)
    (there : xs[n]? = some x) (fits : n < ys.length) :
    (ys.set n x).take (n + 1) = xs.take (n + 1) := by
  rw [List.take_add_one, List.take_add_one, List.take_set_of_le (Nat.le_refl n), copied, there,
    List.getElem?_set_self fits]

/-- Once the first `num` bytes agree, the loop makes the rest agree. The invariant holds of a
block copied onto itself as well, so nothing is said about `p ≠ q`. -/
theorem copyLoop_ok {p q num left : Nat} {mem : Table Nat (List UInt8)} {e : Entry (List UInt8)}
    {xs : List UInt8} (target : mem.entry p = some e) (source : mem.lookup q = some xs)
    (length : e.contents.length = xs.length) (rounds : num + left = xs.length)
    (copied : e.contents.take num = xs.take num) :
    ∃ mem', copyLoop mem (some p) (some q) num left = .ok mem' ∧
      mem'.entry = Function.update mem.entry p (some ⟨e.issue, xs⟩) ∧
      mem'.issued = mem.issued ∧ mem'.released = mem.released := by
  induction left generalizing num mem e with
  | zero =>
    have all : e.contents = xs := by
      rwa [List.take_of_length_le (by omega), List.take_of_length_le (by omega)] at copied
    refine ⟨mem, rfl, ?_, rfl, rfl⟩
    rw [← all]
    change mem.entry = Function.update mem.entry p (some e)
    rw [← target, Function.update_eq_self]
  | succ left ih =>
    have inside : num < e.contents.length := by omega
    have there : xs[num]? = some xs[num] := List.getElem?_eq_getElem (by omega)
    have held : mem.lookup p = some e.contents :=
      (Table.lookup_eq_some _ _ _).mpr ⟨e.issue, target⟩
    obtain ⟨next, stored, changed, issued, released⟩ := Table.modify_ok (·.set num xs[num]) held
    obtain ⟨e', target', entries⟩ := Table.entry_modify stored
    cases target.symm.trans target'
    have again : next.lookup q = some xs := by
      by_cases same : q = p
      · subst same
        have one : e.contents = xs := Option.some.inj (held.symm.trans source)
        simp [changed, one]
      · simpa [changed, same] using source
    obtain ⟨mem', looped, final, issued', released'⟩ := ih
      (show next.entry p = some ⟨e.issue, e.contents.set num xs[num]⟩ by simp [entries])
      again (by simpa using length) (by omega) (take_of_set copied there inside)
    refine ⟨mem', ?_, ?_, issued'.trans issued, released'.trans released⟩
    · simp only [copyLoop, Table.load_ok source there, ok_bind, Table.store_ok held inside, stored,
        looped]
    · rw [final, entries, Function.update_idem]

variable [DecidableEq ι]

theorem sized_becomes {s : Buffers ι} (sound : Sound s.toBlocks) {this : ι} {addr : Nat} (size : Nat)
    (unborn : s.objs this = none) (vacant : s.mem.lookup addr = none) :
    ∃ b, sized s this size (some addr) = .ok ({ s with toBlocks := b }, .done) ∧
      Becomes s.toBlocks b (Function.update s.view this
        (some (some ⟨s.mem.issued, List.replicate size 0⟩))) 1 [] := by
  obtain ⟨mem, acquired, becomes⟩ :=
    becomes_new sound (own_none unborn) (List.replicate size 0) vacant
  have empty : (s.set this { data := none, size := 0 }).objs this =
      some { data := none, size := 0 } := by simp
  have made : (({ s.toBlocks with mem } : Blocks ι UInt8).set this ⟨some addr, 0⟩).objs this =
      some ⟨some addr, 0⟩ := by simp
  refine ⟨_, ?_, becomes⟩
  rw [sized, newData_ok empty acquired, ok_bind, set_mem_set, setSize_ok made, set_set,
    List.length_replicate]
  rfl

theorem copyLoop_becomes {b : Blocks ι UInt8} {this other : ι} {cur src : Handle}
    {e : Entry (List UInt8)} (sound : Sound b) (live : b.objs this = some cur)
    (source : b.objs other = some src) (shown : b.view this = some (some e))
    (sizes : cur.size = src.size) :
    ∃ mem, copyLoop b.mem cur.data src.data 0 src.size = .ok mem ∧
      Becomes b { b with mem } (Function.update b.view this
        (some (some ⟨e.issue, contents (b.view other).join⟩))) 0 [] := by
  rcases sound.cases live with ⟨-, -, empty⟩ | ⟨p, _, data, found, size, viewed⟩
  · cases empty.symm.trans shown
  · cases viewed.symm.trans shown
    rcases sound.cases source with ⟨null, zero, empty⟩ | ⟨q, g, pointer, there, bytes, sourceView⟩
    · have nothing : e.contents = [] := List.length_eq_zero_iff.mp (by omega)
      refine ⟨b.mem, by rw [zero]; rfl, ?_⟩
      apply becomes_changed sound live data found _ _ rfl rfl
      · simp [empty, contents, nothing]
      · rw [empty]
        change b.mem.entry = Function.update b.mem.entry p (some ⟨e.issue, []⟩)
        rw [← nothing, ← found, Function.update_eq_self]
    · have length : e.contents.length = g.contents.length := by omega
      obtain ⟨mem, looped, changed, issued, released⟩ := copyLoop_ok found
        (lookup_of_entry there) length (show 0 + src.size = g.contents.length by omega) rfl
      refine ⟨mem, by rw [data, pointer, looped], ?_⟩
      rw [sourceView]
      exact becomes_changed sound live data found length.symm changed issued released

def copied (view : ι → Option (Option (Entry (List UInt8)))) (this other : ι) (size : Nat) :
    List UInt8 :=
  if other = this then List.replicate size 0 else contents (view other).join

theorem reread {b : Blocks ι UInt8} {this other : ι} {h src : Handle}
    (source : b.objs other = some src) (size : other = this → h.size = src.size) :
    ∃ now, (b.set this h).objs other = some now ∧ now.size = src.size := by
  by_cases same : other = this
  · exact ⟨h, by simp [same], size same⟩
  · exact ⟨src, by simpa [same] using source, rfl⟩

/-- `b` is as memory stands once `this` holds no block of its own any more, whatever its
members still say; `view` is what the objects showed before. -/
theorem deepCopy_becomes {b : Blocks ι UInt8} {this other : ι} {cur src : Handle} {addr : Nat}
    {view : ι → Option (Option (Entry (List UInt8)))}
    (sound : Sound (b.set this { data := none, size := 0 }))
    (emptied : (b.set this { data := none, size := 0 }).view = Function.update view this (some none))
    (live : b.objs this = some cur) (source : b.objs other = some src)
    (vacant : b.mem.lookup addr = none) :
    ∃ t, deepCopy b this other addr = .ok t ∧
      Becomes (b.set this { data := none, size := 0 }) t (Function.update view this
        (some (some ⟨b.mem.issued, copied view this other src.size⟩))) 1 [] := by
  obtain ⟨mem, acquired, made⟩ :=
    becomes_new sound (own_nulled b this) (List.replicate src.size 0) vacant
  rw [set_mem_set, List.length_replicate, emptied, Function.update_idem] at made
  have there : ({ b with mem } : Blocks ι UInt8).objs other = some src := source
  obtain ⟨again, sourceAgain, sizeAgain⟩ := reread (h := { cur with data := some addr }) there
    (fun same => by rw [same, live] at source; cases source; rfl)
  obtain ⟨last, sourceLast, sizeLast⟩ :=
    reread (h := { data := some addr, size := src.size }) there (fun _ => rfl)
  have shown : (({ b with mem } : Blocks ι UInt8).set this ⟨some addr, src.size⟩).view this =
      some (some ⟨b.mem.issued, List.replicate src.size 0⟩) := by
    simp [made.view]
  have here : (({ b with mem } : Blocks ι UInt8).set this ⟨some addr, src.size⟩).objs this =
      some ⟨some addr, src.size⟩ := by
    simp
  obtain ⟨mem', looped, filled⟩ :=
    copyLoop_becomes made.sound here sourceLast shown sizeLast.symm
  refine ⟨({ b with mem := mem' } : Blocks ι UInt8).set this ⟨some addr, src.size⟩, ?_, ?_⟩
  · have now : (({ b with mem } : Blocks ι UInt8).set this { cur with data := some addr }).objs this =
        some { cur with data := some addr } := by simp
    rw [deepCopy, object_some source, ok_bind, newData_ok live acquired, ok_bind,
      object_some sourceAgain, ok_bind, setSize_ok now, ok_bind, sizeAgain, set_set,
      object_some here, ok_bind, object_some sourceLast, ok_bind, looped, ok_bind]
    rfl
  · have both := made.trans filled
    have bytes : contents ((({ b with mem } : Blocks ι UInt8).set this
        ⟨some addr, src.size⟩).view other).join = copied view this other src.size := by
      by_cases same : other = this
      · simp [same, shown, copied, contents]
      · simp [made.view, same, copied]
    rw [bytes, made.view, Function.update_idem] at both
    exact both

theorem vacant_after {b : Blocks ι UInt8} {this : ι} {addr : Nat} {mem : Table Nat (List UInt8)}
    (sound : Sound b) (emptied : Sound (({ b with mem } : Blocks ι UInt8).set this ⟨none, 0⟩))
    (free : b.mem.Live addr → addr ∈ own b this) : mem.lookup addr = none := by
  have dead : ¬ mem.Live addr := by
    intro live
    obtain ⟨y, member⟩ := (emptied.owns.live_iff addr).mp live
    rw [own_set] at member
    by_cases same : y = this
    · subst same
      simp at member
    · rw [Function.update_of_ne same] at member
      exact same (sound.owns.apart member (free ((sound.owns.live_iff addr).mpr ⟨y, member⟩)))
  simpa [Table.Live] using dead

theorem copyAssign_becomes {s : Buffers ι} {this other : ι} {cur src : Handle} {addr : Nat}
    (sound : Sound s.toBlocks) (live : s.objs this = some cur) (source : s.objs other = some src)
    (free : s.mem.Live addr → addr ∈ own s.toBlocks this) :
    ∃ b, copyAssign s this other (some addr) =
        .ok ({ s with toBlocks := b, sCopies := s.sCopies + 1 }, .done) ∧
      Becomes s.toBlocks b (Function.update s.view this
        (some (some ⟨s.mem.issued, copied s.view this other src.size⟩))) 1
        (issues (s.view this).join) := by
  obtain ⟨mem, dropped, emptied⟩ := becomes_deleted sound live
  obtain ⟨b, done, copy⟩ := deepCopy_becomes emptied.sound emptied.view
    (b := { s.toBlocks with mem }) live source (vacant_after sound emptied.sound free)
  have same : mem.issued = s.mem.issued := emptied.issued
  refine ⟨b, ?_, ?_⟩
  · simp [copyAssign, deleteData, object_some live, dropped, done]
  · have both := emptied.trans copy
    rw [same] at both
    exact both

theorem copyConstruct_becomes {s : Buffers ι} {this other : ι} {src : Handle} {addr : Nat}
    (sound : Sound s.toBlocks) (unborn : s.objs this = none) (source : s.objs other = some src)
    (vacant : s.mem.lookup addr = none) :
    ∃ b, copyConstruct s this other (some addr) =
        .ok ({ s with toBlocks := b, sCopies := s.sCopies + 1 }, .done) ∧
      Becomes s.toBlocks b (Function.update s.view this
        (some (some ⟨s.mem.issued, contents (s.view other).join⟩))) 1 [] := by
  have distinct : other ≠ this := by
    rintro rfl
    simp [unborn] at source
  have nulled := becomes_nulled sound (own_none unborn)
  rw [← set_set s.toBlocks this { data := none, size := 0 }] at nulled
  have here : (s.set this { data := none, size := 0 }).objs this =
      some { data := none, size := 0 } := by simp
  have there : (s.set this { data := none, size := 0 }).objs other = some src := by
    simpa [distinct] using source
  obtain ⟨b, done, copy⟩ := deepCopy_becomes nulled.sound nulled.view here there vacant
  refine ⟨b, by simp [copyConstruct, done], ?_⟩
  have both := nulled.trans copy
  simpa [copied, distinct] using both

theorem copyAssign_failed {s : Buffers ι} {this : ι} {cur : Handle} (sound : Sound s.toBlocks)
    (live : s.objs this = some cur) (other : ι) :
    ∃ mem, copyAssign s this other none = .ok ({ s with mem }, .threw) ∧
      (cur.data = none → mem = s.mem) ∧ ∀ p, cur.data = some p → mem.lookup p = none := by
  rcases sound.cases live with ⟨null, -, -⟩ | ⟨p, e, data, found, -, -⟩
  · exact ⟨s.mem, by simp [copyAssign, deleteData, object_some live, null], fun _ => rfl,
      by simp [null]⟩
  · obtain ⟨mem, _, dropped, changed, -, -⟩ := Table.free_ok (lookup_of_entry found)
    refine ⟨mem, by simp [copyAssign, deleteData, object_some live, data, dropped], by simp [data], ?_⟩
    intro q same
    cases data.symm.trans same
    simp [changed]

end Syseng.ModernCpp.Buffer
