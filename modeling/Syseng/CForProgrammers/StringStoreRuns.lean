import Syseng.CForProgrammers.StringStore

/-! The memory under the texts: no call on it faults, or does anything else than the call on the texts. -/

namespace Syseng.CForProgrammers.Strings
open Support

/-- The block is there with its bytes, and begins with its text. -/
structure Backs (mem : Bytes) (k : Nat) (b : Buffer) : Prop where
  live : mem.blocks.Live k
  room : mem.Room (start k) b.room
  text : ∀ a ∈ b.text, Holds mem (start k) a

/-- There are these blocks and no others. -/
structure Represents (mem : Bytes) (st : Store) : Prop where
  backs : ∀ k b, st k = some b → Backs mem k b
  vacant : ∀ k, st k = none → mem.blocks.lookup k = none

section Backs
variable {mem u : Bytes} {k i : Nat} {b c : Buffer} {t before : CString}

theorem Backs.frame (backs : Backs mem k b) (same : ∀ p, p.block = some k → u.cell p = mem.cell p)
    (live : u.blocks.Live k) : Backs u k b where
  live := live
  room i inside := by
    rw [same _ rfl]
    exact backs.room i inside
  text a here := Memory.Stores.frame (backs.text a here) fun q covers => same q covers.1

theorem Backs.textAt (backs : Backs mem k b) (found : b.textAt i = some t) :
    Holds mem ((start k).plus i) t := by
  obtain ⟨a, here, rest⟩ := Option.bind_eq_some_iff.mp found
  split at rest
  · next inside =>
    cases rest
    have whole := backs.text a here
    rw [← a.take_append_drop i, holds_append, CString.length_take inside] at whole
    exact whole.2
  · cases rest

theorem Backs.front (backs : Backs mem k b) (found : b.front i = some before) :
    mem.Stores (start k) before.bytes ∧ before.bytes.length = i := by
  unfold Buffer.front at found
  split at found
  · next first =>
    cases found
    exact ⟨trivial, first.symm⟩
  · obtain ⟨a, here, rest⟩ := Option.bind_eq_some_iff.mp found
    split at rest
    · next inside =>
      cases rest
      have whole := backs.text a here
      rw [← a.take_append_drop i, holds_append] at whole
      exact ⟨whole.1, CString.length_take inside⟩
    · cases rest

theorem put_eq_some (put : b.put i t = some c) :
    ∃ front, b.front i = some front ∧ c.text = some (front.append t) ∧ c.room = b.room ∧
      (front.append t).bytes.length < b.room := by
  obtain ⟨front, found, rest⟩ := Option.bind_eq_some_iff.mp put
  split at rest
  · next fits =>
    cases rest
    exact ⟨front, found, rfl, rfl, fits.1⟩
  · cases rest

theorem Backs.space (backs : Backs mem k b) (put : b.put i t = some c) :
    mem.Room ((start k).plus i) (t.bytes.length + 1) := by
  obtain ⟨front, found, -, -, fits⟩ := put_eq_some put
  have length := (backs.front found).2
  rw [CString.length_append] at fits
  exact backs.room.part (by omega)

theorem Backs.put {R : CharPtr → Prop} (backs : Backs mem k b) (put : b.put i t = some c)
    (holds : Holds u ((start k).plus i) t)
    (touches : mem.Touches u R (((start k).plus i).Covers (t.bytes.length + 1))) : Backs u k c := by
  obtain ⟨front, found, text, room, -⟩ := put_eq_some put
  obtain ⟨stores, length⟩ := backs.front found
  constructor
  · exact (touches.live k).mpr backs.live
  · rw [room, touches.room]
    exact backs.room
  · rw [text]
    rintro a ⟨⟩
    rw [holds_append, length]
    refine ⟨touches.stores stores fun q covers => ?_, holds⟩
    rw [length] at covers
    exact covers.not_later

end Backs

section Represents
variable {mem u : Bytes} {st after : Store} {p : Place} {t : CString} {R : CharPtr → Prop}

theorem Represents.textAt (represents : Represents mem st) (found : st.textAt p = some t) :
    Holds mem p.pointer t ∧ t.bytes.length < 2 ^ 63 := by
  obtain ⟨b, there, here⟩ := Option.bind_eq_some_iff.mp found
  have holds := (represents.backs _ b there).textAt here
  rw [p.pointer_eq]
  refine ⟨holds, ?_⟩
  obtain ⟨a, text, rest⟩ := Option.bind_eq_some_iff.mp here
  have fits := b.fits a text
  have limit := b.limit
  split at rest
  · cases rest
    have shorter : (a.drop p.offset).bytes.length ≤ a.bytes.length := List.drop_sublist .. |>.length_le
    omega
  · cases rest

theorem Represents.looked (represents : Represents mem st) (touches : mem.Touches u R fun _ => False) :
    Represents u st where
  backs k b there := by
    have backs := represents.backs k b there
    exact backs.frame (fun p _ => touches.frame p id) ((touches.live k).mpr backs.live)
  vacant k none_ := touches.vacant (represents.vacant k none_)

theorem Represents.update {k : Nat} {c : Option Buffer} (represents : Represents mem st)
    (same : ∀ p, p.block ≠ some k → u.cell p = mem.cell p)
    (live : ∀ l, l ≠ k → (u.blocks.Live l ↔ mem.blocks.Live l)) (backs : ∀ b, c = some b → Backs u k b)
    (vacant : c = none → u.blocks.lookup k = none) : Represents u (Function.update st k c) := by
  constructor
  · intro l b found
    rcases Table.update_eq_some.mp found with ⟨rfl, here⟩ | ⟨other, there⟩
    · exact backs b here
    · have old := represents.backs l b there
      apply old.frame _ ((live l other).mpr old.live)
      intro p block
      apply same
      intro here
      exact other (Option.some.inj (block.symm.trans here))
  · intro l gone
    by_cases here : l = k
    · subst here
      rw [Function.update_self] at gone
      exact vacant gone
    · rw [Function.update_of_ne here] at gone
      have none_ := represents.vacant l gone
      have dead := live l here
      simpa [Table.Live, none_] using dead

theorem put_eq_update (put : st.put p t = some after) :
    ∃ b c, st p.block = some b ∧ b.put p.offset t = some c ∧
      after = Function.update st p.block (some c) := by
  obtain ⟨b, there, rest⟩ := Option.bind_eq_some_iff.mp put
  obtain ⟨c, done, rest⟩ := Option.bind_eq_some_iff.mp rest
  cases rest
  exact ⟨b, c, there, done, rfl⟩

theorem Represents.space (represents : Represents mem st) (put : st.put p t = some after) :
    mem.Room p.pointer (t.bytes.length + 1) := by
  obtain ⟨b, c, there, done, -⟩ := put_eq_update put
  rw [p.pointer_eq]
  exact (represents.backs _ b there).space done

theorem Represents.put (represents : Represents mem st) (put : st.put p t = some after)
    (holds : Holds u p.pointer t) (touches : mem.Touches u R (p.pointer.Covers (t.bytes.length + 1))) :
    Represents u after := by
  obtain ⟨b, c, there, done, rfl⟩ := put_eq_update put
  rw [p.pointer_eq] at holds touches
  apply represents.update
  · intro q other
    apply touches.frame
    intro covers
    exact other covers.1
  · exact fun l _ => touches.live l
  · rintro d ⟨⟩
    exact (represents.backs _ b there).put done holds touches
  · nofun

theorem make_eq_update {m : Malloc} (made : st.make m t = some after) :
    st m.addr = none ∧ ∃ small, after = Function.update st m.addr (some (.ofText t small)) := by
  unfold Store.make at made
  split at made
  · next small =>
    split at made
    · next fresh =>
      cases made
      exact ⟨Option.isNone_iff_eq_none.mp fresh, small, rfl⟩
    · cases made
  · cases made

theorem Holds.live {k : Nat} (holds : Holds mem (start k) t) : mem.blocks.Live k := by
  obtain ⟨x, first⟩ := Option.isSome_iff_exists.mp (Memory.room_succ.mp holds.room).1
  obtain ⟨-, l, xs, block, held, -⟩ := Memory.cell_eq_some first
  cases block
  exact Option.isSome_of_eq_some held

theorem backs_ofText {k : Nat} (holds : Holds mem (start k) t) (small : t.bytes.length < 2 ^ 31 - 1) :
    Backs mem k (.ofText t small) where
  live := holds.live
  room := holds.room
  text := by
    rintro a ⟨⟩
    exact holds

theorem Represents.make {m : Malloc} (represents : Represents mem st) (made : st.make m t = some after)
    (placed : Placed mem u m t) : Represents u after := by
  obtain ⟨fresh, small, rfl⟩ := make_eq_update made
  apply represents.update placed.frame placed.others
  · rintro d ⟨⟩
    exact backs_ofText placed.holds small
  · nofun

theorem Represents.free {k : Nat} {b : Buffer} (represents : Represents mem st) (there : st k = some b) :
    ∃ u, mem.free (start k) = .ok u ∧ Represents u (Function.update st k none) ∧
      ∀ p, p.block ≠ some k → u.cell p = mem.cell p := by
  obtain ⟨u, freed, same, changed⟩ := Memory.free_ok (represents.backs k b there).live
  refine ⟨u, freed, represents.update same ?_ ?_ ?_, same⟩
  · intro l other
    rw [Table.Live, changed, Function.update_of_ne other]
  · nofun
  · intro _
    rw [changed, Function.update_self]

end Represents

def Agrees (plain : PlainChar) (mem : Bytes) (call : Call) (after : Store) (v : Value) : Prop :=
  ∃ u, perform plain mem call = .ok (u, v) ∧ Represents u after ∧
    ∀ p, ¬ call.Writes p → u.cell p = mem.cell p

theorem Place.behind_of_covers {s : Place} {n : Nat} {p : CharPtr} (covers : s.pointer.Covers n p) :
    s.Behind p :=
  ⟨covers.1, covers.2.1⟩

section Calls
variable {plain : PlainChar} {mem : Bytes} {st after : Store} {v : Value}

theorem myStrlen_agrees {s : Place} (represents : Represents mem st)
    (did : st.next (.myStrlen s) = some (after, v)) : Agrees plain mem (.myStrlen s) after v := by
  obtain ⟨a, found, rest⟩ := Option.bind_eq_some_iff.mp did
  cases rest
  obtain ⟨holds, far⟩ := represents.textAt found
  obtain ⟨u, n, measured, length, touches⟩ := myStrlen_ok holds far
  have value : n = UInt64.ofNat a.bytes.length := by rw [← length, UInt64.ofNat_toNat]
  exact ⟨u, by simp [perform, measured, value], represents.looked touches, fun p _ => touches.frame p id⟩

theorem myStrcmp_agrees {s t : Place} (represents : Represents mem st)
    (did : st.next (.myStrcmp s t) = some (after, v)) : Agrees plain mem (.myStrcmp s t) after v := by
  obtain ⟨a, foundA, rest⟩ := Option.bind_eq_some_iff.mp did
  obtain ⟨b, foundB, rest⟩ := Option.bind_eq_some_iff.mp rest
  cases rest
  obtain ⟨u, r, compared, value, touches⟩ :=
    myStrcmp_ok plain (represents.textAt foundA).1 (represents.textAt foundB).1
  have back : r = Int32.ofInt (CString.difference a.bytes b.bytes) := by rw [← value, Int32.ofInt_toInt]
  exact ⟨u, by simp [perform, compared, back], represents.looked touches, fun p _ => touches.frame p id⟩

theorem strIsPalindrome_agrees {s : Place} (represents : Represents mem st)
    (did : st.next (.strIsPalindrome s) = some (after, v)) :
    Agrees plain mem (.strIsPalindrome s) after v := by
  obtain ⟨a, found, rest⟩ := Option.bind_eq_some_iff.mp did
  cases rest
  obtain ⟨holds, far⟩ := represents.textAt found
  obtain ⟨w, n, measured, -, looked⟩ := myStrlen_ok holds far
  obtain ⟨w', n', u, again, -, result, touches⟩ := strIsPalindrome_ok plain holds far
  cases measured.symm.trans again
  refine ⟨u, by simp [perform, result], (represents.looked looked).looked touches, fun p _ => ?_⟩
  exact (touches.frame p id).trans (looked.frame p id)

theorem myStrcpy_agrees {d s : Place} (represents : Represents mem st)
    (did : st.next (.myStrcpy d s) = some (after, v)) : Agrees plain mem (.myStrcpy d s) after v := by
  obtain ⟨b, found, rest⟩ := Option.bind_eq_some_iff.mp did
  split at rest
  · next apart =>
    obtain ⟨st', put, rest⟩ := Option.bind_eq_some_iff.mp rest
    cases rest
    have copy := myStrcpy_cases (represents.textAt found).1 apart
    obtain ⟨-, u, copied, held, touches⟩ | ⟨cramped, -⟩ := copy
    · refine ⟨u, by simp [perform, copied], represents.put put held touches, fun p spared => ?_⟩
      exact touches.frame p fun covers => spared (Place.behind_of_covers covers)
    · exact absurd (represents.space put) cramped
  · cases rest

theorem myStrcat_agrees {d s : Place} (represents : Represents mem st)
    (did : st.next (.myStrcat d s) = some (after, v)) : Agrees plain mem (.myStrcat d s) after v := by
  obtain ⟨a, foundA, rest⟩ := Option.bind_eq_some_iff.mp did
  obtain ⟨b, foundB, rest⟩ := Option.bind_eq_some_iff.mp rest
  split at rest
  · next may =>
    obtain ⟨st', put, rest⟩ := Option.bind_eq_some_iff.mp rest
    cases rest
    obtain ⟨u, appended, held, touches⟩ := myStrcat_ok (represents.textAt foundA).1
      (represents.textAt foundB).1 (represents.space put) may.1 may.2
    have inside : ∀ q, (d.pointer.plus a.bytes.length).Covers (b.bytes.length + 1) q →
        d.pointer.Covers ((a.append b).bytes.length + 1) q := by
      intro q covers
      rw [CString.length_append]
      exact covers.mono (by omega)
    have inside' := touches.mono (fun _ => id) inside
    refine ⟨u, by simp [perform, appended], represents.put put held inside', fun p spared => ?_⟩
    exact inside'.frame p fun covers => spared (Place.behind_of_covers covers)
  · cases rest

theorem strReverse_agrees {s : Place} (represents : Represents mem st)
    (did : st.next (.strReverse s) = some (after, v)) : Agrees plain mem (.strReverse s) after v := by
  obtain ⟨a, found, rest⟩ := Option.bind_eq_some_iff.mp did
  obtain ⟨st', put, rest⟩ := Option.bind_eq_some_iff.mp rest
  cases rest
  obtain ⟨holds, far⟩ := represents.textAt found
  obtain ⟨u, done, reversed⟩ := strReverse_ok holds far
  have inside : ∀ q, s.pointer.Covers a.bytes.length q → s.pointer.Covers (a.reverse.bytes.length + 1) q := by
    intro q covers
    rw [CString.length_reverse]
    exact covers.longer (Nat.le_succ _)
  have touches := reversed.touches.mono (fun _ => id) inside
  refine ⟨u, by simp [perform, done], represents.put put reversed.holds touches, fun p spared => ?_⟩
  exact touches.frame p fun covers => spared (Place.behind_of_covers covers)

theorem myStrdup_agrees {s : Place} {got : Malloc} (represents : Represents mem st)
    (did : st.next (.myStrdup s got) = some (after, v)) : Agrees plain mem (.myStrdup s got) after v := by
  obtain ⟨a, found, rest⟩ := Option.bind_eq_some_iff.mp did
  obtain ⟨st', made, rest⟩ := Option.bind_eq_some_iff.mp rest
  cases rest
  obtain ⟨fresh, small, -⟩ := make_eq_update made
  obtain ⟨-, u, copied, placed⟩ | ⟨long, -⟩ :=
    myStrdup_cases (represents.textAt found).1 (represents.vacant _ fresh)
  · exact ⟨u, by simp [perform, copied], represents.make made placed, placed.frame⟩
  · apply absurd _ long
    unfold DupCounts
    omega

theorem strJoin_agrees {s t : Place} {got : Malloc} (represents : Represents mem st)
    (did : st.next (.strJoin s t got) = some (after, v)) : Agrees plain mem (.strJoin s t got) after v := by
  obtain ⟨a, foundA, rest⟩ := Option.bind_eq_some_iff.mp did
  obtain ⟨b, foundB, rest⟩ := Option.bind_eq_some_iff.mp rest
  obtain ⟨st', made, rest⟩ := Option.bind_eq_some_iff.mp rest
  cases rest
  obtain ⟨fresh, small, -⟩ := make_eq_update made
  rw [CString.length_append] at small
  obtain ⟨u, joined, placed⟩ := strJoin_ok (represents.textAt foundA).1 (represents.textAt foundB).1
    (represents.vacant _ fresh) small
  exact ⟨u, by simp [perform, joined], represents.make made placed, placed.frame⟩

theorem free_agrees {k : Nat} (represents : Represents mem st)
    (did : st.next (.free k) = some (after, v)) : Agrees plain mem (.free k) after v := by
  obtain ⟨b, there, rest⟩ := Option.bind_eq_some_iff.mp did
  split at rest
  · cases rest
    obtain ⟨u, freed, kept, same⟩ := represents.free there
    exact ⟨u, by simp [perform, freed], kept, same⟩
  · cases rest

end Calls

instance (st : Store) (call : Call) : Decidable (Store.machine.allowed st call) :=
  inferInstanceAs (Decidable True)

theorem machine_simulates (plain : PlainChar) :
    (machine plain).Simulates Store.machine Represents Memory.cell Call.Writes := by
  intro mem st call after v represents _ stepped
  refine ⟨trivial, ?_⟩
  have did : st.next call = some (after, v) := by
    cases found : st.next call with
    | none => simp [Store.machine, found] at stepped
    | some r =>
      simp only [Store.machine, found, Option.elim, Except.ok.injEq] at stepped
      rw [stepped]
  change Agrees plain mem call after v
  cases call with
  | myStrlen s => exact myStrlen_agrees represents did
  | myStrcpy dst src => exact myStrcpy_agrees represents did
  | myStrcmp a b => exact myStrcmp_agrees represents did
  | myStrcat dst src => exact myStrcat_agrees represents did
  | myStrdup s got => exact myStrdup_agrees represents did
  | strJoin a b got => exact strJoin_agrees represents did
  | strReverse s => exact strReverse_agrees represents did
  | strIsPalindrome s => exact strIsPalindrome_agrees represents did
  | free k => exact free_agrees represents did

/-- Whatever calls can be made on the texts: on the memory they end without a fault and return the same,
the memory is left with the texts and no other block, and no byte is changed that no call was told to
write. -/
theorem texts_agree (plain : PlainChar) {mem : Bytes} {st after : Store} {calls : List Call}
    {vs : List Value} (represents : Represents mem st) (ran : Store.machine.Run st calls vs after) :
    ∃ u, (machine plain).Run mem calls vs u ∧ Represents u after ∧
      ∀ p, (∀ call ∈ calls, ¬ call.Writes p) → u.cell p = mem.cell p :=
  (machine_simulates plain).run ran represents

theorem exists_represents (k : Nat) (t : CString) (small : t.bytes.length < 2 ^ 31 - 1) :
    ∃ mem, Represents mem (Store.ofLiteral k t small) := by
  obtain ⟨mem, stores, vacant⟩ := Memory.exists_stores k t.stored
  have backs : Backs mem k (.ofText t small) := backs_ofText stores small
  refine ⟨mem, fun l b found => ?_, fun l gone => vacant l ?_⟩
  · rcases Table.update_eq_some.mp found with ⟨rfl, ⟨⟩⟩ | ⟨-, ⟨⟩⟩
    exact ⟨backs.live, backs.room, backs.text⟩
  · rintro rfl
    simp [Store.ofLiteral] at gone

def callsOnAb : List Call :=
  [.myStrdup ⟨10, 0⟩ ⟨20, fun _ => 7⟩, .strReverse ⟨20, 0⟩, .myStrcmp ⟨10, 0⟩ ⟨20, 0⟩,
    .strJoin ⟨10, 0⟩ ⟨20, 0⟩ ⟨21, fun _ => 7⟩, .strIsPalindrome ⟨21, 0⟩,
    .myStrcpy ⟨21, 1⟩ ⟨10, 1⟩, .myStrcat ⟨21, 0⟩ ⟨20, 0⟩, .myStrlen ⟨21, 2⟩, .free 20, .free 21]

theorem texts_agree_ab : ∃ (mem : Bytes) (st after : Store) (u : Bytes),
    (machine .signed).Run mem callsOnAb
      [.pointer (start 20), .none, .int (-1), .pointer (start 21), .int 1, .pointer ⟨some 21, 1⟩,
        .pointer (start 21), .size 2, .none, .none] u ∧
    Represents mem st ∧ Represents u after ∧ ∀ i, u.cell ((start 10).plus i) = mem.cell ((start 10).plus i) := by
  obtain ⟨mem, represents⟩ := exists_represents 10 ⟨[97, 98], by decide⟩ (by decide)
  have ran : (Store.machine.exec (.ofLiteral 10 ⟨[97, 98], by decide⟩ (by decide)) callsOnAb).map
      (fun r => ((), r.2)) = some ((), [.pointer (start 20), .none, .int (-1), .pointer (start 21), .int 1,
        .pointer ⟨some 21, 1⟩, .pointer (start 21), .size 2, .none, .none]) := by decide
  obtain ⟨after, run, -⟩ := Machine.exists_run_seen (fun _ => ()) ran
  obtain ⟨u, done, kept, frame⟩ := texts_agree .signed represents run
  refine ⟨mem, _, after, u, done, represents, kept, fun i => frame _ ?_⟩
  simp [callsOnAb, Call.Writes, Place.Behind, start]

end Syseng.CForProgrammers.Strings
