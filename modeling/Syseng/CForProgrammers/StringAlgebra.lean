import Syseng.CForProgrammers.StringCompare

/-! Concatenation, in place and into new blocks. -/

namespace Syseng.CForProgrammers.Strings
open Support

def Fresh (mem : Bytes) (ms : List Malloc) : Prop :=
  (ms.map Malloc.addr).Nodup ∧ ∀ m ∈ ms, mem.blocks.lookup m.addr = none

theorem Fresh.first {mem : Bytes} {m : Malloc} {ms : List Malloc} (fresh : Fresh mem (m :: ms)) :
    mem.blocks.lookup m.addr = none :=
  fresh.2 m List.mem_cons_self

theorem Fresh.rest {mem u : Bytes} {m : Malloc} {ms : List Malloc} {text : CString}
    (fresh : Fresh mem (m :: ms)) (placed : Placed mem u m text) : Fresh u ms := by
  obtain ⟨distinct, vacant⟩ := fresh
  rw [List.map_cons, List.nodup_cons] at distinct
  refine ⟨distinct.2, fun n member => placed.vacant (vacant n (List.mem_cons_of_mem m member)) ?_⟩
  intro same
  exact distinct.1 (same ▸ List.mem_map_of_mem member)

structure Written (mem u : Bytes) (buf : CharPtr) (text : CString) : Prop where
  holds : Holds u buf text
  frame : ∀ p, ¬ buf.Covers (text.bytes.length + 1) p → u.cell p = mem.cell p

/-- `my_strcpy(buf, a)` and then `my_strcat(buf, b)`. -/
def CopyAppends (mem : Bytes) (buf s t : CharPtr) (text : CString) : Prop :=
  ∃ w u, myStrcpy mem buf s = .ok (w, buf) ∧ myStrcat w buf t = .ok (u, buf) ∧ Written mem u buf text

def JoinMeasures (mem : Bytes) (m : Malloc) (s t : CharPtr) (text : CString) : Prop :=
  ∃ u w x y la lb n, strJoin mem s t (some m) = .ok (u, m.pointer) ∧ Delivered mem u m text ∧
    myStrlen mem s = .ok (w, la) ∧ myStrlen mem t = .ok (x, lb) ∧ myStrlen u m.pointer = .ok (y, n) ∧
    n.toNat = la.toNat + lb.toNat

/-- Three strings are joined both ways, one way after the other, and the results compare equal. -/
def JoinAssociates (plain : PlainChar) (mem : Bytes) (m₁ m₂ m₃ m₄ : Malloc) (s t v : CharPtr)
    (left right : CString) : Prop :=
  ∃ u₁ u₂ u₃ u₄, strJoin mem s t (some m₁) = .ok (u₁, m₁.pointer) ∧
    strJoin u₁ m₁.pointer v (some m₂) = .ok (u₂, m₂.pointer) ∧
    strJoin u₂ t v (some m₃) = .ok (u₃, m₃.pointer) ∧
    strJoin u₃ s m₃.pointer (some m₄) = .ok (u₄, m₄.pointer) ∧
    Compares plain u₄ m₂.pointer left m₄.pointer right 0

theorem copy_appends {mem : Bytes} {s t buf : CharPtr} {a b : CString} (holdsA : Holds mem s a)
    (holdsB : Holds mem t b) (short : a.bytes.length < 2 ^ 31)
    (room : mem.Room buf ((a.append b).bytes.length + 1))
    (apartA : buf.Apart ((a.append b).bytes.length + 1) s (a.bytes.length + 1))
    (apartB : buf.Apart ((a.append b).bytes.length + 1) t (b.bytes.length + 1)) :
    CopyAppends mem buf s t (a.append b) := by
  have total := CString.length_append a b
  obtain ⟨-, w, copied, heldA, first⟩ | ⟨cramped, -⟩ := myStrcpy_cases holdsA (apartA.shorter (by omega))
  · have keptB : Holds w t b := first.stores holdsB fun q covers within =>
      apartB.not_covers (by simpa using covers) (within.longer (by omega))
    obtain ⟨u, appended, held, second⟩ := myStrcat_ok heldA keptB ((first.room _ _).mpr room) apartB short
    refine ⟨w, u, copied, appended, held, fun p outside => ?_⟩
    have before : ¬ buf.Covers (a.bytes.length + 1) p := fun covers => outside (covers.longer (by omega))
    have behind : ¬ (buf.plus a.bytes.length).Covers (b.bytes.length + 1) p := fun covers =>
      outside (covers.mono (by omega))
    rw [second.frame p behind, first.frame p before]
  · exact absurd (room.shorter (by omega)) cramped

theorem join_measures {mem : Bytes} {s t : CharPtr} {a b : CString} {m : Malloc} (holdsA : Holds mem s a)
    (holdsB : Holds mem t b) (vacant : mem.blocks.lookup m.addr = none)
    (short : a.bytes.length + b.bytes.length < 2 ^ 31 - 1) :
    JoinMeasures mem m s t (a.append b) := by
  have total := CString.length_append a b
  obtain ⟨u, joined, placed⟩ := strJoin_ok holdsA holdsB vacant short
  obtain ⟨w, la, measuredA, lengthA, -⟩ := myStrlen_ok holdsA (by omega)
  obtain ⟨x, lb, measuredB, lengthB, -⟩ := myStrlen_ok holdsB (by omega)
  obtain ⟨y, n, measured, length, -⟩ := myStrlen_ok placed.holds (by omega)
  exact ⟨u, w, x, y, la, lb, n, joined, placed.toDelivered, measuredA, measuredB, measured, by omega⟩

theorem join_associates (plain : PlainChar) {mem : Bytes} {s t v : CharPtr} {a b c : CString}
    {m₁ m₂ m₃ m₄ : Malloc} (holdsA : Holds mem s a) (holdsB : Holds mem t b) (holdsC : Holds mem v c)
    (short : a.bytes.length + b.bytes.length + c.bytes.length < 2 ^ 31 - 1)
    (fresh : Fresh mem [m₁, m₂, m₃, m₄]) :
    JoinAssociates plain mem m₁ m₂ m₃ m₄ s t v ((a.append b).append c) (a.append (b.append c)) := by
  have lengthAB := CString.length_append a b
  have lengthBC := CString.length_append b c
  have vacant₁ := fresh.first
  obtain ⟨u₁, joined₁, placed₁⟩ := strJoin_ok holdsA holdsB vacant₁ (by omega)
  have fresh₁ := fresh.rest placed₁
  have vacant₂ := fresh₁.first
  obtain ⟨u₂, joined₂, placed₂⟩ :=
    strJoin_ok placed₁.holds (placed₁.kept holdsC vacant₁) vacant₂ (by omega)
  have fresh₂ := fresh₁.rest placed₂
  have vacant₃ := fresh₂.first
  have kept₂ : ∀ {p : CharPtr} {x : CString}, Holds mem p x → Holds u₂ p x := fun holds =>
    placed₂.kept (placed₁.kept holds vacant₁) vacant₂
  obtain ⟨u₃, joined₃, placed₃⟩ := strJoin_ok (kept₂ holdsB) (kept₂ holdsC) vacant₃ (by omega)
  have vacant₄ := (fresh₂.rest placed₃).first
  obtain ⟨u₄, joined₄, placed₄⟩ :=
    strJoin_ok (placed₃.kept (kept₂ holdsA) vacant₃) placed₃.holds vacant₄ (by omega)
  have left := placed₄.kept (placed₃.kept placed₂.holds vacant₃) vacant₄
  obtain ⟨r, compared, value⟩ := exists_compares plain left placed₄.holds
  have zero : r = 0 := by
    rw [← Int32.toInt_inj, value, CString.append_assoc]
    exact (CString.difference_eq_zero_iff (CString.noNul _) (CString.noNul _)).mpr rfl
  exact ⟨u₁, u₂, u₃, u₄, joined₁, joined₂, joined₃, joined₄, zero ▸ compared⟩

theorem join_empty {mem : Bytes} {s e : CharPtr} {a : CString} {m : Malloc} (holds : Holds mem s a)
    (nothing : Holds mem e .empty) (vacant : mem.blocks.lookup m.addr = none)
    (short : a.bytes.length < 2 ^ 31 - 1) :
    Delivers mem m a (strJoin mem s e (some m)) ∧ Delivers mem m a (strJoin mem e s (some m)) := by
  have none_ : CString.empty.bytes.length = 0 := rfl
  obtain ⟨u, joined, placed⟩ := strJoin_ok holds nothing vacant (by omega)
  obtain ⟨w, joined', placed'⟩ := strJoin_ok nothing holds vacant (by omega)
  rw [CString.append_empty] at placed
  rw [CString.empty_append] at placed'
  exact ⟨⟨u, joined, placed.toDelivered⟩, ⟨w, joined', placed'.toDelivered⟩⟩

theorem concatenation_laws (plain : PlainChar) {mem : Bytes} {s t v : CharPtr} {a b c : CString}
    (holdsA : Holds mem s a) (holdsB : Holds mem t b) (holdsC : Holds mem v c)
    (short : a.bytes.length + b.bytes.length + c.bytes.length < 2 ^ 31 - 1) :
    (∀ buf : CharPtr, mem.Room buf ((a.append b).bytes.length + 1) →
      buf.Apart ((a.append b).bytes.length + 1) s (a.bytes.length + 1) →
      buf.Apart ((a.append b).bytes.length + 1) t (b.bytes.length + 1) →
      CopyAppends mem buf s t (a.append b)) ∧
    (∀ m, Fresh mem [m] → JoinMeasures mem m s t (a.append b)) ∧
    (∀ m₁ m₂ m₃ m₄, Fresh mem [m₁, m₂, m₃, m₄] →
      JoinAssociates plain mem m₁ m₂ m₃ m₄ s t v ((a.append b).append c) (a.append (b.append c))) ∧
    (∀ m e, Fresh mem [m] → Holds mem e .empty →
      Delivers mem m a (strJoin mem s e (some m)) ∧ Delivers mem m a (strJoin mem e s (some m)) ∧
        Delivers mem m a (myStrdup mem s (some m))) := by
  refine ⟨fun buf => ?_, fun m fresh => ?_, fun m₁ m₂ m₃ m₄ => ?_, fun m e fresh nothing => ?_⟩
  · exact copy_appends holdsA holdsB (by omega)
  · exact join_measures holdsA holdsB fresh.first (by omega)
  · exact join_associates plain holdsA holdsB holdsC short
  · obtain ⟨left, right⟩ := join_empty holdsA nothing fresh.first (by omega)
    refine ⟨left, right, (delivers_iff (myStrdup_cases holdsA fresh.first)).mpr ?_⟩
    unfold DupCounts
    omega

theorem concatenation_laws_small : ∃ (mem : Bytes) (p : CharPtr) (m₁ m₂ m₃ m₄ : Malloc),
    CopyAppends mem (p.plus 6) p (p.plus 2) ((letters 1).append (letters 2)) ∧
    JoinMeasures mem m₁ p (p.plus 2) ((letters 1).append (letters 2)) ∧
    JoinAssociates .signed mem m₁ m₂ m₃ m₄ p (p.plus 2) (p.plus 5)
      (((letters 1).append (letters 2)).append .empty) ((letters 1).append ((letters 2).append .empty)) ∧
    Delivers mem m₁ (letters 1) (strJoin mem p (p.plus 5) (some m₁)) := by
  obtain ⟨mem, stores, vacant⟩ := Memory.exists_stores 10 ([97, 0, 97, 97, 0, 0, 7, 7, 7, 7] : List UInt8)
  have parts : mem.Stores ⟨some 10, 0⟩ ([97, 0] ++ ([97, 97, 0] ++ ([0] ++ [7, 7, 7, 7]))) := stores
  obtain ⟨first, rest⟩ := Memory.stores_append.mp parts
  obtain ⟨second, rest⟩ := Memory.stores_append.mp rest
  obtain ⟨third, -⟩ := Memory.stores_append.mp rest
  have holdsA : Holds mem ⟨some 10, 0⟩ (letters 1) := first
  have holdsB : Holds mem (Ptr.plus ⟨some 10, 0⟩ 2) (letters 2) := second
  have nothing : Holds mem (Ptr.plus ⟨some 10, 0⟩ 5) .empty := third
  have room : mem.Room (Ptr.plus ⟨some 10, 0⟩ 6) 4 := stores.room.part (i := 6) (by decide)
  have fresh : Fresh mem [⟨20, fun _ => 0⟩, ⟨21, fun _ => 0⟩, ⟨22, fun _ => 0⟩, ⟨23, fun _ => 0⟩] :=
    ⟨by decide, by simp [vacant]⟩
  have one : Fresh mem [⟨20, fun _ => 0⟩] := ⟨by decide, by simp [vacant]⟩
  obtain ⟨inPlace, measures, associates, empties⟩ :=
    concatenation_laws .signed holdsA holdsB nothing (by decide)
  exact ⟨mem, _, _, _, _, _, inPlace _ room (by decide) (by decide), measures _ one,
    associates _ _ _ _ fresh, (empties _ _ one nothing).1⟩

end Syseng.CForProgrammers.Strings
