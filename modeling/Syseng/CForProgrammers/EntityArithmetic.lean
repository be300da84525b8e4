import Mathlib.Algebra.Order.Group.Abs
import Syseng.CForProgrammers.Entity

/-! Where the sums and differences of an entity leave the range of an `int`, and where not. -/

namespace Syseng.CForProgrammers.Entity
open Support

/-- The call ends with the exact, clamped value, and nothing on the way leaves the range. -/
def Saturates (e : Entity) : Call → Prop
  | .entityTakeDamage amount => ∃ t, entityTakeDamage e amount = .ok t ∧
      t.hp.toInt = max 0 (e.hp.toInt - amount.toInt)
  | .entityHeal amount => ∃ t, entityHeal e amount = .ok t ∧
      (e.alive ≠ 0 → t.hp.toInt = min e.maxHp.toInt (e.hp.toInt + amount.toInt))
  | .entityMove _ _ => True

/-- `hp += amount` comes before the comparison with `max_hp`. -/
def Fits (e : Entity) : Call → Prop
  | .entityHeal amount => e.alive ≠ 0 → e.hp.toInt + amount.toInt ≤ 2147483647
  | _ => True

theorem takeDamage_exact {e : Entity} {amount : Int32} (low : 0 ≤ e.hp.toInt)
    (nonneg : 0 ≤ amount.toInt) :
    ∃ t, entityTakeDamage e amount = .ok t ∧ t.hp.toInt = max 0 (e.hp.toInt - amount.toInt) := by
  have small := amount.toInt_lt
  have small' := e.hp.toInt_lt
  have inside : Signed.InRange (e.hp.toInt - amount.toInt) := by
    unfold Signed.InRange
    omega
  obtain ⟨left, made, value⟩ := Signed.check_ok inside
  unfold entityTakeDamage Signed.sub
  rw [made, ok_bind]
  by_cases out : left ≤ 0
  · have nothing : left.toInt ≤ 0 := Int32.le_iff_toInt_le.mp out
    refine ⟨_, if_pos out, ?_⟩
    change (0 : Int) = _
    omega
  · have some_left : 0 < left.toInt := Int32.lt_iff_toInt_lt.mp (Int32.not_le.mp out)
    refine ⟨_, if_neg out, ?_⟩
    change left.toInt = _
    omega

theorem heal_exact_iff {e : Entity} {amount : Int32} (low : 0 ≤ e.hp.toInt)
    (nonneg : 0 ≤ amount.toInt) (alive : e.alive ≠ 0) :
    (∃ t, entityHeal e amount = .ok t ∧ t.hp.toInt = min e.maxHp.toInt (e.hp.toInt + amount.toInt)) ↔
      e.hp.toInt + amount.toInt ≤ 2147483647 := by
  unfold entityHeal Signed.add
  rw [if_pos alive]
  by_cases inside : Signed.InRange (e.hp.toInt + amount.toInt)
  · obtain ⟨more, made, value⟩ := Signed.check_ok inside
    rw [made, ok_bind]
    apply iff_of_true _ inside.2
    by_cases beyond : more > e.maxHp
    · have above : e.maxHp.toInt < more.toInt := Int32.lt_iff_toInt_lt.mp beyond
      refine ⟨_, if_pos beyond, ?_⟩
      change e.maxHp.toInt = _
      omega
    · have within : more.toInt ≤ e.maxHp.toInt := Int32.le_iff_toInt_le.mp (Int32.not_lt.mp beyond)
      refine ⟨_, if_neg beyond, ?_⟩
      change more.toInt = _
      omega
  · rw [Signed.check_far inside]
    apply iff_of_false
    · rintro ⟨t, done, -⟩
      cases done
    · intro fits
      apply inside
      unfold Signed.InRange
      omega

theorem heal_saturates_iff {e : Entity} {amount : Int32} (low : 0 ≤ e.hp.toInt)
    (nonneg : 0 ≤ amount.toInt) : Saturates e (.entityHeal amount) ↔ Fits e (.entityHeal amount) := by
  unfold Saturates Fits
  by_cases alive : e.alive ≠ 0
  · simp only [alive, ne_eq, not_false_eq_true, true_imp_iff]
    exact heal_exact_iff low nonneg alive
  · apply iff_of_true
    · exact ⟨e, if_neg alive, fun wrong => absurd wrong alive⟩
    · exact fun wrong => absurd wrong alive

theorem Lives.saturates_iff {born e : Entity} {hp : Int} {position : Int × Int}
    (lives : Lives born e hp position) {c : Call} (may : machine.allowed e c) :
    Saturates e c ↔ Fits e c := by
  have low : 0 ≤ e.hp.toInt := by
    rw [lives.points]
    exact lives.low
  cases c with
  | entityTakeDamage amount =>
    exact iff_of_true (takeDamage_exact low (Int32.le_iff_toInt_le.mp may)) trivial
  | entityHeal amount => exact heal_saturates_iff low (Int32.le_iff_toInt_le.mp may)
  | entityMove dx dy => exact Iff.rfl

/-- Over every run, from whatever state the calls before have left. -/
theorem entity_saturates_iff {raw : Entity} {name : CString} {x y maxHp : Int32} (least : 1 ≤ maxHp)
    {es : List Call} {vs : List Unit} {e : Entity}
    (run : machine.Run (entityInit raw name x y maxHp) es vs e) {cs : List Call}
    (may : ∀ c ∈ cs, machine.allowed e c) :
    machine.Throughout Saturates e cs ↔ machine.Throughout Fits e cs := by
  let born := entityInit raw name x y maxHp
  let inv := fun t => ∃ hp position, Lives born t hp position
  have start : inv e := ⟨_, _, run_lives run (born_lives raw name x y least)⟩
  apply Machine.throughout_iff _ _ start
  · exact fun t c member => may c member
  · rintro t c ⟨hp, position, lives⟩ may
    exact lives.saturates_iff may
  · rintro t c u v ⟨hp, position, lives⟩ may now
    exact ⟨_, _, step_lives lives may now⟩

theorem entity_saturates_iff_hurt : ∃ e, machine.Run
    (entityInit ⟨.replicate 64 255, 0, 0, 0, 0, 0⟩ ⟨[72], by decide⟩ 0 0 20) [.entityTakeDamage 15] [()] e ∧
    (machine.Throughout Saturates e [.entityHeal 100] ↔ machine.Throughout Fits e [.entityHeal 100]) :=
  Machine.exists_run (by decide) fun _ run =>
    entity_saturates_iff (by decide) run (List.forall_mem_singleton.mpr (show (0 : Int32) ≤ 100 by decide))

/-- Five hit points and an amount of `INT_MAX`. -/
theorem heal_overflows : ∃ e, machine.Run
    (entityInit ⟨.replicate 64 255, 0, 0, 0, 0, 0⟩ ⟨[72], by decide⟩ 0 0 20) [.entityTakeDamage 15] [()] e ∧
    machine.allowed e (.entityHeal 2147483647) ∧ e.alive = 1 ∧ ¬ Saturates e (.entityHeal 2147483647) := by
  have ran : (machine.exec (entityInit ⟨.replicate 64 255, 0, 0, 0, 0, 0⟩ ⟨[72], by decide⟩ 0 0 20)
      [.entityTakeDamage 15]).map
        (fun r => ((r.1.alive, (entityHeal r.1 2147483647).toOption.isSome), r.2)) =
      some ((1, false), [()]) := by decide
  obtain ⟨e, run, seen⟩ :=
    Machine.exists_run_seen (fun e => (e.alive, (entityHeal e 2147483647).toOption.isSome)) ran
  obtain ⟨alive, refused⟩ := Prod.mk.inj seen
  refine ⟨e, run, show (0 : Int32) ≤ 2147483647 by decide, alive, ?_⟩
  rintro ⟨t, done, -⟩
  rw [done] at refused
  cases refused

def entityDistance (a b : Entity) : Except Fault Int32 := do
  let dx ← Signed.sub a.x b.x
  let dx ← Signed.abs dx
  let dy ← Signed.sub a.y b.y
  let dy ← Signed.abs dy
  Signed.add dx dy

def manhattan (a b : Entity) : Int := |a.x.toInt - b.x.toInt| + |a.y.toInt - b.y.toInt|

theorem manhattan_comm (a b : Entity) : manhattan a b = manhattan b a := by
  unfold manhattan
  rw [abs_sub_comm, abs_sub_comm a.y.toInt]

theorem manhattan_eq_zero (a b : Entity) : manhattan a b = 0 ↔ a.x = b.x ∧ a.y = b.y := by
  have nonnegX := abs_nonneg (a.x.toInt - b.x.toInt)
  have nonnegY := abs_nonneg (a.y.toInt - b.y.toInt)
  have zeroX : |a.x.toInt - b.x.toInt| = 0 ↔ a.x = b.x := by
    rw [abs_eq_zero, sub_eq_zero, Int32.toInt_inj]
  have zeroY : |a.y.toInt - b.y.toInt| = 0 ↔ a.y = b.y := by
    rw [abs_eq_zero, sub_eq_zero, Int32.toInt_inj]
  rw [← zeroX, ← zeroY]
  unfold manhattan
  omega

theorem manhattan_triangle (a b c : Entity) : manhattan a b ≤ manhattan a c + manhattan c b := by
  have sumX := abs_sub_le a.x.toInt c.x.toInt b.x.toInt
  have sumY := abs_sub_le a.y.toInt c.y.toInt b.y.toInt
  unfold manhattan
  omega

theorem entityMove_cases {e t : Entity} {dx dy : Int32} (moved : entityMove e dx dy = .ok t) :
    t.x.toInt = e.x.toInt + dx.toInt ∧ t.y.toInt = e.y.toInt + dy.toInt := by
  obtain ⟨x, movedX, moved⟩ := bind_ok moved
  obtain ⟨y, movedY, moved⟩ := bind_ok moved
  cases moved
  exact ⟨Signed.add_cases movedX, Signed.add_cases movedY⟩

theorem manhattan_moved {a b s t : Entity} {dx dy : Int32} (movedA : entityMove a dx dy = .ok s)
    (movedB : entityMove b dx dy = .ok t) : manhattan s t = manhattan a b := by
  obtain ⟨xA, yA⟩ := entityMove_cases movedA
  obtain ⟨xB, yB⟩ := entityMove_cases movedB
  unfold manhattan
  rw [xA, yA, xB, yB, add_sub_add_right_eq_sub, add_sub_add_right_eq_sub]

theorem entityDistance_ok {a b : Entity} (near : manhattan a b ≤ 2147483647) :
    ∃ d, entityDistance a b = .ok d ∧ d.toInt = manhattan a b := by
  have nonnegX := abs_nonneg (a.x.toInt - b.x.toInt)
  have nonnegY := abs_nonneg (a.y.toInt - b.y.toInt)
  unfold manhattan at near ⊢
  have small : ∀ {n : Int}, |n| ≤ 2147483647 → Signed.InRange n := by
    intro n bound
    obtain ⟨low, high⟩ := abs_le.mp bound
    unfold Signed.InRange
    omega
  have positive : ∀ {n : Int}, 0 ≤ n → n ≤ 2147483647 → Signed.InRange n := by
    intro n low high
    unfold Signed.InRange
    omega
  obtain ⟨dx, subtractedX, valueX⟩ := Signed.check_ok (small (n := a.x.toInt - b.x.toInt) (by omega))
  obtain ⟨dy, subtractedY, valueY⟩ := Signed.check_ok (small (n := a.y.toInt - b.y.toInt) (by omega))
  obtain ⟨ax, absoluteX, magnitudeX⟩ := Signed.check_ok (positive nonnegX (by omega))
  obtain ⟨ay, absoluteY, magnitudeY⟩ := Signed.check_ok (positive nonnegY (by omega))
  obtain ⟨d, added, value⟩ := Signed.check_ok (positive (by omega) near)
  refine ⟨d, ?_, value⟩
  simp [entityDistance, Signed.sub, Signed.abs, Signed.add, subtractedX, subtractedY, valueX, valueY,
    absoluteX, absoluteY, magnitudeX, magnitudeY, added]

structure Metric (a b : Entity) (d : Int32) : Prop where
  exact_value : d.toInt = manhattan a b
  symmetric : entityDistance b a = .ok d
  zero : d = 0 ↔ a.x = b.x ∧ a.y = b.y
  triangle : ∀ c, manhattan a c ≤ 2147483647 → manhattan c b ≤ 2147483647 →
    ∃ e f, entityDistance a c = .ok e ∧ entityDistance c b = .ok f ∧ d.toInt ≤ e.toInt + f.toInt
  moved : ∀ dx dy s t, entityMove a dx dy = .ok s → entityMove b dx dy = .ok t →
    entityDistance s t = .ok d

theorem entityDistance_of_value {a b : Entity} {d : Int32} (value : d.toInt = manhattan a b) :
    entityDistance a b = .ok d := by
  have high := d.toInt_lt
  obtain ⟨e, done, same⟩ := entityDistance_ok (a := a) (b := b) (by omega)
  rw [done, Int32.toInt_inj.mp (same.trans value.symm)]

theorem entity_distance_metric {a b : Entity} (near : manhattan a b ≤ 2147483647) :
    ∃ d, entityDistance a b = .ok d ∧ Metric a b d := by
  obtain ⟨d, done, value⟩ := entityDistance_ok near
  refine ⟨d, done, value, ?_, ?_, fun c nearA nearB => ?_, fun dx dy s t movedA movedB => ?_⟩
  · exact entityDistance_of_value (value.trans (manhattan_comm a b))
  · rw [← Int32.toInt_inj, value, ← manhattan_eq_zero]
    rfl
  · obtain ⟨e, doneA, valueA⟩ := entityDistance_ok nearA
    obtain ⟨f, doneB, valueB⟩ := entityDistance_ok nearB
    refine ⟨e, f, doneA, doneB, ?_⟩
    rw [value, valueA, valueB]
    exact manhattan_triangle a b c
  · exact entityDistance_of_value (value.trans (manhattan_moved movedA movedB).symm)

theorem entity_distance_metric_ends : ∃ d,
    entityDistance ⟨.replicate 64 0, -2147483648, 0, 1, 1, 1⟩ ⟨.replicate 64 0, -1, 0, 1, 1, 1⟩ = .ok d ∧
    Metric ⟨.replicate 64 0, -2147483648, 0, 1, 1, 1⟩ ⟨.replicate 64 0, -1, 0, 1, 1, 1⟩ d :=
  entity_distance_metric (by decide)

end Syseng.CForProgrammers.Entity
