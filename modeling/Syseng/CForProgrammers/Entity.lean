import Syseng.Support.Machine
import Syseng.Support.Signed
import Syseng.Support.CString

/-! `entity_t`, a record that is damaged, healed and moved. -/

namespace Syseng.CForProgrammers
open Support

structure Entity where
  name : Vector UInt8 64
  x : Int32
  y : Int32
  hp : Int32
  maxHp : Int32
  alive : Int32
  deriving DecidableEq, Repr

namespace Entity

/-- `e` is what the storage holds before. -/
def entityInit (e : Entity) (name : CString) (x y maxHp : Int32) : Entity :=
  let copied := CString.strncpy e.name name (64 - 1)
  let copied := copied.set (64 - 1) 0
  { e with name := copied, hp := maxHp, maxHp, alive := 1, x, y }

def entityTakeDamage (e : Entity) (amount : Int32) : Except Fault Entity := do
  let hp ← Signed.sub e.hp amount
  let e := { e with hp }
  if e.hp ≤ 0 then .ok { e with hp := 0, alive := 0 } else .ok e

def entityHeal (e : Entity) (amount : Int32) : Except Fault Entity :=
  if e.alive ≠ 0 then do
    let hp ← Signed.add e.hp amount
    let e := { e with hp }
    if e.hp > e.maxHp then .ok { e with hp := e.maxHp } else .ok e
  else .ok e

def entityMove (e : Entity) (dx dy : Int32) : Except Fault Entity := do
  let x ← Signed.add e.x dx
  let e := { e with x }
  let y ← Signed.add e.y dy
  .ok { e with y }

inductive Call where
  | entityTakeDamage (amount : Int32)
  | entityHeal (amount : Int32)
  | entityMove (dx dy : Int32)
  deriving DecidableEq, Repr

def step (e : Entity) : Call → Except Fault (Entity × Unit)
  | .entityTakeDamage amount => do .ok (← entityTakeDamage e amount, ())
  | .entityHeal amount => do .ok (← entityHeal e amount, ())
  | .entityMove dx dy => do .ok (← entityMove e dx dy, ())

def allowed (_ : Entity) : Call → Prop
  | .entityTakeDamage amount => 0 ≤ amount
  | .entityHeal amount => 0 ≤ amount
  | .entityMove _ _ => True

def machine : Machine Entity Call Unit Fault where
  allowed := allowed
  step := step

instance (e : Entity) : (c : Call) → Decidable (machine.allowed e c)
  | .entityTakeDamage amount => inferInstanceAs (Decidable (0 ≤ amount))
  | .entityHeal amount => inferInstanceAs (Decidable (0 ≤ amount))
  | .entityMove _ _ => inferInstanceAs (Decidable True)

def clamped (maxHp hp : Int) : Call → Int
  | .entityTakeDamage amount => max 0 (hp - amount.toInt)
  | .entityHeal amount => min maxHp (hp + amount.toInt)
  | .entityMove _ _ => hp

/-- Hit points that have run out stay out. -/
def hitPoints (maxHp hp : Int) (c : Call) : Int :=
  if hp = 0 then 0 else clamped maxHp hp c

def displaced (position : Int × Int) : Call → Int × Int
  | .entityMove dx dy => (position.1 + dx.toInt, position.2 + dy.toInt)
  | _ => position

def isMove : Call → Bool
  | .entityMove _ _ => true
  | _ => false

theorem hitPoints_dead (maxHp : Int) (es : List Call) : es.foldl (hitPoints maxHp) 0 = 0 := by
  induction es with
  | nil => rfl
  | cons c es ih => exact ih

theorem hitPoints_alive {maxHp hp : Int} {es : List Call}
    (alive : es.foldl (hitPoints maxHp) hp ≠ 0) :
    es.foldl (hitPoints maxHp) hp = es.foldl (clamped maxHp) hp := by
  induction es generalizing hp with
  | nil => rfl
  | cons c es ih =>
    rw [List.foldl_cons] at alive ⊢
    rw [ih alive, List.foldl_cons]
    have before : hp ≠ 0 := by
      rintro rfl
      exact alive (hitPoints_dead maxHp es)
    rw [hitPoints, if_neg before]

theorem hitPoints_filter (maxHp hp : Int) (es : List Call) :
    es.foldl (hitPoints maxHp) hp = (es.filter (!isMove ·)).foldl (hitPoints maxHp) hp := by
  rw [List.foldl_filter]
  congr 1
  funext hp c
  cases c with
  | entityTakeDamage amount => rfl
  | entityHeal amount => rfl
  | entityMove dx dy =>
    unfold hitPoints
    split
    · next gone => exact gone.symm
    · rfl

theorem displaced_filter (position : Int × Int) (es : List Call) :
    es.foldl displaced position = (es.filter isMove).foldl displaced position := by
  rw [List.foldl_filter]
  congr 1
  funext position c
  cases c <;> rfl

structure Lives (born e : Entity) (hp : Int) (position : Int × Int) : Prop where
  name : e.name = born.name
  maxHp : e.maxHp = born.maxHp
  points : e.hp.toInt = hp
  place : (e.x.toInt, e.y.toInt) = position
  low : 0 ≤ hp
  high : hp ≤ born.maxHp.toInt
  flag : e.alive = if hp = 0 then 0 else 1

theorem Lives.takeDamage {born e t : Entity} {hp : Int} {position : Int × Int} {amount : Int32}
    (lives : Lives born e hp position) (nonneg : 0 ≤ amount)
    (done : entityTakeDamage e amount = .ok t) :
    Lives born t (max 0 (hp - amount.toInt)) position := by
  have amounts : 0 ≤ amount.toInt := Int32.le_iff_toInt_le.mp nonneg
  have high := lives.high
  obtain ⟨left, subtracted, done⟩ := bind_ok done
  have difference : left.toInt = hp - amount.toInt := by
    rw [Signed.sub_cases subtracted, lives.points]
  by_cases out : left ≤ 0
  · rw [if_pos out] at done
    cases done
    have nothing : left.toInt ≤ 0 := Int32.le_iff_toInt_le.mp out
    have zero : max 0 (hp - amount.toInt) = 0 := by omega
    rw [zero]
    exact ⟨lives.name, lives.maxHp, rfl, lives.place, Int.le_refl 0, by have := lives.low; omega, rfl⟩
  · rw [if_neg out] at done
    cases done
    have some_left : 0 < left.toInt := Int32.lt_iff_toInt_lt.mp (Int32.not_le.mp out)
    have rest : max 0 (hp - amount.toInt) = left.toInt := by omega
    rw [rest]
    refine ⟨lives.name, lives.maxHp, rfl, lives.place, by omega, by omega, ?_⟩
    rw [if_neg (by omega)]
    exact lives.flag.trans (if_neg (by omega))

theorem Lives.heal {born e t : Entity} {hp : Int} {position : Int × Int} {amount : Int32}
    (lives : Lives born e hp position) (nonneg : 0 ≤ amount) (done : entityHeal e amount = .ok t) :
    Lives born t (if hp = 0 then 0 else min born.maxHp.toInt (hp + amount.toInt)) position := by
  have amounts : 0 ≤ amount.toInt := Int32.le_iff_toInt_le.mp nonneg
  have low := lives.low
  have high := lives.high
  unfold entityHeal at done
  by_cases gone : hp = 0
  · have flag : e.alive = 0 := lives.flag.trans (if_pos gone)
    rw [if_neg (not_not.mpr flag)] at done
    cases done
    rw [if_pos gone, ← gone]
    exact lives
  · have flag : e.alive = 1 := lives.flag.trans (if_neg gone)
    rw [if_pos (by rw [flag]; decide)] at done
    obtain ⟨more, added, done⟩ := bind_ok done
    have sum : more.toInt = hp + amount.toInt := by
      rw [Signed.add_cases added, lives.points]
    have cap : e.maxHp.toInt = born.maxHp.toInt := congrArg Int32.toInt lives.maxHp
    rw [if_neg gone]
    by_cases beyond : more > e.maxHp
    · rw [if_pos beyond] at done
      cases done
      have above : e.maxHp.toInt < more.toInt := Int32.lt_iff_toInt_lt.mp beyond
      have capped : min born.maxHp.toInt (hp + amount.toInt) = born.maxHp.toInt := by omega
      rw [capped]
      refine ⟨lives.name, lives.maxHp, cap, lives.place, by omega, Int.le_refl _, ?_⟩
      rw [if_neg (by omega)]
      exact flag
    · rw [if_neg beyond] at done
      cases done
      have within : more.toInt ≤ e.maxHp.toInt := Int32.le_iff_toInt_le.mp (Int32.not_lt.mp beyond)
      have whole : min born.maxHp.toInt (hp + amount.toInt) = more.toInt := by omega
      rw [whole]
      refine ⟨lives.name, lives.maxHp, rfl, lives.place, by omega, by omega, ?_⟩
      rw [if_neg (by omega)]
      exact flag

theorem Lives.move {born e t : Entity} {hp : Int} {position : Int × Int} {dx dy : Int32}
    (lives : Lives born e hp position) (done : entityMove e dx dy = .ok t) :
    Lives born t hp (position.1 + dx.toInt, position.2 + dy.toInt) := by
  obtain ⟨x, movedX, done⟩ := bind_ok done
  obtain ⟨y, movedY, done⟩ := bind_ok done
  cases done
  refine ⟨lives.name, lives.maxHp, lives.points, ?_, lives.low, lives.high, lives.flag⟩
  rw [← lives.place, Signed.add_cases movedX, Signed.add_cases movedY]

theorem step_lives {born e t : Entity} {hp : Int} {position : Int × Int} {c : Call} {v : Unit}
    (lives : Lives born e hp position) (may : allowed e c) (done : step e c = .ok (t, v)) :
    Lives born t (hitPoints born.maxHp.toInt hp c) (displaced position c) := by
  cases c with
  | entityTakeDamage amount =>
    obtain ⟨t, damaged, done⟩ := bind_ok done
    cases done
    have after := lives.takeDamage may damaged
    by_cases gone : hp = 0
    · have nonneg : 0 ≤ amount.toInt := Int32.le_iff_toInt_le.mp may
      have still : max 0 (hp - amount.toInt) = 0 := by omega
      rw [still] at after
      rwa [hitPoints, if_pos gone]
    · rwa [hitPoints, if_neg gone]
  | entityHeal amount =>
    obtain ⟨t, healed, done⟩ := bind_ok done
    cases done
    exact lives.heal may healed
  | entityMove dx dy =>
    obtain ⟨t, moved, done⟩ := bind_ok done
    cases done
    have after := lives.move moved
    by_cases gone : hp = 0
    · rwa [hitPoints, if_pos gone, ← gone]
    · rwa [hitPoints, if_neg gone]

theorem run_lives {born s e : Entity} {hp : Int} {position : Int × Int} {es : List Call}
    {vs : List Unit} (run : machine.Run s es vs e) (lives : Lives born s hp position) :
    Lives born e (es.foldl (hitPoints born.maxHp.toInt) hp) (es.foldl displaced position) := by
  induction run generalizing hp position with
  | nil s => exact lives
  | cons may now later ih => exact ih (step_lives lives may now)

/-- What holds of the entity `e` that `es` have made of `born`. A state on the way is the
last one of a shorter run. -/
structure LifeCycle (born : Entity) (es : List Call) (e : Entity) : Prop where
  bounds : 0 ≤ e.hp ∧ e.hp ≤ born.maxHp
  flag : e.alive = 0 ∨ e.alive = 1
  alive : e.alive = 1 ↔ 0 < e.hp
  dead : e.hp = 0 → ∀ fs vs t, machine.Run e fs vs t → t.hp = 0 ∧ t.alive = 0
  folds : 0 < e.hp → e.hp.toInt = es.foldl (clamped born.maxHp.toInt) born.maxHp.toInt
  falls : 0 < e.hp → ∀ c t v, machine.allowed e c → machine.step e c = .ok (t, v) →
    t.hp.toInt = (es ++ [c]).foldl (clamped born.maxHp.toInt) born.maxHp.toInt
  constant : e.name = born.name ∧ e.maxHp = born.maxHp
  without_moves : ∀ fs vs t, machine.Run born fs vs t →
    fs.filter (!isMove ·) = es.filter (!isMove ·) → t.hp = e.hp ∧ t.alive = e.alive
  only_moves : ∀ fs vs t, machine.Run born fs vs t →
    fs.filter isMove = es.filter isMove → t.x = e.x ∧ t.y = e.y

theorem born_lives (e : Entity) (name : CString) (x y : Int32) {maxHp : Int32} (least : 1 ≤ maxHp) :
    Lives (entityInit e name x y maxHp) (entityInit e name x y maxHp) maxHp.toInt
      (x.toInt, y.toInt) := by
  have positive : 1 ≤ maxHp.toInt := Int32.le_iff_toInt_le.mp least
  refine ⟨rfl, rfl, rfl, rfl, by omega, Int.le_refl _, ?_⟩
  rw [if_neg (by omega)]
  rfl

theorem Lives.positive_iff {born e : Entity} {hp : Int} {position : Int × Int}
    (lives : Lives born e hp position) : 0 < e.hp ↔ hp ≠ 0 := by
  have low := lives.low
  rw [Int32.lt_iff_toInt_lt, lives.points]
  change 0 < hp ↔ hp ≠ 0
  omega

theorem Lives.same_points {born e t : Entity} {hp : Int} {here there : Int × Int}
    (left : Lives born e hp here) (right : Lives born t hp there) :
    t.hp = e.hp ∧ t.alive = e.alive :=
  ⟨Int32.toInt_inj.mp (right.points.trans left.points.symm), right.flag.trans left.flag.symm⟩

theorem Lives.same_place {born e t : Entity} {left right : Int} {position : Int × Int}
    (here : Lives born e left position) (there : Lives born t right position) :
    t.x = e.x ∧ t.y = e.y := by
  have both := Prod.mk.inj (there.place.trans here.place.symm)
  exact ⟨Int32.toInt_inj.mp both.1, Int32.toInt_inj.mp both.2⟩

/-- Over every run in which no sum leaves the range of an `int`. -/
theorem entity_life {raw : Entity} {name : CString} {x y maxHp : Int32} (least : 1 ≤ maxHp)
    {es : List Call} {vs : List Unit} {e : Entity}
    (run : machine.Run (entityInit raw name x y maxHp) es vs e) :
    LifeCycle (entityInit raw name x y maxHp) es e := by
  have born := born_lives raw name x y least
  have lives := run_lives run born
  have cap : (entityInit raw name x y maxHp).maxHp = maxHp := rfl
  rw [cap] at lives
  constructor
  · constructor
    · rw [Int32.le_iff_toInt_le, lives.points]
      exact lives.low
    · rw [Int32.le_iff_toInt_le, lives.points]
      exact lives.high
  · rw [lives.flag]
    split
    · exact Or.inl rfl
    · exact Or.inr rfl
  · rw [lives.positive_iff, lives.flag]
    split
    · next gone => exact ⟨fun wrong => absurd wrong (by decide), fun wrong => absurd gone wrong⟩
    · next left => exact ⟨fun _ => left, fun _ => rfl⟩
  · intro gone fs vs t later
    have none_left : (es.foldl (hitPoints maxHp.toInt) maxHp.toInt) = 0 := by
      rw [← lives.points, gone]
      rfl
    rw [none_left] at lives
    have after := run_lives later lives
    rw [cap, hitPoints_dead] at after
    exact ⟨Int32.toInt_inj.mp after.points, after.flag⟩
  · intro left
    rw [lives.points]
    exact hitPoints_alive (lives.positive_iff.mp left)
  · intro left c t v may done
    have before := lives.positive_iff.mp left
    have after := step_lives lives may done
    rw [after.points, cap, List.foldl_append, ← hitPoints_alive before]
    exact if_neg before
  · exact ⟨lives.name, lives.maxHp⟩
  · intro fs ws t other same
    have lived := run_lives other born
    rw [cap, hitPoints_filter, same, ← hitPoints_filter] at lived
    exact lives.same_points lived
  · intro fs ws t other same
    have lived := run_lives other born
    rw [displaced_filter, same, ← displaced_filter] at lived
    exact lives.same_place lived

theorem entity_life_killed : ∃ e, machine.Run
    (entityInit ⟨.replicate 64 255, 0, 0, 0, 0, 0⟩ ⟨[71, 111], by decide⟩ 3 5 10)
    [.entityTakeDamage 4, .entityMove 1 (-2), .entityHeal 7, .entityTakeDamage 12, .entityHeal 5,
      .entityTakeDamage 1, .entityMove 1 1]
    [(), (), (), (), (), (), ()] e ∧
    LifeCycle (entityInit ⟨.replicate 64 255, 0, 0, 0, 0, 0⟩ ⟨[71, 111], by decide⟩ 3 5 10)
      [.entityTakeDamage 4, .entityMove 1 (-2), .entityHeal 7, .entityTakeDamage 12, .entityHeal 5,
        .entityTakeDamage 1, .entityMove 1 1] e :=
  Machine.exists_run (by decide) fun _ run => entity_life (by decide) run

end Entity
end Syseng.CForProgrammers
