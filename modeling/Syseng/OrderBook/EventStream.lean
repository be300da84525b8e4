import Mathlib.Data.List.Perm.Subperm
import Syseng.OrderBook.PriceLevels

/-! The synthetic stream of order events: orders that are added, cancelled and modified at random. -/

namespace Syseng.OrderBook.EventStream
open Support
open PriceLevels (Price Qty)

abbrev OrderId := UInt64

inductive Side where
  | buy
  | sell
  deriving DecidableEq, Repr

inductive EventType where
  | addOrder
  | cancelOrder
  | modifyOrder
  deriving DecidableEq, Repr

structure OrderEvent where
  type : EventType
  id : OrderId
  side : Side
  price : Price
  qty : Qty
  deriving DecidableEq, Repr

/-- `std::mt19937_64` with the three distributions, each of which stays in its range. -/
structure RandomSource where
  State : Type
  seeded : UInt64 → State
  rng : State → UInt64 × State
  roll : State → Int32 × State
  side : State → Int32 × State
  qty : State → Qty × State
  roll_range : ∀ s, 0 ≤ (roll s).1.toInt ∧ (roll s).1.toInt ≤ 9
  side_range : ∀ s, 0 ≤ (side s).1.toInt ∧ (side s).1.toInt ≤ 1
  qty_range : ∀ s, 1 ≤ (qty s).1.toInt ∧ (qty s).1.toInt ≤ 100

structure Generator (source : RandomSource) where
  events : List OrderEvent
  liveIds : List OrderId
  nextId : OrderId
  rng : source.State

def drawPrice (source : RandomSource) (i : UInt64) (rng : source.State) : Side × Price × source.State :=
  if i > 0 ∧ i % 19 = 0 then
    let draw := source.rng rng
    (.buy, 102 + (draw.1 % 3).toInt64, draw.2)
  else if i > 0 ∧ i % 23 = 0 then
    let draw := source.rng rng
    (.sell, 98 - (draw.1 % 3).toInt64, draw.2)
  else
    let side := source.side rng
    let draw := source.rng side.2
    if side.1 ≠ 0 then (.buy, 98 + (draw.1 % 3).toInt64, draw.2)
    else (.sell, 101 + (draw.1 % 2).toInt64, draw.2)

def addOrder {source : RandomSource} (i : UInt64) (g : Generator source) (rng : source.State) :
    Generator source :=
  let qty := source.qty rng
  let drawn := drawPrice source i qty.2
  { events := g.events ++
      [{ type := .addOrder, id := g.nextId, side := drawn.1, price := drawn.2.1, qty := qty.1 }]
    liveIds := g.liveIds ++ [g.nextId]
    nextId := g.nextId + 1
    rng := drawn.2.2 }

/-- A remainder by zero has no meaning. -/
def remainder (x m : UInt64) : Except Fault UInt64 := if m = 0 then .error .outOfRange else .ok (x % m)

/-- A random position in the list, and the id that is there. -/
def pick (source : RandomSource) (liveIds : List OrderId) (rng : source.State) :
    Except Fault (Nat × OrderId × source.State) := do
  let draw := source.rng rng
  let idx ← remainder draw.1 liveIds.length.toUInt64
  match liveIds[idx.toNat]? with
  | some id => .ok (idx.toNat, id, draw.2)
  | none => .error .outOfRange

/-- `std::swap` with the last element, and `pop_back`. -/
def swapPop (ids : List OrderId) (idx : Nat) : List OrderId :=
  match ids[idx]?, ids.getLast? with
  | some id, some back => ((ids.set idx back).set (ids.length - 1) id).dropLast
  | _, _ => ids

/-- The fields that are not assigned are zero. -/
def cancelOrder {source : RandomSource} (g : Generator source) (rng : source.State) :
    Except Fault (Generator source) := do
  let (idx, id, rng) ← pick source g.liveIds rng
  return { g with
    events := g.events ++ [{ type := .cancelOrder, id := id, side := .buy, price := 0, qty := 0 }]
    liveIds := swapPop g.liveIds idx
    rng := rng }

def modifyOrder {source : RandomSource} (g : Generator source) (rng : source.State) :
    Except Fault (Generator source) := do
  let (_, id, rng) ← pick source g.liveIds rng
  let qty := source.qty rng
  return { g with
    events := g.events ++ [{ type := .modifyOrder, id := id, side := .buy, price := 0, qty := qty.1 }]
    rng := qty.2 }

def round {source : RandomSource} (i : UInt64) (g : Generator source) : Except Fault (Generator source) :=
  let roll := source.roll g.rng
  if g.liveIds.isEmpty || roll.1 < 6 then .ok (addOrder i g roll.2)
  else if roll.1 < 9 then cancelOrder g roll.2
  else modifyOrder g roll.2

def generatorAt (source : RandomSource) (seed : UInt64) : Nat → Except Fault (Generator source)
  | 0 => .ok { events := [], liveIds := [], nextId := 1, rng := source.seeded seed }
  | i + 1 => do
    let g ← generatorAt source seed i
    round (UInt64.ofNat i) g

def generateEventStream (source : RandomSource) (n seed : UInt64) : Except Fault (List OrderEvent) := do
  let g ← generatorAt source seed n.toNat
  return g.events

def ids (type : EventType) (events : List OrderEvent) : List OrderId :=
  (events.filter (·.type = type)).map OrderEvent.id

def Priced : Side → Price → Prop
  | .buy, price => 98 ≤ price.toInt ∧ price.toInt ≤ 100 ∨ 102 ≤ price.toInt ∧ price.toInt ≤ 104
  | .sell, price => 96 ≤ price.toInt ∧ price.toInt ≤ 98 ∨ 101 ≤ price.toInt ∧ price.toInt ≤ 102

instance : (side : Side) → (price : Price) → Decidable (Priced side price)
  | .buy, _ => inferInstanceAs (Decidable (_ ∨ _))
  | .sell, _ => inferInstanceAs (Decidable (_ ∨ _))

/-- What an event may be after these events. -/
structure Follows (past : List OrderEvent) (ev : OrderEvent) : Prop where
  numbered : ev.type = .addOrder → ev.id.toNat = (ids .addOrder past).length + 1
  named : ev.type ≠ .addOrder → ev.id ∈ ids .addOrder past ∧ ev.id ∉ ids .cancelOrder past
  quantity : ev.type ≠ .cancelOrder → 1 ≤ ev.qty.toInt ∧ ev.qty.toInt ≤ 100
  priced : ev.type = .addOrder → Priced ev.side ev.price

inductive Stream : List OrderEvent → Prop where
  | nil : Stream []
  | concat {past : List OrderEvent} {ev : OrderEvent} (stream : Stream past) (follows : Follows past ev) :
    Stream (past ++ [ev])

theorem ids_concat (type : EventType) (past : List OrderEvent) (ev : OrderEvent) :
    ids type (past ++ [ev]) = ids type past ++ if ev.type = type then [ev.id] else [] := by
  by_cases same : ev.type = type
  · simp [ids, same]
  · simp [ids, same]

namespace Stream
variable {events : List OrderEvent}

theorem numbered (stream : Stream events) :
    (ids .addOrder events).map UInt64.toNat = List.range' 1 (ids .addOrder events).length := by
  induction stream with
  | nil => rfl
  | @concat past ev _ follows ih =>
    rw [ids_concat]
    by_cases added : ev.type = .addOrder
    · rw [if_pos added, List.map_append, ih, List.length_append, List.length_singleton, List.range'_concat,
        List.map_singleton, follows.numbered added, Nat.one_mul, Nat.add_comm 1]
    · rw [if_neg added, List.append_nil, ih]

theorem bounded (stream : Stream events) {id : OrderId} (added : id ∈ ids .addOrder events) :
    1 ≤ id.toNat ∧ id.toNat ≤ (ids .addOrder events).length := by
  have member := List.mem_map_of_mem added (f := UInt64.toNat)
  rw [stream.numbered, List.mem_range'_1] at member
  omega

theorem increasing (stream : Stream events) : (ids .addOrder events).Pairwise (· < ·) := by
  have ordered := List.pairwise_lt_range' (s := 1) (n := (ids .addOrder events).length)
  rw [← stream.numbered, List.pairwise_map] at ordered
  exact ordered.imp UInt64.lt_iff_toNat_lt.mpr

theorem cancelled_added (stream : Stream events) {id : OrderId} (cancelled : id ∈ ids .cancelOrder events) :
    id ∈ ids .addOrder events := by
  induction stream with
  | nil => cases cancelled
  | @concat past ev _ follows ih =>
    rw [ids_concat] at cancelled ⊢
    rcases List.mem_append.mp cancelled with before | now
    · exact List.mem_append_left _ (ih before)
    · split at now
      · next type =>
        rw [List.mem_singleton.mp now]
        exact List.mem_append_left _ (follows.named (by rw [type]; decide)).1
      · cases now

theorem cancelled_once (stream : Stream events) : (ids .cancelOrder events).Nodup := by
  induction stream with
  | nil => exact List.nodup_nil
  | @concat past ev _ follows ih =>
    rw [ids_concat]
    split
    · next type =>
      have fresh := (follows.named (by rw [type]; decide)).2
      apply List.Nodup.append ih (List.nodup_singleton ev.id)
      intro id before now
      rw [List.mem_singleton.mp now] at before
      exact fresh before
    · rw [List.append_nil]
      exact ih

theorem follows (stream : Stream events) {k : Nat} {ev : OrderEvent} (here : events[k]? = some ev) :
    Follows (events.take k) ev := by
  induction stream with
  | nil => cases here
  | @concat past last _ follows ih =>
    have inside := (List.getElem?_eq_some_iff.mp here).1
    rw [List.length_append, List.length_singleton] at inside
    rcases Nat.lt_succ_iff_lt_or_eq.mp inside with before | rfl
    · rw [List.getElem?_append_left before] at here
      rw [List.take_append_of_le_length (Nat.le_of_lt before)]
      exact ih here
    · rw [List.getElem?_concat_length, Option.some.injEq] at here
      rw [List.take_left, ← here]
      exact follows

theorem kth_added (stream : Stream events) {k : Nat} {ev : OrderEvent}
    (here : (events.filter (·.type = .addOrder))[k]? = some ev) : ev.id.toNat = k + 1 := by
  have number : ((ids .addOrder events).map UInt64.toNat)[k]? = some ev.id.toNat := by
    rw [ids, List.getElem?_map, List.getElem?_map, here]
    rfl
  rw [stream.numbered] at number
  obtain ⟨inside, value⟩ := List.getElem?_eq_some_iff.mp number
  rw [List.getElem_range'] at value
  omega

end Stream

theorem swapPop_perm {liveIds : List OrderId} {idx : Nat} {id : OrderId} (here : liveIds[idx]? = some id) :
    (id :: swapPop liveIds idx).Perm liveIds := by
  rcases List.eq_nil_or_concat' liveIds with rfl | ⟨front, back, rfl⟩
  · cases here
  · have inside := (List.getElem?_eq_some_iff.mp here).1
    rw [List.length_append, List.length_singleton] at inside
    rw [swapPop, here, List.getLast?_concat]
    simp only [List.length_append, List.length_singleton, Nat.add_sub_cancel]
    rcases Nat.lt_succ_iff_lt_or_eq.mp inside with before | rfl
    · rw [List.getElem?_append_left before] at here
      obtain ⟨_, element⟩ := List.getElem?_eq_some_iff.mp here
      rw [List.set_append_left _ _ before, List.set_append_right _ _ (by rw [List.length_set]),
        List.length_set, Nat.sub_self, List.set_cons_zero, List.dropLast_concat,
        List.set_eq_take_append_cons_drop, if_pos before]
      have split : front = front.take idx ++ id :: front.drop (idx + 1) := by
        rw [← element, List.getElem_cons_drop, List.take_append_drop]
      have moved : (id :: (front.take idx ++ back :: front.drop (idx + 1))).Perm
          (back :: (front.take idx ++ id :: front.drop (idx + 1))) := by
        apply (List.perm_middle.cons id).trans
        apply (List.Perm.swap back id _).trans
        exact List.perm_middle.symm.cons back
      rw [← split] at moved
      exact moved.trans (List.perm_append_singleton back front).symm
    · rw [List.getElem?_concat_length, Option.some.injEq] at here
      simp only [List.set_append_right _ _ (Nat.le_refl _), Nat.sub_self, List.set_cons_zero,
        List.dropLast_concat, here]
      exact (List.perm_append_singleton id front).symm

theorem pick_ok (source : RandomSource) {liveIds : List OrderId} (some_ : liveIds ≠ [])
    (small : liveIds.length < 2 ^ 64) (rng : source.State) :
    ∃ idx id rng', pick source liveIds rng = .ok (idx, id, rng') ∧ liveIds[idx]? = some id := by
  have positive : 0 < liveIds.length := List.length_pos_of_ne_nil some_
  have size : liveIds.length.toUInt64.toNat = liveIds.length := by
    rw [Nat.toUInt64_eq, UInt64.toNat_ofNat', Nat.mod_eq_of_lt small]
  have nonzero : liveIds.length.toUInt64 ≠ 0 := by
    intro zero
    rw [zero] at size
    exact absurd size (Nat.ne_of_lt positive)
  have inside : ((source.rng rng).1 % liveIds.length.toUInt64).toNat < liveIds.length := by
    rw [UInt64.toNat_mod, size]
    exact Nat.mod_lt _ positive
  have here := List.getElem?_eq_getElem inside
  refine ⟨_, _, (source.rng rng).2, ?_, here⟩
  simp only [pick, remainder, if_neg nonzero, ok_bind, here]

theorem rem_three (x : UInt64) : x % 3 = 0 ∨ x % 3 = 1 ∨ x % 3 = 2 := by
  have less : x.toNat % 3 < 3 := Nat.mod_lt _ (by decide)
  simp only [← UInt64.toNat_inj, UInt64.toNat_mod]
  change x.toNat % 3 = 0 ∨ x.toNat % 3 = 1 ∨ x.toNat % 3 = 2
  omega

theorem rem_two (x : UInt64) : x % 2 = 0 ∨ x % 2 = 1 := by
  have less : x.toNat % 2 < 2 := Nat.mod_lt _ (by decide)
  simp only [← UInt64.toNat_inj, UInt64.toNat_mod]
  change x.toNat % 2 = 0 ∨ x.toNat % 2 = 1
  omega

theorem drawPrice_priced (source : RandomSource) (i : UInt64) (rng : source.State) :
    Priced (drawPrice source i rng).1 (drawPrice source i rng).2.1 := by
  have crossingBuy : ∀ x : UInt64, Priced .buy (102 + (x % 3).toInt64) := by
    intro x
    rcases rem_three x with rem | rem | rem <;> rw [rem] <;> decide
  have crossingSell : ∀ x : UInt64, Priced .sell (98 - (x % 3).toInt64) := by
    intro x
    rcases rem_three x with rem | rem | rem <;> rw [rem] <;> decide
  have restingBuy : ∀ x : UInt64, Priced .buy (98 + (x % 3).toInt64) := by
    intro x
    rcases rem_three x with rem | rem | rem <;> rw [rem] <;> decide
  have restingSell : ∀ x : UInt64, Priced .sell (101 + (x % 2).toInt64) := by
    intro x
    rcases rem_two x with rem | rem <;> rw [rem] <;> decide
  unfold drawPrice
  split
  · exact crossingBuy _
  · split
    · exact crossingSell _
    · dsimp only
      split
      · exact restingBuy _
      · exact restingSell _

/-- Between two rounds: the events are a stream, and the list of live ids reflects them. -/
structure Tracks {source : RandomSource} (g : Generator source) (i : Nat) : Prop where
  stream : Stream g.events
  count : g.events.length = i
  next : g.nextId = UInt64.ofNat ((ids .addOrder g.events).length + 1)
  nodup : g.liveIds.Nodup
  live : ∀ id, id ∈ g.liveIds ↔ id ∈ ids .addOrder g.events ∧ id ∉ ids .cancelOrder g.events

namespace Tracks
variable {source : RandomSource} {g : Generator source} {i : Nat}

theorem added_le (tracks : Tracks g i) : (ids .addOrder g.events).length ≤ i := by
  rw [← tracks.count, ids, List.length_map]
  exact List.length_filter_le _ _

theorem live_le (tracks : Tracks g i) : g.liveIds.length ≤ i := by
  have inside : g.liveIds ⊆ ids .addOrder g.events := fun id member => ((tracks.live id).mp member).1
  exact (List.subperm_of_subset tracks.nodup inside).length_le.trans tracks.added_le

theorem next_id (tracks : Tracks g i) (small : i + 1 < 2 ^ 64) :
    g.nextId.toNat = (ids .addOrder g.events).length + 1 := by
  have few := tracks.added_le
  rw [tracks.next, UInt64.toNat_ofNat', Nat.mod_eq_of_lt (by omega)]

theorem next_fresh (tracks : Tracks g i) (small : i + 1 < 2 ^ 64) :
    g.nextId ∉ ids .addOrder g.events ∧ g.nextId ∉ ids .cancelOrder g.events := by
  have fresh : g.nextId ∉ ids .addOrder g.events := by
    intro added
    have bound := (tracks.stream.bounded added).2
    rw [tracks.next_id small] at bound
    omega
  exact ⟨fresh, fun cancelled => fresh (tracks.stream.cancelled_added cancelled)⟩

theorem addOrder (tracks : Tracks g i) (small : i + 1 < 2 ^ 64) (k : UInt64) (rng : source.State) :
    ∃ ev, (addOrder k g rng).events = g.events ++ [ev] ∧ Tracks (addOrder k g rng) (i + 1) := by
  obtain ⟨fresh, kept⟩ := tracks.next_fresh small
  refine ⟨_, rfl, ?_⟩
  exact
    { stream := tracks.stream.concat
        { numbered := fun _ => tracks.next_id small
          named := fun other => absurd rfl other
          quantity := fun _ => source.qty_range rng
          priced := fun _ => drawPrice_priced source k _ }
      count := by
        rw [EventStream.addOrder, List.length_append, tracks.count]
        rfl
      next := by
        change g.nextId + 1 = _
        rw [EventStream.addOrder, ids_concat, if_pos rfl, List.length_append, List.length_singleton,
          tracks.next]
        exact (UInt64.ofNat_add _ 1).symm
      nodup := by
        apply List.Nodup.append tracks.nodup (List.nodup_singleton g.nextId)
        intro id before now
        rw [List.mem_singleton.mp now] at before
        exact fresh ((tracks.live g.nextId).mp before).1
      live := by
        intro id
        simp only [EventStream.addOrder, ids_concat, List.mem_append, if_true, reduceCtorEq, if_false,
          List.append_nil, List.mem_singleton, tracks.live id]
        constructor
        · rintro (⟨added, stays⟩ | rfl)
          · exact ⟨Or.inl added, stays⟩
          · exact ⟨Or.inr rfl, kept⟩
        · rintro ⟨added | rfl, stays⟩
          · exact Or.inl ⟨added, stays⟩
          · exact Or.inr rfl }

theorem pick_named (tracks : Tracks g i) (some_ : g.liveIds ≠ []) (small : i + 1 < 2 ^ 64) (rng : source.State) :
    ∃ idx id rng', pick source g.liveIds rng = .ok (idx, id, rng') ∧ g.liveIds[idx]? = some id ∧
      id ∈ ids .addOrder g.events ∧ id ∉ ids .cancelOrder g.events := by
  have few := tracks.live_le
  obtain ⟨idx, id, rng', picked, here⟩ := pick_ok source some_ (by omega) rng
  exact ⟨idx, id, rng', picked, here, (tracks.live id).mp (List.mem_of_getElem? here)⟩

theorem cancelOrder (tracks : Tracks g i) (some_ : g.liveIds ≠ []) (small : i + 1 < 2 ^ 64)
    (rng : source.State) :
    ∃ ev g', cancelOrder g rng = .ok g' ∧ g'.events = g.events ++ [ev] ∧ Tracks g' (i + 1) := by
  obtain ⟨idx, id, rng', picked, here, named⟩ := tracks.pick_named some_ small rng
  have perm := swapPop_perm here
  obtain ⟨gone, distinct⟩ := List.nodup_cons.mp (perm.nodup_iff.mpr tracks.nodup)
  refine ⟨_, _, by rw [EventStream.cancelOrder, picked]; rfl, rfl, ?_⟩
  exact
    { stream := tracks.stream.concat
        { numbered := fun wrong => by cases wrong
          named := fun _ => named
          quantity := fun other => absurd rfl other
          priced := fun wrong => by cases wrong }
      count := by
        rw [List.length_append, tracks.count]
        rfl
      next := by
        rw [ids_concat, if_neg EventType.noConfusion, List.append_nil, tracks.next]
      nodup := distinct
      live := by
        intro other
        have split : other ∈ g.liveIds ↔ other = id ∨ other ∈ swapPop g.liveIds idx := by
          rw [← perm.mem_iff, List.mem_cons]
        have same := tracks.live other
        simp only [ids_concat, reduceCtorEq, if_false, if_true, List.append_nil, List.mem_append,
          List.mem_singleton, not_or, ← and_assoc, ← same, split]
        constructor
        · intro stays
          exact ⟨Or.inr stays, fun wrong => gone (wrong ▸ stays)⟩
        · rintro ⟨rfl | stays, differs⟩
          · exact absurd rfl differs
          · exact stays }

theorem modifyOrder (tracks : Tracks g i) (some_ : g.liveIds ≠ []) (small : i + 1 < 2 ^ 64)
    (rng : source.State) :
    ∃ ev g', modifyOrder g rng = .ok g' ∧ g'.events = g.events ++ [ev] ∧ Tracks g' (i + 1) := by
  obtain ⟨idx, id, rng', picked, here, named⟩ := tracks.pick_named some_ small rng
  refine ⟨_, _, by rw [EventStream.modifyOrder, picked]; rfl, rfl, ?_⟩
  exact
    { stream := tracks.stream.concat
        { numbered := fun wrong => by cases wrong
          named := fun _ => named
          quantity := fun _ => source.qty_range rng'
          priced := fun wrong => by cases wrong }
      count := by
        rw [List.length_append, tracks.count]
        rfl
      next := by
        rw [ids_concat, if_neg EventType.noConfusion, List.append_nil, tracks.next]
      nodup := tracks.nodup
      live := by
        intro other
        simp only [ids_concat, reduceCtorEq, if_false, List.append_nil, tracks.live other] }

/-- One round adds one event and keeps the list of live ids. Only an order that is added can do
without a live id. -/
theorem round (tracks : Tracks g i) (small : i + 1 < 2 ^ 64) (k : UInt64) :
    ∃ ev g', round k g = .ok g' ∧ g'.events = g.events ++ [ev] ∧ Tracks g' (i + 1) := by
  unfold EventStream.round
  dsimp only
  split
  · obtain ⟨ev, events, after⟩ := tracks.addOrder small k (source.roll g.rng).2
    exact ⟨ev, _, rfl, events, after⟩
  · next stay =>
    have some_ : g.liveIds ≠ [] := by
      rintro empty
      simp [empty] at stay
    split
    · exact tracks.cancelOrder some_ small _
    · exact tracks.modifyOrder some_ small _

end Tracks

section Runs
variable (source : RandomSource) (seed : UInt64)

theorem start_tracks : Tracks (⟨[], [], 1, source.seeded seed⟩ : Generator source) 0 where
  stream := .nil
  count := rfl
  next := rfl
  nodup := List.nodup_nil
  live := by simp [ids]

theorem generatorAt_tracks {i : Nat} (small : i < 2 ^ 64) :
    ∃ g, generatorAt source seed i = .ok g ∧ Tracks g i := by
  induction i with
  | zero => exact ⟨_, rfl, start_tracks source seed⟩
  | succ i ih =>
    obtain ⟨g, ran, tracks⟩ := ih (by omega)
    obtain ⟨ev, g', done, events, after⟩ := tracks.round small (UInt64.ofNat i)
    exact ⟨g', by rw [generatorAt, ran, ok_bind, done], after⟩

theorem generatorAt_earlier {i j : Nat} (before : i ≤ j) (small : j < 2 ^ 64) {g h : Generator source}
    (early : generatorAt source seed i = .ok g) (late : generatorAt source seed j = .ok h) :
    g.events <+: h.events := by
  induction before generalizing h with
  | refl =>
    rw [early] at late
    cases late
    exact List.prefix_rfl
  | @step j before ih =>
    obtain ⟨k, ran, tracks⟩ := generatorAt_tracks source seed (Nat.lt_of_succ_lt small)
    obtain ⟨ev, k', done, events, -⟩ := tracks.round small (UInt64.ofNat j)
    rw [generatorAt, ran, ok_bind, done] at late
    cases late
    rw [events]
    exact (ih (Nat.lt_of_succ_lt small) ran).trans (List.prefix_append _ _)

end Runs

/-- What is asked of the events that are returned. -/
structure WellFormed (n : UInt64) (events : List OrderEvent) : Prop where
  count : events.length = n.toNat
  numbered : ∀ k ev, (events.filter (·.type = .addOrder))[k]? = some ev → ev.id.toNat = k + 1
  increasing : (ids .addOrder events).Pairwise (· < ·)
  named : ∀ k ev, events[k]? = some ev → ev.type ≠ .addOrder →
    ev.id ∈ ids .addOrder (events.take k) ∧ ev.id ∉ ids .cancelOrder (events.take k)
  cancelledOnce : (ids .cancelOrder events).Nodup
  quantities : ∀ ev ∈ events, ev.type ≠ .cancelOrder → 1 ≤ ev.qty.toInt ∧ ev.qty.toInt ≤ 100
  prices : ∀ ev ∈ events, ev.type = .addOrder → Priced ev.side ev.price

theorem wellFormed_of_tracks {source : RandomSource} {g : Generator source} {n : UInt64}
    (tracks : Tracks g n.toNat) : WellFormed n g.events where
  count := tracks.count
  numbered _ _ here := tracks.stream.kth_added here
  increasing := tracks.stream.increasing
  named _ _ here other := (tracks.stream.follows here).named other
  cancelledOnce := tracks.stream.cancelled_once
  quantities ev member := by
    obtain ⟨k, here⟩ := List.mem_iff_getElem?.mp member
    exact (tracks.stream.follows here).quantity
  prices ev member := by
    obtain ⟨k, here⟩ := List.mem_iff_getElem?.mp member
    exact (tracks.stream.follows here).priced

theorem event_stream_well_formed (source : RandomSource) (n seed : UInt64) :
    ∃ events, generateEventStream source n seed = .ok events ∧ WellFormed n events ∧
      ∀ i, i ≤ n.toNat → ∃ g, generatorAt source seed i = .ok g ∧ g.events = events.take i ∧ g.liveIds.Nodup ∧
        ∀ id, id ∈ g.liveIds ↔
          id ∈ ids .addOrder (events.take i) ∧ id ∉ ids .cancelOrder (events.take i) := by
  have small := n.toNat_lt
  obtain ⟨g, ran, tracks⟩ := generatorAt_tracks source seed small
  refine ⟨g.events, by rw [generateEventStream, ran]; rfl, wellFormed_of_tracks tracks, fun i before => ?_⟩
  obtain ⟨h, reached, early⟩ := generatorAt_tracks source seed (Nat.lt_of_le_of_lt before small)
  have front := List.prefix_iff_eq_take.mp (generatorAt_earlier source seed before small reached ran)
  rw [early.count] at front
  refine ⟨h, reached, front, early.nodup, ?_⟩
  rw [← front]
  exact early.live

def dial : RandomSource where
  State := Fin 10
  seeded seed := Fin.ofNat 10 seed.toNat
  rng s := (UInt64.ofNat (7 * s), s + 3)
  roll s := (Int32.ofNat s, s + 1)
  side s := (Int32.ofNat (s % 2), s + 1)
  qty s := (Int64.ofNat (s + 1), s + 1)
  roll_range := by decide
  side_range := by decide
  qty_range := by decide

example : (generateEventStream dial 5 3).map (·.map fun ev => (ev.type, ev.id)) =
    .ok [(.addOrder, 1), (.modifyOrder, 1), (.addOrder, 2), (.addOrder, 3), (.cancelOrder, 2)] := by decide

end Syseng.OrderBook.EventStream
