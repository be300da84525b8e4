import Syseng.Support.OrderedMap
import Syseng.Support.Signed
import Syseng.Support.Text

/-! The display of a price level book: the first levels of both sides, from the highest price
to the lowest. -/

namespace Syseng.OrderBook.PriceLevels
open Support

abbrev Price := Int64

abbrev Qty := Int64

abbrev Level := Price × Qty

/-- The bids from the highest to the lowest, the asks from the lowest to the highest. -/
structure PriceLevelBook where
  bids : OrderedMap Price Qty (· > ·)
  asks : OrderedMap Price Qty (· < ·)

/-- It is not implemented yet. -/
def spread (_ : PriceLevelBook) : Price := -1

inductive Line where
  | ask (level : Level)
  | spread (price : Price)
  | bid (level : Level)
  deriving DecidableEq, Repr

/-- `  ask  %6lld   qty %8lld`, and the same for a bid. -/
def levelText (side : List UInt8) (level : Level) : List UInt8 :=
  side ++ Text.padded 6 level.1.toInt ++ Text.ascii "   qty " ++ Text.padded 8 level.2.toInt

def Line.text : Line → List UInt8
  | ask level => levelText (Text.ascii "  ask  ") level ++ Text.ascii "\n"
  | spread price => Text.ascii "  ---  spread: " ++ Text.decimal price.toInt ++ Text.ascii "  ---\n"
  | bid level => levelText (Text.ascii "  bid  ") level ++ Text.ascii "\n"

def size (top : List Level) : Int32 := Signed.ofSize top.length.toUInt64

/-- The size is compared after a level has been collected. -/
def collectAsks (n : Int32) : List Level → List Level → List Level
  | topAsks, [] => topAsks
  | topAsks, level :: asks =>
    if size (topAsks ++ [level]) ≥ n then topAsks ++ [level]
    else collectAsks n (topAsks ++ [level]) asks

def printAsks (topAsks : List Level) : Nat → Except Fault (List Line)
  | 0 => .ok []
  | i + 1 =>
    match topAsks[i]? with
    | some level => do
      let later ← printAsks topAsks i
      return .ask level :: later
    | none => .error .outOfRange

/-- The count is compared before a level is printed. -/
def printBids (n : Int32) : Int32 → List Level → Except Fault (List Line)
  | _, [] => .ok []
  | cnt, level :: bids =>
    if cnt ≥ n then .ok []
    else do
      let next ← Signed.add cnt 1
      let later ← printBids n next bids
      return .bid level :: later

def printTop (book : PriceLevelBook) (n : Int32) : Except Fault (List Line) := do
  let topAsks := collectAsks n [] book.asks.entries
  let last ← Signed.sub (size topAsks) 1
  let asks ← printAsks topAsks (last.toInt + 1).toNat
  let bids ← printBids n 0 book.bids.entries
  return asks ++ .spread (spread book) :: bids

theorem text_line (line : Line) : ∃ body, line.text = body ++ Text.ascii "\n" ∧ Text.byte '\n' ∉ body := by
  have decimal : ∀ p : Int64, Text.byte '\n' ∉ Text.decimal p.toInt := by
    intro p member
    exact absurd (Text.decimal_range member) (by decide)
  have padded : ∀ (width : Nat) (p : Int64), Text.byte '\n' ∉ Text.padded width p.toInt := by
    intro width p member
    exact absurd (Text.padded_range member) (by decide)
  have level : ∀ (side : List UInt8) (l : Level), Text.byte '\n' ∉ side → Text.byte '\n' ∉ levelText side l := by
    intro side l plain
    simp only [levelText, List.mem_append, not_or]
    exact ⟨⟨⟨plain, padded 6 l.1⟩, by decide⟩, padded 8 l.2⟩
  cases line with
  | ask l => exact ⟨_, rfl, level _ l (by decide)⟩
  | bid l => exact ⟨_, rfl, level _ l (by decide)⟩
  | spread p =>
    refine ⟨Text.ascii "  ---  spread: " ++ Text.decimal p.toInt ++ Text.ascii "  ---", ?_, ?_⟩
    · simp only [Line.text, List.append_assoc]
      rfl
    · simp only [List.mem_append, not_or]
      exact ⟨⟨by decide, decimal p⟩, by decide⟩

theorem size_exact (top : List Level) (small : top.length < 2 ^ 31) : (size top).toInt = top.length := by
  have narrow : top.length.toUInt64.toNat = top.length := by
    rw [Nat.toUInt64_eq, UInt64.toNat_ofNat']
    omega
  rw [size, Signed.toInt_ofSize, narrow, if_pos (by omega)]
  omega

theorem collectAsks_take {n : Int32} {topAsks : List Level} (room : topAsks.length < max n.toInt 1)
    (asks : List Level) :
    collectAsks n topAsks asks = topAsks ++ asks.take ((max n.toInt 1).toNat - topAsks.length) := by
  have bound := n.toInt_lt
  induction asks generalizing topAsks with
  | nil => simp [collectAsks]
  | cons level asks ih =>
    have longer : (topAsks ++ [level]).length = topAsks.length + 1 := List.length_append
    have value := size_exact (topAsks ++ [level]) (by omega)
    have left : (max n.toInt 1).toNat - topAsks.length =
        (max n.toInt 1).toNat - (topAsks.length + 1) + 1 := by omega
    rw [left, List.take_succ_cons, collectAsks]
    by_cases full : size (topAsks ++ [level]) ≥ n
    · have reached := Int32.le_iff_toInt_le.mp full
      have nothing : (max n.toInt 1).toNat - (topAsks.length + 1) = 0 := by omega
      rw [if_pos full, nothing, List.take_zero]
    · have missing := Int32.lt_iff_toInt_lt.mp (Int32.not_le.mp full)
      rw [if_neg full, ih (by omega), longer, List.append_assoc, List.singleton_append]

theorem printAsks_reverse {topAsks : List Level} {i : Nat} (inside : i ≤ topAsks.length) :
    printAsks topAsks i = .ok ((topAsks.take i).reverse.map Line.ask) := by
  induction i with
  | zero => simp [printAsks]
  | succ i ih =>
    have here : topAsks[i]? = some topAsks[i] := List.getElem?_eq_getElem inside
    have more : topAsks.take (i + 1) = topAsks.take i ++ [topAsks[i]] := by
      rw [List.take_add_one, here, Option.toList_some]
    rw [printAsks, here, more, List.reverse_append, List.reverse_singleton, List.singleton_append,
      List.map_cons]
    simp [ih (by omega)]

theorem printBids_take {n cnt : Int32} (low : 0 ≤ cnt.toInt) (below : cnt.toInt ≤ n.toInt)
    (bids : List Level) :
    printBids n cnt bids = .ok ((bids.take (n.toInt - cnt.toInt).toNat).map Line.bid) := by
  have bound := n.toInt_lt
  induction bids generalizing cnt with
  | nil => simp [printBids]
  | cons level bids ih =>
    rw [printBids]
    by_cases full : cnt ≥ n
    · have reached := Int32.le_iff_toInt_le.mp full
      have nothing : (n.toInt - cnt.toInt).toNat = 0 := by omega
      rw [if_pos full, nothing, List.take_zero, List.map_nil]
    · have missing := Int32.lt_iff_toInt_lt.mp (Int32.not_le.mp full)
      obtain ⟨next, made, value⟩ := Signed.add_one_below (Int32.not_le.mp full)
      have left : (n.toInt - cnt.toInt).toNat = (n.toInt - next.toInt).toNat + 1 := by omega
      rw [if_neg full, made, ok_bind, ih (by omega) (by omega), ok_bind, left, List.take_succ_cons,
        List.map_cons]
      rfl

theorem printTop_eq (book : PriceLevelBook) {n : Int32} (nonneg : 0 ≤ n) :
    printTop book n = .ok ((book.asks.entries.take (max n.toInt 1).toNat).reverse.map Line.ask ++
      Line.spread (spread book) :: (book.bids.entries.take n.toInt.toNat).map Line.bid) := by
  have low : 0 ≤ n.toInt := Int32.le_iff_toInt_le.mp nonneg
  have bound := n.toInt_lt
  have collected : collectAsks n [] book.asks.entries = book.asks.entries.take (max n.toInt 1).toNat :=
    collectAsks_take (by simp) book.asks.entries
  unfold printTop
  rw [collected]
  generalize same : book.asks.entries.take (max n.toInt 1).toNat = topAsks
  have short : topAsks.length ≤ (max n.toInt 1).toNat := same ▸ List.length_take_le _ _
  have value := size_exact topAsks (by omega)
  have inside : Signed.InRange ((size topAsks).toInt - (1 : Int32).toInt) := by
    change -2147483648 ≤ (size topAsks).toInt - 1 ∧ (size topAsks).toInt - 1 ≤ 2147483647
    omega
  obtain ⟨last, made, before⟩ := Signed.check_ok inside
  change last.toInt = (size topAsks).toInt - 1 at before
  have start : (last.toInt + 1).toNat = topAsks.length := by omega
  have zero : 0 ≤ (0 : Int32).toInt := Int.le_refl 0
  have bids := printBids_take zero low book.bids.entries
  change _ = Except.ok ((book.bids.entries.take (n.toInt - 0).toNat).map Line.bid) at bids
  rw [Int.sub_zero] at bids
  simp only [Signed.sub, made, start, printAsks_reverse (Nat.le_refl _), List.take_length, bids, ok_bind]
  rfl

/-- What is asked of the display, where `asks` and `bids` are the levels shown of the two sides from top
to bottom. -/
structure Shown (book : PriceLevelBook) (n : Int32) (asks bids : List Level) : Prop where
  lowestAsks : book.asks.First n.toInt.toNat asks.reverse
  highestBids : book.bids.First n.toInt.toNat bids
  asksDescend : asks.Pairwise fun e f => e.1 > f.1
  bidsDescend : bids.Pairwise fun e f => e.1 > f.1
  descends : (∀ e ∈ book.asks.entries, ∀ f ∈ book.bids.entries, f.1 < e.1) →
    (asks ++ bids).Pairwise fun e f => e.1 > f.1
  bestAsk : ∀ e, asks.getLast? = some e → ∀ f ∈ book.asks.entries, e.1 ≤ f.1
  bestBid : ∀ e, bids.head? = some e → ∀ f ∈ book.bids.entries, f.1 ≤ e.1

def ShowsTop (book : PriceLevelBook) (n : Int32) : Prop :=
  ∃ asks bids, printTop book n = .ok (asks.map Line.ask ++ Line.spread (spread book) :: bids.map Line.bid) ∧
    Shown book n asks bids

theorem shown_of_first {book : PriceLevelBook} {n : Int32} {asks bids : List Level}
    (lowest : book.asks.First n.toInt.toNat asks.reverse) (highest : book.bids.First n.toInt.toNat bids) :
    Shown book n asks bids := by
  have descend : asks.Pairwise fun e f => e.1 > f.1 := List.pairwise_reverse.mp lowest.sorted
  exact
    { lowestAsks := lowest
      highestBids := highest
      asksDescend := descend
      bidsDescend := highest.sorted
      descends := by
        intro apart
        apply List.pairwise_append.mpr ⟨descend, highest.sorted, _⟩
        intro e ask f bid
        exact apart e (lowest.member e (List.mem_reverse.mpr ask)) f (highest.member f bid)
      bestAsk := by
        intro e last f member
        rw [← List.head?_reverse] at last
        rcases OrderedMap.first_head lowest last f member with rfl | above
        · exact Int64.le_refl f.1
        · exact Int64.le_of_lt above
      bestBid := by
        intro e head f member
        rcases OrderedMap.first_head highest head f member with rfl | below
        · exact Int64.le_refl f.1
        · exact Int64.le_of_lt below }

theorem zero_shows_ask {book : PriceLevelBook} {n : Int32} (zero : n.toInt = 0)
    (some_ : book.asks.entries ≠ []) : ¬ ShowsTop book n := by
  rintro ⟨asks, bids, printed, shown⟩
  have count := shown.lowestAsks.count
  rw [zero, Int.toNat_zero, Nat.zero_min, List.length_reverse, List.length_eq_zero_iff] at count
  obtain ⟨level, others, entries⟩ := List.exists_cons_of_ne_nil some_
  have nonneg : 0 ≤ n := Int32.le_iff_toInt_le.mpr (by rw [zero]; decide)
  rw [printTop_eq book nonneg, zero, count, entries] at printed
  cases printed

theorem shows_enough {book : PriceLevelBook} {n : Int32} (nonneg : 0 ≤ n)
    (enough : 1 ≤ n.toInt ∨ book.asks.entries = []) : ShowsTop book n := by
  have same : book.asks.entries.take (max n.toInt 1).toNat = book.asks.entries.take n.toInt.toNat := by
    rcases enough with some_ | empty
    · rw [Int.max_eq_left some_]
    · rw [empty, List.take_nil, List.take_nil]
  have lowest := book.asks.first_take n.toInt.toNat
  rw [← List.reverse_reverse (book.asks.entries.take n.toInt.toNat)] at lowest
  refine ⟨_, _, ?_, shown_of_first lowest (book.bids.first_take n.toInt.toNat)⟩
  rw [printTop_eq book nonneg, same]

/-- One ask at 101, and no level asked for. -/
theorem print_top_shows_one_ask :
    ¬ ShowsTop ⟨⟨[], List.Pairwise.nil⟩, ⟨[(101, 5)], List.pairwise_singleton _ _⟩⟩ 0 :=
  zero_shows_ask rfl (by decide)

theorem print_top_iff (book : PriceLevelBook) {n : Int32} (nonneg : 0 ≤ n) :
    ShowsTop book n ↔ 1 ≤ n.toInt ∨ book.asks.entries = [] := by
  have low : 0 ≤ n.toInt := Int32.le_iff_toInt_le.mp nonneg
  constructor
  · intro shows_
    by_contra neither
    obtain ⟨few, some_⟩ := not_or.mp neither
    exact zero_shows_ask (by omega) some_ shows_
  · exact shows_enough nonneg

def sample : PriceLevelBook where
  bids := ⟨[(99, 100), (98, 200)], by decide⟩
  asks := ⟨[(101, 10), (102, 20), (103, 30)], by decide⟩

theorem print_top_two : ShowsTop sample 2 := (print_top_iff sample (by decide)).mpr (Or.inl (by decide))

example : printTop sample 2 =
    .ok [.ask (102, 20), .ask (101, 10), .spread (-1), .bid (99, 100), .bid (98, 200)] := by decide

end Syseng.OrderBook.PriceLevels
