import Syseng.OrderBook.PriceLevels

/-! What the printed text of the first levels says about them: it can be read back, whatever the prices
and quantities are. -/

namespace Syseng.OrderBook.PriceLevels
open Support

def Line.body : Line → List UInt8
  | ask level => levelText (Text.ascii "  ask  ") level
  | spread price => Text.ascii "  ---  spread: " ++ Text.decimal price.toInt ++ Text.ascii "  ---"
  | bid level => levelText (Text.ascii "  bid  ") level

theorem text_eq_body (line : Line) : line.text = line.body ++ [Text.byte '\n'] := by
  cases line with
  | ask level => rfl
  | spread price =>
    simp only [Line.text, Line.body, List.append_assoc]
    rfl
  | bid level => rfl

theorem body_clean (line : Line) : Text.byte '\n' ∉ line.body := by
  obtain ⟨body, text, clean⟩ := text_line line
  rw [text_eq_body] at text
  rwa [(List.append_inj' text rfl).1]

theorem level_split (side : List UInt8) (level : Level) : levelText side level =
    (side ++ Text.padded 6 level.1.toInt ++ Text.ascii "   ") ++
      Text.byte 'q' :: (Text.ascii "ty " ++ Text.padded 8 level.2.toInt) := by
  simp only [levelText, List.append_assoc]
  rfl

/-- The `q` of the word between them tells the price from the quantity. -/
theorem levelText_injective {side : List UInt8} (plain : Text.byte 'q' ∉ side) {level level' : Level}
    (same : levelText side level = levelText side level') : level = level' := by
  have absent : ∀ l : Level, Text.byte 'q' ∉ side ++ Text.padded 6 l.1.toInt ++ Text.ascii "   " := by
    intro l
    simp only [List.mem_append, not_or]
    exact ⟨⟨plain, fun member => absurd (Text.padded_range member) (by decide)⟩, by decide⟩
  rw [level_split, level_split] at same
  obtain ⟨front, back⟩ := Text.split_first (absent level) (absent level') same
  have price := Text.padded_injective
    (List.append_cancel_left (List.append_cancel_right front))
  have qty := Text.padded_injective (List.append_cancel_left back)
  exact Prod.ext (Int64.toInt_inj.mp price) (Int64.toInt_inj.mp qty)

def Line.mark : Line → UInt8
  | ask _ => Text.byte 'a'
  | spread _ => Text.byte '-'
  | bid _ => Text.byte 'b'

theorem body_third (line : Line) : line.body[2]? = some line.mark := by
  cases line with
  | ask level => rfl
  | spread price => rfl
  | bid level => rfl

theorem mark_eq {line line' : Line} (same : line.body = line'.body) : line.mark = line'.mark := by
  have third := body_third line
  rw [same, body_third line'] at third
  exact (Option.some.inj third).symm

theorem body_injective {line line' : Line} (same : line.body = line'.body) : line = line' := by
  have mark := mark_eq same
  cases line with
  | ask level =>
    cases line' with
    | ask level' => rw [levelText_injective (by decide) same]
    | spread price => exact absurd (show Text.byte 'a' = Text.byte '-' from mark) (by decide)
    | bid level' => exact absurd (show Text.byte 'a' = Text.byte 'b' from mark) (by decide)
  | spread price =>
    cases line' with
    | ask level => exact absurd (show Text.byte '-' = Text.byte 'a' from mark) (by decide)
    | spread price' =>
      have decimal := List.append_cancel_left (List.append_cancel_right same)
      rw [Int64.toInt_inj.mp (Text.decimal_injective decimal)]
    | bid level => exact absurd (show Text.byte '-' = Text.byte 'b' from mark) (by decide)
  | bid level =>
    cases line' with
    | ask level' => exact absurd (show Text.byte 'b' = Text.byte 'a' from mark) (by decide)
    | spread price => exact absurd (show Text.byte 'b' = Text.byte '-' from mark) (by decide)
    | bid level' => rw [levelText_injective (by decide) same]

theorem text_injective {lines lines' : List Line}
    (same : lines.flatMap Line.text = lines'.flatMap Line.text) : lines = lines' := by
  have records : ∀ ls : List Line, ls.flatMap Line.text =
      (ls.map Line.body).flatMap (· ++ [Text.byte '\n']) := by
    intro ls
    rw [List.flatMap_map]
    exact List.flatMap_congr fun line _ => text_eq_body line
  have clean : ∀ ls : List Line, ∀ body ∈ ls.map Line.body, Text.byte '\n' ∉ body := by
    intro ls body member
    obtain ⟨line, -, rfl⟩ := List.mem_map.mp member
    exact body_clean line
  rw [records, records] at same
  have bodies := Text.records_injective (clean lines) (clean lines') same
  exact List.map_injective_iff.mpr (fun _ _ => body_injective) bodies

theorem sides_injective {asks asks' bids bids' : List Level} {p p' : Price}
    (same : asks.map Line.ask ++ Line.spread p :: bids.map Line.bid =
      asks'.map Line.ask ++ Line.spread p' :: bids'.map Line.bid) : asks = asks' ∧ p = p' ∧ bids = bids' := by
  induction asks generalizing asks' with
  | nil =>
    cases asks' with
    | nil =>
      obtain ⟨spread, rest⟩ := List.cons.inj same
      have levels := List.map_injective_iff.mpr (fun _ _ => Line.bid.inj) rest
      exact ⟨rfl, Line.spread.inj spread, levels⟩
    | cons level asks' => cases (List.cons.inj same).1
  | cons level asks ih =>
    cases asks' with
    | nil => cases (List.cons.inj same).1
    | cons level' asks' =>
      obtain ⟨first, rest⟩ := List.cons.inj same
      obtain ⟨others, spread, bids⟩ := ih rest
      exact ⟨by rw [Line.ask.inj first, others], spread, bids⟩

/-- Two displays with the same text are displays of the same levels. -/
theorem top_text_injective {book book' : PriceLevelBook} {n n' : Int32} (nonneg : 0 ≤ n) (nonneg' : 0 ≤ n')
    {lines lines' : List Line} (printed : printTop book n = .ok lines) (printed' : printTop book' n' = .ok lines')
    (same : lines.flatMap Line.text = lines'.flatMap Line.text) :
    book.asks.entries.take (max n.toInt 1).toNat = book'.asks.entries.take (max n'.toInt 1).toNat ∧
      book.bids.entries.take n.toInt.toNat = book'.bids.entries.take n'.toInt.toNat ∧
      spread book = spread book' := by
  rw [printTop_eq book nonneg] at printed
  rw [printTop_eq book' nonneg'] at printed'
  cases printed
  cases printed'
  obtain ⟨asks, spreads, bids⟩ := sides_injective (text_injective same)
  exact ⟨List.reverse_injective asks, bids, spreads⟩

def deeper : PriceLevelBook where
  bids := ⟨[(99, 100), (98, 200), (97, 5)], by decide⟩
  asks := ⟨[(101, 10), (102, 20)], by decide⟩

theorem top_text_injective_sample :
    sample.asks.entries.take (max (2 : Int32).toInt 1).toNat =
        deeper.asks.entries.take (max (2 : Int32).toInt 1).toNat ∧
      sample.bids.entries.take (2 : Int32).toInt.toNat = deeper.bids.entries.take (2 : Int32).toInt.toNat ∧
      spread sample = spread deeper := by
  have printed : printTop sample 2 = .ok [.ask (102, 20), .ask (101, 10), .spread (-1), .bid (99, 100),
    .bid (98, 200)] := by decide
  have printed' : printTop deeper 2 = .ok [.ask (102, 20), .ask (101, 10), .spread (-1), .bid (99, 100),
    .bid (98, 200)] := by decide
  exact top_text_injective (by decide) (by decide) printed printed' rfl

end Syseng.OrderBook.PriceLevels
