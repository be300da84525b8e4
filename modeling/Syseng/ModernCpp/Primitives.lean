import Syseng.CForProgrammers.StringCompare
import Syseng.Support.Text

/-! `symbol_id`, which looks a name up in a table of tickers. -/

namespace Syseng.ModernCpp.Primitives
open Support CForProgrammers.Strings

structure Symbol where
  name : CharPtr
  id : Int32

/-- `SYMBOL_TABLE` as it is written. -/
def symbolTable : List (CString × Int32) :=
  [(⟨Text.ascii "AAPL", by decide⟩, 0), (⟨Text.ascii "MSFT", by decide⟩, 1),
    (⟨Text.ascii "GOOG", by decide⟩, 2), (⟨Text.ascii "AMZN", by decide⟩, 3),
    (⟨Text.ascii "META", by decide⟩, 4), (⟨Text.ascii "NVDA", by decide⟩, 5),
    (⟨Text.ascii "TSLA", by decide⟩, 6), (⟨Text.ascii "JPM", by decide⟩, 7)]

def symbol (literal : CString → CharPtr) (entry : CString × Int32) : Symbol :=
  { name := literal entry.1, id := entry.2 }

/-- `while (*ticker != 0 && *name != 0 && *ticker == *name)`, with every read that it makes. -/
def compareLoop : Nat → Bytes → CharPtr → CharPtr → Except Fault (Bytes × CharPtr × CharPtr)
  | 0, _, _, _ => .error .diverged
  | bound + 1, mem, ticker, name => do
    let (mem, c) ← mem.load ticker
    if c ≠ 0 then
      let (mem, d) ← mem.load name
      if d ≠ 0 then
        let (mem, c) ← mem.load ticker
        let (mem, d) ← mem.load name
        if c = d then compareLoop bound mem (ticker.plus 1) (name.plus 1) else .ok (mem, ticker, name)
      else .ok (mem, ticker, name)
    else .ok (mem, ticker, name)

/-- The entries from here on. The name is rewound to its start after each that does not match. -/
def searchLoop (start : CharPtr) : Bytes → CharPtr → List Symbol → Except Fault (Bytes × Int32)
  | mem, _, [] => .ok (mem, -1)
  | mem, name, s :: symbols => do
    let ticker := s.name
    let id := s.id
    let (mem, ticker, name) ← compareLoop (mem.extent ticker + 1) mem ticker name
    let (mem, c) ← mem.load ticker
    if c = 0 then
      let (mem, d) ← mem.load name
      if d = 0 then .ok (mem, id) else searchLoop start mem start symbols
    else searchLoop start mem start symbols

def symbolId (literal : CString → CharPtr) (mem : Bytes) (name : CharPtr) : Except Fault (Bytes × Int32) :=
  let start := name
  searchLoop start mem name (symbolTable.map (symbol literal))

theorem compareLoop_walks : Walks compareLoop := by
  intro bound mem s t c d first second
  have start := Memory.Touches.refl (R := fun p => p = s ∨ p = t) (W := fun _ => False) mem
  have one := start.look (p := s) (Or.inl rfl)
  have two := one.look (p := t) (Or.inr rfl)
  have load := Memory.load_ok first
  have next := Memory.load_after s second
  by_cases endC : c = 0
  · refine ⟨_, one, ?_⟩
    simp [compareLoop, load, endC]
  · by_cases endD : d = 0
    · have differ : c ≠ d := fun same => endC (same.trans endD)
      refine ⟨_, two, ?_⟩
      simp [compareLoop, load, endC, next, endD]
    · have load' : ((mem.noted s).noted t).load s = .ok (((mem.noted s).noted t).noted s, c) :=
        Memory.load_ok first
      have next' : (((mem.noted s).noted t).noted s).load t =
        .ok ((((mem.noted s).noted t).noted s).noted t, d) := Memory.load_ok second
      refine ⟨_, (two.look (p := s) (Or.inl rfl)).look (p := t) (Or.inr rfl), ?_⟩
      simp [compareLoop, load, endC, next, endD, load', next']

def lookup (a : CString) : List (CString × Int32) → Int32
  | [] => -1
  | (s, id) :: entries => if s.bytes = a.bytes then id else lookup a entries

theorem searchLoop_round {mem : Bytes} {s p : CharPtr} {b a : CString} (ticker : Holds mem s b)
    (name : Holds mem p a) (i : Int32) (symbols : List Symbol) :
    ∃ u, mem.Touches u (Compared s b.bytes p a.bytes) (fun _ => False) ∧
      searchLoop p mem p ({ name := s, id := i } :: symbols) =
        if b.bytes = a.bytes then .ok (u, i) else searchLoop p u p symbols := by
  obtain ⟨w, s', p', c, d, walked, stopped⟩ := compareLoop_walks.stopped ticker name
  have load := Memory.load_ok stopped.first
  have next := Memory.load_after s' stopped.second
  have one := stopped.touches.look stopped.readFirst
  by_cases endC : c = 0
  · refine ⟨_, one.look stopped.readSecond, ?_⟩
    by_cases endD : d = 0
    · rw [if_pos (stopped.ends.mp ⟨endC, endD⟩)]
      simp [searchLoop, walked, load, endC, next, endD]
    · rw [if_neg fun same => endD (stopped.ends.mpr same).2]
      simp [searchLoop, walked, load, endC, next, endD]
  · refine ⟨_, one, ?_⟩
    rw [if_neg fun same => endC (stopped.ends.mpr same).1]
    simp [searchLoop, walked, load, endC]

theorem searchLoop_ok {literal : CString → CharPtr} {mem : Bytes} {p : CharPtr} {a : CString}
    {R : CharPtr → Prop} (name : Holds mem p a) (readName : ∀ q, p.Covers (a.bytes.length + 1) q → R q)
    {entries : List (CString × Int32)} (tickers : ∀ e ∈ entries, Holds mem (literal e.1) e.1)
    (readTickers : ∀ e ∈ entries, ∀ q, (literal e.1).Covers (e.1.bytes.length + 1) q → R q) :
    ∃ u, searchLoop p mem p (entries.map (symbol literal)) = .ok (u, lookup a entries) ∧
      mem.Touches u R fun _ => False := by
  induction entries generalizing mem with
  | nil => exact ⟨mem, rfl, Memory.Touches.refl mem⟩
  | cons e entries ih =>
    obtain ⟨s, i⟩ := e
    obtain ⟨ticker, others⟩ := List.forall_mem_cons.mp tickers
    obtain ⟨readTicker, readOthers⟩ := List.forall_mem_cons.mp readTickers
    obtain ⟨u, touches, round⟩ := searchLoop_round ticker name i (entries.map (symbol literal))
    have here := touches.mono (fun q => Or.rec (readTicker q) (readName q)) fun _ => id
    change ∃ v, searchLoop p mem p ({ name := literal s, id := i } :: _) = _ ∧ _
    rw [round, lookup]
    by_cases same : s.bytes = a.bytes
    · rw [if_pos same, if_pos same]
      exact ⟨u, rfl, here⟩
    · obtain ⟨v, searched, later⟩ := ih (touches.stores name fun _ _ => id)
        (fun e member => touches.stores (others e member) fun _ _ => id) readOthers
      rw [if_neg same, if_neg same]
      exact ⟨v, searched, here.trans later⟩

theorem lookup_mem {a : CString} {entries : List (CString × Int32)} (known : lookup a entries ≠ -1) :
    (a, lookup a entries) ∈ entries := by
  induction entries with
  | nil => exact absurd rfl known
  | cons e entries ih =>
    obtain ⟨s, i⟩ := e
    unfold lookup at known ⊢
    split
    · next same =>
      rw [CString.ext same]
      exact List.mem_cons_self
    · next other =>
      rw [if_neg other] at known
      exact List.mem_cons_of_mem _ (ih known)

theorem lookup_of_mem {a : CString} {i : Int32} {entries : List (CString × Int32)}
    (distinct : (entries.map fun e => e.1.bytes).Nodup) (member : (a, i) ∈ entries) :
    lookup a entries = i := by
  induction entries with
  | nil => cases member
  | cons e entries ih =>
    obtain ⟨absent, others⟩ := List.nodup_cons.mp distinct
    unfold lookup
    rcases List.mem_cons.mp member with rfl | later
    · exact if_pos rfl
    · have other : e.1.bytes ≠ a.bytes := by
        intro same
        apply absent
        exact List.mem_map.mpr ⟨(a, i), later, same.symm⟩
      rw [if_neg other]
      exact ih others later

/-- What the result for `a` says. No ticker is the beginning of another one, so that one byte
more or less than a ticker is not found. -/
structure Finds (a : CString) (r : Int32) : Prop where
  entry : ∀ i, i ≠ -1 → (r = i ↔ (a, i) ∈ symbolTable)
  unknown : r = -1 ↔ ∀ i, (a, i) ∉ symbolTable
  near : ∀ s i, (s, i) ∈ symbolTable → s ≠ a → a.bytes <+: s.bytes ∨ s.bytes <+: a.bytes → r = -1

theorem tickers_distinct : (symbolTable.map fun e => e.1.bytes).Nodup := by decide

theorem tickers_apart : ∀ e ∈ symbolTable, ∀ f ∈ symbolTable, e.1.bytes <+: f.1.bytes → e.1.bytes = f.1.bytes := by
  decide

theorem ids_distinct : ∀ e ∈ symbolTable, ∀ f ∈ symbolTable, e.2 = f.2 → e.1.bytes = f.1.bytes := by decide

theorem ids_nonneg : ∀ e ∈ symbolTable, e.2 ≠ -1 := by decide

theorem lookup_finds (a : CString) : Finds a (lookup a symbolTable) where
  entry i known := by
    constructor
    · rintro rfl
      exact lookup_mem known
    · exact lookup_of_mem tickers_distinct
  unknown := by
    constructor
    · intro unknown i member
      exact ids_nonneg _ member ((lookup_of_mem tickers_distinct member).symm.trans unknown)
    · intro absent
      by_contra known
      exact absent _ (lookup_mem known)
  near s i member other near := by
    by_contra known
    have listed := lookup_mem known
    apply other
    ext1
    rcases near with shorter | longer
    · exact (tickers_apart _ listed _ member shorter).symm
    · exact tickers_apart _ member _ listed longer

def Readable (literal : CString → CharPtr) (p : CharPtr) (a : CString) (q : CharPtr) : Prop :=
  p.Covers (a.bytes.length + 1) q ∨
    ∃ e ∈ symbolTable, (literal e.1).Covers (e.1.bytes.length + 1) q

def Tickers (mem : Bytes) (literal : CString → CharPtr) : Prop :=
  ∀ e ∈ symbolTable, Holds mem (literal e.1) e.1

theorem symbolId_ok {literal : CString → CharPtr} {mem : Bytes} {p : CharPtr} {a : CString}
    (tickers : Tickers mem literal) (name : Holds mem p a) :
    ∃ u, symbolId literal mem p = .ok (u, lookup a symbolTable) ∧
      mem.Touches u (Readable literal p a) fun _ => False := by
  apply searchLoop_ok name (fun _ => Or.inl) tickers
  intro e member q covers
  exact Or.inr ⟨e, member, covers⟩

theorem symbol_id_exact {literal : CString → CharPtr} {mem : Bytes} {p : CharPtr} {a : CString}
    (tickers : Tickers mem literal) (name : Holds mem p a) :
    ∃ u r, symbolId literal mem p = .ok (u, r) ∧ Finds a r ∧
      mem.Touches u (Readable literal p a) (fun _ => False) ∧
      ∀ (mem' w : Bytes) (q : CharPtr) (b : CString), Tickers mem' literal → Holds mem' q b →
        symbolId literal mem' q = .ok (w, r) → r ≠ -1 → b = a := by
  obtain ⟨u, done, touches⟩ := symbolId_ok tickers name
  refine ⟨u, _, done, lookup_finds a, touches, ?_⟩
  intro mem' w q b tickers' held again known
  obtain ⟨v, done', -⟩ := symbolId_ok tickers' held
  rw [done', Except.ok.injEq, Prod.mk.injEq] at again
  obtain ⟨-, same⟩ := again
  have listed := lookup_mem known
  have listed' := lookup_mem (same ▸ known)
  ext1
  exact ids_distinct _ listed' _ listed same

theorem exists_holds {mem : Bytes} {p : CharPtr} {texts : List CString}
    (stores : mem.Stores p (texts.flatMap CString.stored)) (s : CString) :
    ∃ q, s ∈ texts → Holds mem q s := by
  by_cases member : s ∈ texts
  · obtain ⟨front, back, rfl⟩ := List.append_of_mem member
    rw [List.flatMap_append, List.flatMap_cons] at stores
    obtain ⟨-, rest⟩ := Memory.stores_append.mp stores
    exact ⟨_, fun _ => (Memory.stores_append.mp rest).1⟩
  · exact ⟨p, fun other => absurd other member⟩

theorem symbol_id_exact_googl : ∃ (literal : CString → CharPtr) (mem u : Bytes) (p : CharPtr),
    Holds mem p ⟨Text.ascii "GOOGL", by decide⟩ ∧ symbolId literal mem p = .ok (u, -1) := by
  obtain ⟨mem, stores, -⟩ := Memory.exists_stores 10
    ((⟨Text.ascii "GOOGL", by decide⟩ :: symbolTable.map Prod.fst).flatMap CString.stored)
  choose literal holds using exists_holds stores
  have name := holds ⟨Text.ascii "GOOGL", by decide⟩ List.mem_cons_self
  have tickers : Tickers mem literal := fun e member =>
    holds e.1 (List.mem_cons_of_mem _ (List.mem_map_of_mem member))
  obtain ⟨u, r, done, finds, -, -⟩ := symbol_id_exact tickers name
  have goog : (⟨Text.ascii "GOOG", by decide⟩, 2) ∈ symbolTable := List.mem_of_getElem? (i := 2) rfl
  have unknown : r = -1 := by
    apply finds.near _ _ goog
    · intro same
      exact absurd (congrArg CString.bytes same) (by decide)
    · exact Or.inr (by decide)
  exact ⟨literal, mem, u, _, name, unknown ▸ done⟩

end Syseng.ModernCpp.Primitives
