import Syseng.Support.Framing
import Syseng.Support.Text

/-! FIX messages as they are built, and the length that frames them in a stream of bytes. -/

namespace Syseng.Networking.FixFramer
open Support Framing

def SOH : UInt8 := 1

abbrev Field := Int32 × List UInt8

/-- `std::to_string(tag) + "=" + val + SOH`. -/
def fieldText (field : Field) : List UInt8 :=
  Text.decimal field.1.toInt ++ Text.ascii "=" ++ field.2 ++ [SOH]

/-- The tags that are generated are skipped. -/
def buildBody (fields : List Field) : List UInt8 :=
  fields.foldl (fun body field =>
    if field.1 = 8 ∨ field.1 = 9 ∨ field.1 = 10 then body else body ++ fieldText field) []

def buildHead (body : List UInt8) : List UInt8 :=
  Text.ascii "8=FIX.4.2" ++ [SOH] ++ Text.ascii "9=" ++ Text.digits body.length ++ [SOH] ++ body

def checksumText (cksum : UInt8) : List UInt8 := (Text.zeroPadded 3 cksum.toNat).take 7

def trailer (cksum : UInt8) : List UInt8 := Text.ascii "10=" ++ checksumText cksum ++ [SOH]

def buildFixMessage (fixChecksum : List UInt8 → UInt8) (fields : List Field) : List UInt8 :=
  let msg := buildHead (buildBody fields)
  msg ++ trailer (fixChecksum msg)

/-- The length that the comment on `feed` gives: the end of `9=N` and its separator, and then `N + 7`. -/
def frameLength (buffer : List UInt8) : Option Nat := do
  let pos9 ← find (SOH :: Text.ascii "9=") buffer
  let eq9 := pos9 + 3
  let width ← find [SOH] (buffer.drop eq9)
  let bodyLen ← Text.number ((buffer.drop eq9).take width)
  return eq9 + width + 1 + bodyLen + 7

def Kept (field : Field) : Prop := ¬ (field.1 = 8 ∨ field.1 = 9 ∨ field.1 = 10)

instance : DecidablePred Kept := fun _ => inferInstanceAs (Decidable (¬ _))

theorem buildBody_eq (fields : List Field) : buildBody fields = (fields.filter Kept).flatMap fieldText := by
  have from_any : ∀ body, fields.foldl (fun body field =>
      if field.1 = 8 ∨ field.1 = 9 ∨ field.1 = 10 then body else body ++ fieldText field) body =
        body ++ (fields.filter Kept).flatMap fieldText := by
    induction fields with
    | nil => simp
    | cons field fields ih =>
      intro body
      rw [List.foldl_cons, ih, List.filter_cons]
      by_cases generated : field.1 = 8 ∨ field.1 = 9 ∨ field.1 = 10
      · simp [Kept, generated]
      · simp [Kept, generated]
  exact from_any []

theorem length_trailer (cksum : UInt8) : (trailer cksum).length = 7 := by
  have three : (Text.zeroPadded 3 cksum.toNat).length = 3 :=
    Text.length_zeroPadded (by decide) (Nat.lt_trans cksum.toNat_lt (by decide))
  rw [trailer, checksumText, List.take_of_length_le (by omega), List.length_append, List.length_append, three]
  rfl

theorem soh_not_in_digits (n : Nat) : SOH ∉ Text.digits n :=
  fun member => absurd (Text.digits_range member).1 (by decide)

/-- The first field 9 is the one whose header holds no separator, and its number ends before the next. -/
theorem frameLength_header {header : List UInt8} (absent : SOH ∉ header) (n : Nat) (rest : List UInt8) :
    frameLength (header ++ (SOH :: Text.ascii "9=" ++ (Text.digits n ++ (SOH :: [] ++ rest)))) =
      some (header.length + 3 + (Text.digits n).length + 1 + n + 7) := by
  have number : (header ++ (SOH :: Text.ascii "9=" ++ (Text.digits n ++ (SOH :: [] ++ rest)))).drop
      (header.length + 3) = Text.digits n ++ (SOH :: [] ++ rest) := by
    rw [← List.append_assoc]
    apply List.drop_left'
    rw [List.length_append]
    rfl
  rw [frameLength, find_after absent]
  simp only [Option.bind_eq_bind, Option.bind_some, number, find_after (soh_not_in_digits n), List.take_left,
    Text.number_digits]
  rfl

theorem soh_not_in_version : SOH ∉ Text.ascii "8=FIX.4.2" := by decide

theorem buildFixMessage_eq (fixChecksum : List UInt8 → UInt8) (fields : List Field) :
    buildFixMessage fixChecksum fields = Text.ascii "8=FIX.4.2" ++ (SOH :: Text.ascii "9=" ++
      (Text.digits (buildBody fields).length ++
        (SOH :: [] ++ (buildBody fields ++ trailer (fixChecksum (buildHead (buildBody fields))))))) := by
  simp [buildFixMessage, buildHead]

theorem length_buildFixMessage (fixChecksum : List UInt8 → UInt8) (fields : List Field) :
    (buildFixMessage fixChecksum fields).length = (Text.ascii "8=FIX.4.2").length + 3 +
      (Text.digits (buildBody fields).length).length + 1 + (buildBody fields).length + 7 := by
  have tag : (SOH :: Text.ascii "9=").length = 3 := rfl
  rw [buildFixMessage_eq]
  simp only [List.length_append, length_trailer, tag, List.length_singleton]
  omega

theorem frameLength_build (fixChecksum : List UInt8 → UInt8) (fields : List Field) (rest : List UInt8) :
    frameLength (buildFixMessage fixChecksum fields ++ rest) =
      some (buildFixMessage fixChecksum fields).length := by
  rw [length_buildFixMessage, ← frameLength_header soh_not_in_version _
    (buildBody fields ++ trailer (fixChecksum (buildHead (buildBody fields))) ++ rest), buildFixMessage_eq]
  simp only [List.append_assoc]

theorem built_delimited (fixChecksum : List UInt8 → UInt8) :
    Delimits frameLength fun m => ∃ fields, m = buildFixMessage fixChecksum fields where
  silent := rfl
  nonempty := by
    rintro m ⟨fields, rfl⟩ empty
    have length := length_buildFixMessage fixChecksum fields
    rw [empty, List.length_nil] at length
    omega
  tells := by
    rintro m ⟨fields, rfl⟩ rest
    exact frameLength_build fixChecksum fields rest

/-- One message: the parts that it is made of, and where the formula finds them. -/
structure SelfDelimiting (fixChecksum : List UInt8 → UInt8) (fields : List Field)
    (header body tail : List UInt8) : Prop where
  parts : buildFixMessage fixChecksum fields = header ++ (SOH :: Text.ascii "9=" ++
    (Text.digits body.length ++ (SOH :: [] ++ (body ++ tail))))
  skips : body = (fields.filter Kept).flatMap fieldText
  first : SOH :: Text.ascii "9=" <+: (buildFixMessage fixChecksum fields).drop header.length ∧
    ∀ j < header.length, ¬ SOH :: Text.ascii "9=" <+: (buildFixMessage fixChecksum fields).drop j
  number : Text.number (Text.digits body.length) = some body.length
  ending : Text.ascii "10=" <+: tail ∧ tail.length = 7
  length : (header.length + 3 + (Text.digits body.length).length + 1) + body.length + 7 =
    (buildFixMessage fixChecksum fields).length

theorem selfDelimiting (fixChecksum : List UInt8 → UInt8) (fields : List Field) :
    ∃ header body tail, SelfDelimiting fixChecksum fields header body tail := by
  refine ⟨Text.ascii "8=FIX.4.2", buildBody fields, trailer (fixChecksum (buildHead (buildBody fields))), ?_⟩
  exact
    { parts := buildFixMessage_eq fixChecksum fields
      skips := buildBody_eq fields
      first := by
        rw [buildFixMessage_eq]
        exact find_first (find_after soh_not_in_version _ _)
      number := Text.number_digits _
      ending := by
        refine ⟨?_, length_trailer _⟩
        rw [trailer, List.append_assoc]
        exact List.prefix_append _ _
      length := (length_buildFixMessage fixChecksum fields).symm }

theorem messages_self_delimiting (fixChecksum : List UInt8 → UInt8) :
    (∀ fields, ∃ header body tail, SelfDelimiting fixChecksum fields header body tail) ∧
    (∀ fields, frameLength (buildFixMessage fixChecksum fields) =
      some (buildFixMessage fixChecksum fields).length) ∧
    (∀ fields fields', buildFixMessage fixChecksum fields <+: buildFixMessage fixChecksum fields' →
      buildFixMessage fixChecksum fields = buildFixMessage fixChecksum fields') ∧
    ∀ lists : List (List Field), cut frameLength (lists.map (buildFixMessage fixChecksum)).flatten =
      (lists.map (buildFixMessage fixChecksum), []) := by
  refine ⟨selfDelimiting fixChecksum, fun fields => ?_, fun fields fields' front => ?_, fun lists => ?_⟩
  · have alone := frameLength_build fixChecksum fields []
    rwa [List.append_nil] at alone
  · exact prefix_eq (built_delimited fixChecksum) ⟨fields, rfl⟩ ⟨fields', rfl⟩ front
  · apply cut_flatten (built_delimited fixChecksum)
    intro m member
    obtain ⟨fields, -, same⟩ := List.mem_map.mp member
    exact ⟨fields, same.symm⟩

example : frameLength (buildFixMessage (fun _ => 7)
    [(35, Text.ascii "D"), (9, Text.ascii "1"), (58, SOH :: Text.ascii "9=99" ++ [SOH])]) = some 37 := by
  decide

end Syseng.Networking.FixFramer
