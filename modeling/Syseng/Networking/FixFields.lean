import Syseng.Networking.FixFramer

/-! What a stream of FIX messages says about the fields that they were built from. -/

namespace Syseng.Networking.FixFramer
open Support Framing

def Clean (fields : List Field) : Prop := ∀ field ∈ fields, Kept field → SOH ∉ field.2

instance (fields : List Field) : Decidable (Clean fields) :=
  inferInstanceAs (Decidable (∀ field ∈ fields, Kept field → SOH ∉ field.2))

def record (field : Field) : List UInt8 := Text.decimal field.1.toInt ++ Text.byte '=' :: field.2

theorem fieldText_eq (field : Field) : fieldText field = record field ++ [SOH] := by
  simp [fieldText, record, Text.ascii]

theorem not_in_decimal {c : UInt8} (other : c ≠ Text.byte '-' ∧ ¬ (48 ≤ c.toNat ∧ c.toNat ≤ 57)) (n : Int) :
    c ∉ Text.decimal n := by
  intro member
  rcases Text.decimal_range member with sign | digit
  · exact other.1 sign
  · exact other.2 digit

theorem soh_not_in_record {field : Field} (clean : SOH ∉ field.2) : SOH ∉ record field := by
  intro member
  rcases List.mem_append.mp member with tag | rest
  · exact not_in_decimal (by decide) _ tag
  · rcases List.mem_cons.mp rest with equals | value
    · exact absurd equals (by decide)
    · exact clean value

theorem record_injective {field field' : Field} (same : record field = record field') : field = field' := by
  obtain ⟨tags, values⟩ := Text.split_first (not_in_decimal (by decide) _) (not_in_decimal (by decide) _) same
  exact Prod.ext (Int32.toInt_inj.mp (Text.decimal_injective tags)) values

theorem body_determines {fields fields' : List Field} (clean : Clean fields) (clean' : Clean fields')
    (same : buildBody fields = buildBody fields') : fields.filter Kept = fields'.filter Kept := by
  have records : ∀ {fields : List Field}, Clean fields →
      ∀ r ∈ (fields.filter Kept).map record, SOH ∉ r := by
    intro fields clean r member
    obtain ⟨field, kept, rfl⟩ := List.mem_map.mp member
    obtain ⟨inside, keeps⟩ := List.mem_filter.mp kept
    exact soh_not_in_record (clean field inside (of_decide_eq_true keeps))
  have bodies : ∀ fields : List Field,
      buildBody fields = ((fields.filter Kept).map record).flatMap (· ++ [SOH]) := by
    intro fields
    rw [buildBody_eq, List.flatMap_map, funext fieldText_eq]
  rw [bodies, bodies] at same
  have equal := Text.records_injective (records clean) (records clean') same
  exact List.map_injective_iff.mpr (fun _ _ => record_injective) equal

theorem message_determines (fixChecksum : List UInt8 → UInt8) {fields fields' : List Field} :
    buildFixMessage fixChecksum fields = buildFixMessage fixChecksum fields' ↔
      buildBody fields = buildBody fields' := by
  constructor
  · intro same
    rw [buildFixMessage_eq, buildFixMessage_eq] at same
    have lengths := List.append_cancel_left (List.append_cancel_left same)
    obtain ⟨-, rest⟩ : _ ∧ buildBody fields ++ trailer _ = buildBody fields' ++ trailer _ :=
      Text.split_first (soh_not_in_digits _) (soh_not_in_digits _) lengths
    exact (List.append_inj' rest (by rw [length_trailer, length_trailer])).1
  · intro same
    rw [buildFixMessage, buildFixMessage, same]

theorem messages_determine (fixChecksum : List UInt8 → UInt8) {lists lists' : List (List Field)}
    (clean : ∀ fields ∈ lists, Clean fields) (clean' : ∀ fields ∈ lists', Clean fields) :
    lists.map (buildFixMessage fixChecksum) = lists'.map (buildFixMessage fixChecksum) ↔
      lists.map (·.filter Kept) = lists'.map (·.filter Kept) := by
  induction lists generalizing lists' with
  | nil => simp
  | cons fields lists ih =>
    cases lists' with
    | nil => simp
    | cons fields' lists' =>
      obtain ⟨here, others⟩ := List.forall_mem_cons.mp clean
      obtain ⟨here', others'⟩ := List.forall_mem_cons.mp clean'
      have bodies : buildBody fields = buildBody fields' ↔ fields.filter Kept = fields'.filter Kept := by
        apply Iff.intro (body_determines here here')
        intro same
        rw [buildBody_eq, buildBody_eq, same]
      simp only [List.map_cons, List.cons.injEq, message_determines, bodies, ih others others']

/-- Whatever is in the values but a separator, and however many messages follow one another, the
stream says which fields each of them was built from, and in which order; only the fields whose
tags are generated are lost. -/
theorem stream_determines_fields (fixChecksum : List UInt8 → UInt8) {lists lists' : List (List Field)}
    (clean : ∀ fields ∈ lists, Clean fields) (clean' : ∀ fields ∈ lists', Clean fields) :
    (lists.map (buildFixMessage fixChecksum)).flatten = (lists'.map (buildFixMessage fixChecksum)).flatten ↔
      lists.map (·.filter Kept) = lists'.map (·.filter Kept) := by
  rw [← messages_determine fixChecksum clean clean']
  have cuts : ∀ lists : List (List Field), cut frameLength (lists.map (buildFixMessage fixChecksum)).flatten =
      (lists.map (buildFixMessage fixChecksum), []) := by
    intro lists
    apply cut_flatten (built_delimited fixChecksum)
    intro m member
    obtain ⟨fields, -, same⟩ := List.mem_map.mp member
    exact ⟨fields, same.symm⟩
  constructor
  · intro same
    have messages := congrArg (cut frameLength) same
    rw [cuts, cuts] at messages
    exact (Prod.mk.inj messages).1
  · exact congrArg List.flatten

theorem stream_determines_fields_embedded :
    (([[(35, Text.ascii "8=FIX"), (9, [SOH])], []] : List (List Field)).map
        (buildFixMessage fun _ => 7)).flatten =
      (([[(35, Text.ascii "8=FIX")], []] : List (List Field)).map (buildFixMessage fun _ => 7)).flatten ↔
    ([[(35, Text.ascii "8=FIX"), (9, [SOH])], []] : List (List Field)).map (·.filter Kept) =
      ([[(35, Text.ascii "8=FIX")], []] : List (List Field)).map (·.filter Kept) :=
  stream_determines_fields _ (by decide) (by decide)

example : buildFixMessage (fun _ => 7) [(35, [SOH] ++ Text.ascii "36=")] =
    buildFixMessage (fun _ => 7) [(35, []), (36, [])] := by decide

end Syseng.Networking.FixFramer
