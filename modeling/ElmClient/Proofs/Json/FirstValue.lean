/-
Module: ElmClient.Proofs.Json.FirstValue
Purpose: Readers that stop behind the first value of a text. They accept a whole text as other
  readers do, and beyond that every text that starts with a whole one, whatever comes after it: so
  are schemas and project files read.
Main exports: Json.readFirst, Json.readWhole, Json.exists_readWhole, Json.readFirst_append,
  Schema.ofWholeText, Project.ofWholeText?, read_iff_starts_whole
-/
import ElmClient.Project
import ElmClient.Proofs.Json.Rereading
import ElmClient.Schema.Introspection

namespace ElmClient

/-! ### First values and whole texts -/

namespace Json

variable {α : Type} {scan : Scanner α} {following : Following α} {text whole : String} {value : α}

/-- What a reader finds at the start of a text, whatever follows it. -/
def readFirst (scan : Scanner α) (text : String) : Option α :=
  (scan (skipSpace text.toList)).map Prod.fst

/-- What a reader finds in a text that holds nothing else but blanks. -/
def readWhole (scan : Scanner α) (text : String) : Option α :=
  match scan (skipSpace text.toList) with
  | none => none
  | some (value, rest) => if (skipSpace rest).isEmpty then some value else none

theorem parseFirst?_eq (text : String) : parseFirst? text = readFirst (scanValue depthLimit) text :=
  rfl

theorem parse?_eq (text : String) : parse? text = readWhole (scanValue depthLimit) text := by
  unfold parse? readWhole
  cases scanValue depthLimit (skipSpace text.toList) <;> rfl

theorem exists_scan_of_readWhole (read : readWhole scan text = some value) :
    ∃ rest, scan (skipSpace text.toList) = some (value, rest) := by
  unfold readWhole at read
  split at read
  · cases read
  next value' rest found =>
    split at read
    · exact ⟨rest, found.trans (by rw [Option.some.inj read])⟩
    · cases read

/-- A whole text is read as its first value. -/
theorem readFirst_of_readWhole (read : readWhole scan text = some value) :
    readFirst scan text = some value := by
  obtain ⟨rest, found⟩ := exists_scan_of_readWhole read
  rw [readFirst, found, Option.map_some]

/-- A text with a first value starts with a whole text of that value. -/
theorem exists_readWhole (rereads : Rereads following scan fun _ => scan)
    (ends : ∀ rest, following value rest []) (read : readFirst scan text = some value) :
    ∃ whole rest, text = whole ++ rest ∧ readWhole scan whole = some value := by
  obtain ⟨⟨value', rest⟩, found, rfl⟩ := Option.map_eq_some_iff.mp read
  obtain ⟨blanks, split, skips⟩ := skipSpace_again text.toList
  obtain ⟨used, split', finds⟩ := rereads found
  rw [split'] at split skips
  refine ⟨String.ofList (blanks ++ used), String.ofList rest, ?_, ?_⟩
  · rw [← String.ofList_append, List.append_assoc, ← split, String.ofList_toList]
  · have starts : StartsAlike (used ++ rest) (used ++ []) := .append used (.inl rfl)
    rw [List.append_nil] at starts
    have again : scan used = some (value', []) := by
      simpa using finds (Nat.lt_succ_self _) (ends rest)
    rw [readWhole, String.toList_ofList, skips starts, again]
    rfl

/-- What is read from a whole text is the first value of every text that starts with it, if what
comes next may follow the value. -/
theorem readFirst_append (rereads : Rereads following scan fun _ => scan) (empty : scan [] = none)
    (ends : ∀ left, following value left []) (read : readWhole scan whole = some value)
    {rest : String} (follows : ∀ left, following value left (left ++ rest.toList)) :
    readFirst scan (whole ++ rest) = some value := by
  obtain ⟨left, found⟩ := exists_scan_of_readWhole read
  obtain ⟨blanks, split, skips⟩ := skipSpace_again whole.toList
  obtain ⟨used, split', finds⟩ := rereads found
  rw [split'] at split skips
  have again : scan (used ++ (left ++ rest.toList)) = some (value, left ++ rest.toList) :=
    finds (Nat.lt_succ_self _) (follows left)
  have starts : StartsAlike (used ++ left) (used ++ (left ++ rest.toList)) := by
    cases used with
    | nil => exact nomatch empty.symm.trans (finds Nat.zero_lt_one (ends left))
    | cons c more => exact .inr rfl
  have chars : (whole ++ rest).toList = blanks ++ (used ++ (left ++ rest.toList)) := by
    simp [String.toList_append, split]
  rw [readFirst, chars, skips starts, again, Option.map_some]

/-- Where anything may follow a value, a text has a first value exactly if it starts with a whole
text of it. -/
theorem readFirst_iff (rereads : Rereads anything scan fun _ => scan) (empty : scan [] = none) :
    readFirst scan text = some value ↔
      ∃ whole rest, text = whole ++ rest ∧ readWhole scan whole = some value := by
  refine ⟨exists_readWhole rereads fun _ => trivial, ?_⟩
  rintro ⟨whole, rest, rfl, read⟩
  exact readFirst_append rereads empty (fun _ => trivial) read fun _ => trivial

/-- A first value is what is read from the whole text that it fills. -/
theorem exists_parse?_of_parseFirst? {value : Json} (read : parseFirst? text = some value) :
    ∃ whole rest, text = whole ++ rest ∧ parse? whole = some value := by
  rw [parseFirst?_eq] at read
  simp only [parse?_eq]
  exact exists_readWhole (rereads_scanValue depthLimit) (fun _ _ => .inl (.inl rfl)) read

/-- A value is read in front of every text that does not go on with it. -/
theorem parseFirst?_append {value : Json} (read : parse? whole = some value) {rest : String}
    (breaks : (∃ n, value = .number n) → BreaksNumber rest.toList) :
    parseFirst? (whole ++ rest) = some value := by
  rw [parse?_eq] at read
  refine readFirst_append (rereads_scanValue depthLimit) rfl (fun _ _ => .inl (.inl rfl)) read
    fun left isNumber => ?_
  cases left with
  | nil => exact .inr (breaks isNumber)
  | cons c more => exact .inl (.inr rfl)

end Json

/-! ### Schemas -/

namespace Schema

/-- The schema of the introspection answer in a JSON value. -/
def ofJson (value : Json) : Except SchemaError Schema :=
  match Introspection.form (introspectionPart value) with
  | .error error => .error (.unfitIntrospection error)
  | .ok introspection => ofIntrospection introspection

/-- The schema of a text that holds nothing but an introspection answer. -/
def ofWholeText (text : String) : Except SchemaError Schema :=
  match Json.parse? text with
  | none => .error .malformedJson
  | some value => ofJson value

variable {text : String} {schema : Schema}

theorem ofIntrospectionText_eq_ok : ofIntrospectionText text = .ok schema ↔
    ∃ value, Json.parseFirst? text = some value ∧ ofJson value = .ok schema := by
  cases read : Json.parseFirst? text with
  | none => simp [ofIntrospectionText, read]
  | some value =>
      have same : ofIntrospectionText text = ofJson value := by
        simp only [ofIntrospectionText, read]
        rfl
      simp [same]

theorem ofWholeText_eq_ok : ofWholeText text = .ok schema ↔
    ∃ value, Json.parse? text = some value ∧ ofJson value = .ok schema := by
  cases read : Json.parse? text <;> simp [ofWholeText, read]

/-- A number holds no introspection answer. -/
theorem ofJson_number (n : Number) : ofJson (.number n) ≠ .ok schema := nofun

/-- The texts of a schema are those that start with a text of nothing else. -/
theorem ofIntrospectionText_iff : ofIntrospectionText text = .ok schema ↔
    ∃ whole rest, text = whole ++ rest ∧ ofWholeText whole = .ok schema := by
  simp only [ofIntrospectionText_eq_ok, ofWholeText_eq_ok]
  constructor
  · rintro ⟨value, read, fits⟩
    obtain ⟨whole, rest, split, read'⟩ := Json.exists_parse?_of_parseFirst? read
    exact ⟨whole, rest, split, value, read', fits⟩
  · rintro ⟨whole, rest, rfl, value, read, fits⟩
    refine ⟨value, Json.parseFirst?_append read ?_, fits⟩
    rintro ⟨n, rfl⟩
    exact absurd fits (ofJson_number n)

end Schema

/-! ### Project files -/

namespace Project

open Json

variable {text : String} {project : Project}

theorem rereads_scanText : Rereads anything scanText fun _ => scanText := by
  intro text rest value read
  unfold scanText at read
  split at read
  · obtain ⟨used, rfl, again⟩ := findsAgain_scanKey _ read
    exact ⟨'"' :: used, rfl, fun _ _ => again _⟩
  · cases read

theorem rereads_scanTexts : Rereads anything scanTexts fun _ => scanTexts := by
  intro text rest values read
  unfold scanTexts at read
  split at read
  · obtain ⟨used, rfl, finds⟩ := rereads_scanClosed rereads_scanText.alike ']' read
    exact ⟨'[' :: used, rfl, fun within _ => finds (Nat.lt_of_succ_lt within) trivial⟩
  · cases read

/-- Reads the value of an entry of a project file. -/
def scanMemberValue (key : String) : Scanner (Option (List String)) := fun text =>
  if key == directoriesKey then
    (scanTexts text).map fun (directories, rest) => (some directories, rest)
  else (skipValue (text.length + 1) text).map fun (_, rest) => (none, rest)

theorem rereads_scanMemberValue (key : String) :
    Rereads alike (scanMemberValue key) fun _ => scanMemberValue key := by
  intro text rest value read
  unfold scanMemberValue at read
  split at read
  · next named =>
      obtain ⟨used, rfl, finds⟩ := Rereads.map rereads_scanTexts some read
      refine ⟨used, rfl, fun within _ => ?_⟩
      simp only [scanMemberValue, if_pos named]
      exact finds within trivial
  · next other =>
      obtain ⟨used, rfl, finds⟩ := Rereads.map (rereads_skipValue _) (fun _ => none) read
      refine ⟨used, rfl, fun {_ rest'} _ follows => ?_⟩
      have within : used.length < (used ++ rest').length + 1 := by
        rw [List.length_append]
        omega
      simp only [scanMemberValue, if_neg other]
      exact finds within follows

theorem rereads_scanMember : Rereads alike scanMember fun _ => scanMember :=
  rereads_scanEntry findsAgain_scanKey rereads_scanMemberValue

/-- Reads what a project file gives for the source directories. -/
def scanGiven : Scanner (List (List String))
  | '\x7b' :: rest => (scanClosed scanMember '\x7d' rest).map fun (members, rest) =>
      (members.filterMap (·.2), rest)
  | '[' :: rest => scanClosed scanTexts ']' rest
  | _ => none

theorem rereads_scanGiven : Rereads anything scanGiven fun _ => scanGiven := by
  intro text rest given read
  unfold scanGiven at read
  split at read
  · obtain ⟨used, rfl, finds⟩ := Rereads.map (rereads_scanClosed rereads_scanMember '\x7d')
      (fun members => members.filterMap (·.2)) read
    exact ⟨'\x7b' :: used, rfl, fun within _ => finds (Nat.lt_of_succ_lt within) trivial⟩
  · obtain ⟨used, rfl, finds⟩ := rereads_scanClosed rereads_scanTexts.alike ']' read
    exact ⟨'[' :: used, rfl, fun within _ => finds (Nat.lt_of_succ_lt within) trivial⟩
  · cases read

theorem ofText?_eq (text : String) : ofText? text = (readFirst scanGiven text).bind ofGiven? := by
  unfold ofText? readFirst
  generalize skipSpace text.toList = chars
  fun_cases scanGiven chars with
  | case1 rest => cases found : scanClosed scanMember '\x7d' rest <;> simp [found]
  | case2 rest => cases found : scanClosed scanTexts ']' rest <;> simp [found]
  | case3 noObject noArray => simp

/-- The project of a text that holds nothing but a project file. -/
def ofWholeText? (text : String) : Option Project :=
  (readWhole scanGiven text).bind ofGiven?

/-- The texts of a project are those that start with a text of nothing else. -/
theorem ofText?_iff : ofText? text = some project ↔
    ∃ whole rest, text = whole ++ rest ∧ ofWholeText? whole = some project := by
  simp only [ofText?_eq, ofWholeText?, Option.bind_eq_some_iff,
    readFirst_iff rereads_scanGiven rfl]
  constructor
  · rintro ⟨given, ⟨whole, rest, split, read⟩, fits⟩
    exact ⟨whole, rest, split, given, read, fits⟩
  · rintro ⟨whole, rest, split, given, read, fits⟩
    exact ⟨given, ⟨whole, rest, split, read⟩, fits⟩

end Project

/-! ### Whatever follows -/

/-- A whole text is read as what it holds, and so is every text that starts with one, whatever comes
after it: only a number must not go on. Nothing else is read. -/
theorem read_iff_starts_whole (text : String) :
    (∀ value, Json.parse? text = some value → Json.parseFirst? text = some value) ∧
      (∀ value, Json.parseFirst? text = some value →
        ∃ whole rest, text = whole ++ rest ∧ Json.parse? whole = some value) ∧
      (∀ value rest, Json.parse? text = some value →
        ((∃ n, value = .number n) → Json.BreaksNumber rest.toList) →
          Json.parseFirst? (text ++ rest) = some value) ∧
      (∀ schema, Schema.ofIntrospectionText text = .ok schema ↔
        ∃ whole rest, text = whole ++ rest ∧ Schema.ofWholeText whole = .ok schema) ∧
      ∀ project, Project.ofText? text = some project ↔
        ∃ whole rest, text = whole ++ rest ∧ Project.ofWholeText? whole = some project := by
  refine ⟨fun value read => ?_, fun value => Json.exists_parse?_of_parseFirst?,
    fun value rest read => Json.parseFirst?_append read,
    fun schema => Schema.ofIntrospectionText_iff, fun project => Project.ofText?_iff⟩
  rw [Json.parse?_eq] at read
  exact Json.readFirst_of_readWhole read

/-- An introspection answer without any types. -/
def bareAnswer : String :=
  "\x7b\"__schema\": \x7b\"queryType\": \x7b\"name\": \"Query\"\x7d, \"types\": []\x7d\x7d"

/-- The text of a schema that is followed by something else is no JSON text, and read as the
schema. -/
theorem bareAnswer_read_before_more : ∃ schema, Schema.ofWholeText bareAnswer = .ok schema ∧
    Schema.ofIntrospectionText (bareAnswer ++ " x") = .ok schema ∧
    Json.parse? (bareAnswer ++ " x") = none := by
  have accepted : (Schema.ofWholeText bareAnswer).isOk = true := by decide +kernel
  have refused : (Json.parse? (bareAnswer ++ " x")).isNone = true := by decide +kernel
  cases whole : Schema.ofWholeText bareAnswer with
  | error cause => rw [whole] at accepted; cases accepted
  | ok schema =>
      obtain ⟨_, _, _, schemas, _⟩ := read_iff_starts_whole (bareAnswer ++ " x")
      exact ⟨schema, rfl, (schemas schema).mpr ⟨bareAnswer, " x", rfl, whole⟩,
        Option.isNone_iff_eq_none.mp refused⟩

end ElmClient
