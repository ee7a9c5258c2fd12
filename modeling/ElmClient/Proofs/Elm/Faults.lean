/-
Module: ElmClient.Proofs.Elm.Faults
Purpose: What the error of a decoder says. Its fields and indices lead through the JSON to a value,
  the decoder that is run there refuses that value for the reason that is given, and no optional
  decoder stands on the way.
Main exports: Json.at?, DecodeError.root, DecodeError.steps, Decoder.Refuses, DecodeError.TrueOf,
  Decoder.Leads, Decoder.FaultAt, Decoder.hasFault, Decoder.error_located
-/
import ElmClient.Json.Form
import ElmClient.Proofs.Elm.Decoding

namespace ElmClient

/-! ### Ways into a JSON value -/

namespace Json

/-- The value one step further in, if there is one. -/
def step? : Step → Json → Option Json
  | .key name, .object entries => entries.lookup name
  | .index n, .array items => items[n]?
  | _, _ => none

/-- The value to which steps lead, if there is one. -/
def at? : List Step → Json → Option Json
  | [], data => some data
  | step :: further, data => (step? step data).bind (at? further)

theorem at?_of_step? {step : Step} {further : List Step} {data held x : Json}
    (here : step? step data = some held) (there : at? further held = some x) :
    at? (step :: further) data = some x :=
  Option.bind_eq_some_iff.mpr ⟨held, here, there⟩

end Json

namespace Elm

/-! ### Errors as ways to a cause -/

namespace DecodeError

/-- The error below all the fields and indices that lead to it. -/
def root : DecodeError → DecodeError
  | .inField _ cause => cause.root
  | .atIndex _ cause => cause.root
  | cause => cause

/-- The fields and indices that lead to the root of an error, the outermost one first. -/
def steps : DecodeError → List Json.Step
  | .inField name cause => .key name :: cause.steps
  | .atIndex index cause => .index index :: cause.steps
  | _ => []

end DecodeError

/-- What a scalar is decoded from, in the words of errors. -/
def Scalar.expectation : Scalar → Expectation
  | .int | .posix => .int
  | .float => .float
  | .bool => .bool
  | .string => .string

/-- The decoder itself refuses a value, whatever is inside of it, and says what it expects. -/
inductive Decoder.Refuses : Decoder → Json → Expectation → Prop where
  | scalar {s data} (unread : ∀ value, ¬ s.Reads data value) :
      Refuses (.scalar s) data s.expectation
  | enum {name data} (noString : ∀ s, data ≠ .string s) : Refuses (.enum name) data .string
  | field {wire decoder data} (noObject : ∀ entries, data ≠ .object entries) :
      Refuses (.field wire decoder) data .object
  | list {item data} (noArray : ∀ items, data ≠ .array items) : Refuses (.list item) data .list

/-- What the root of an error says of a decoder and of the value on which it is run. -/
inductive DecodeError.TrueOf (m : Module) : DecodeError → Decoder → Json → Prop where
  | expected {expectation decoder data} (refuses : Decoder.Refuses decoder data expectation) :
      TrueOf m (.expected expectation data) decoder data
  | missingField {wire decoder entries} (absent : ∀ entry ∈ entries, entry.1 ≠ wire) :
      TrueOf m (.missingField wire) (.field wire decoder) (.object entries)
  | unknownEnumValue {name wire}
      (unlisted : ∀ declared, m.enum name = some declared → ∀ listed ∈ declared.cases,
        listed.wire ≠ wire) :
      TrueOf m (.unknownEnumValue name wire) (.enum name) (.string wire)
  | unexpectedUnionType {name cases entries tag}
      (typed : entries.lookup typenameKey = some (.string tag))
      (untagged : ∀ entry ∈ cases, entry.1 ≠ tag) :
      TrueOf m (.unexpectedUnionType tag) (.union name cases) (.object entries)

/-- The decoder with which a union finds out which of its cases to run. -/
def typenameDecoder : Decoder := .field typenameKey (.scalar .string)

/-- Where running a decoder on a value comes to running another decoder: on which value, by which
steps into the first one, and through which decoders on which values. A union reads the name of the
type, and then runs the first case of that name on the same value. -/
inductive Decoder.Leads :
    Decoder → Json → List Json.Step → List (Decoder × Json) → Decoder → Json → Prop where
  | here {decoder data} : Leads decoder data [] [] decoder data
  | field {wire decoder entries held steps passed target x}
      (found : entries.lookup wire = some held)
      (further : Leads decoder held steps passed target x) :
      Leads (.field wire decoder) (.object entries) (.key wire :: steps)
        ((.field wire decoder, .object entries) :: passed) target x
  | optional {inner data steps passed target x} (further : Leads inner data steps passed target x) :
      Leads (.optional inner) data steps ((.optional inner, data) :: passed) target x
  | item {item items n held steps passed target x} (found : items[n]? = some held)
      (further : Leads item held steps passed target x) :
      Leads (.list item) (.array items) (.index n :: steps)
        ((.list item, .array items) :: passed) target x
  | record {r data field steps passed target x} (among : field ∈ RecordOf.fields r)
      (further : Leads field.2 data steps passed target x) :
      Leads (.record r) data steps ((.record r, data) :: passed) target x
  | typename {name cases data steps passed target x}
      (further : Leads typenameDecoder data steps passed target x) :
      Leads (.union name cases) data steps ((.union name cases, data) :: passed) target x
  | case {name cases entries tag r steps passed target x}
      (typed : entries.lookup typenameKey = some (.string tag))
      (chosen : cases.lookup tag = some r)
      (further : Leads (.record r) (.object entries) steps passed target x) :
      Leads (.union name cases) (.object entries) steps
        ((.union name cases, .object entries) :: passed) target x

/-- The steps lead through keys and items that exist. -/
theorem Decoder.Leads.at? {decoder target : Decoder} {data x : Json} {steps : List Json.Step}
    {passed : List (Decoder × Json)} (leads : decoder.Leads data steps passed target x) :
    data.at? steps = some x := by
  induction leads with
  | here => rfl
  | field found _ ih => exact Json.at?_of_step? found ih
  | optional _ ih => exact ih
  | item found _ ih => exact Json.at?_of_step? found ih
  | record _ _ ih => exact ih
  | typename _ ih => exact ih
  | case _ _ _ ih => exact ih

/-! ### How each decoder fails -/

variable {α : Type} {m : Module} {data : Json} {error : DecodeError}

theorem Scalar.decode_eq_error {scalar : Scalar} (failed : scalar.decode data = .error error) :
    error = .expected scalar.expectation data := by
  unfold Scalar.decode at failed
  extract_lets found? expectation at failed
  have same : expectation = scalar.expectation := by cases scalar <;> rfl
  cases found : found? with
  | some decoded =>
      rw [found] at failed
      exact nomatch failed
  | none =>
      rw [found] at failed
      exact same ▸ (Except.error.inj failed).symm

theorem decodeEnum_eq_error {name : String} (failed : decodeEnum m name data = .error error) :
    error.TrueOf m (.enum name) data := by
  unfold decodeEnum at failed
  split at failed
  · next wire =>
      split at failed
      · exact nomatch failed
      · next missing =>
          rw [← Except.error.inj failed]
          refine .unknownEnumValue fun declared found listed among same => ?_
          rw [found, Option.bind_some, List.find?_eq_none] at missing
          exact missing listed among (beq_iff_eq.mpr same)
  · next noString =>
      rw [← Except.error.inj failed]
      exact .expected (.enum noString)

/-- A field decoder fails where there is no object, where the object lacks the key, or where the
decoder of what it holds does. -/
theorem decodeField_eq_error {wire : String} {decode : Json → Decoded α}
    (failed : decodeField wire decode data = .error error) :
    ((∀ entries, data ≠ .object entries) ∧ error = .expected .object data) ∨
      (∃ entries, data = .object entries ∧ entries.lookup wire = none ∧
        error = .missingField wire) ∨
      ∃ entries held cause, data = .object entries ∧ entries.lookup wire = some held ∧
        decode held = .error cause ∧ error = .inField wire cause := by
  unfold decodeField at failed
  split at failed
  · next entries =>
      split at failed
      · next held found =>
          obtain ⟨cause, failed', same⟩ := Except.mapError_eq_error.mp failed
          exact .inr (.inr ⟨entries, held, cause, rfl, found, failed', same.symm⟩)
      · next missing => exact .inr (.inl ⟨entries, rfl, missing, (Except.error.inj failed).symm⟩)
  · next noObject => exact .inl ⟨noObject, (Except.error.inj failed).symm⟩

theorem decodeItems_eq_error {decode : Json → Decoded α} {index : Nat} {items : List Json}
    (failed : decodeItems decode index items = .error error) :
    ∃ n held cause, items[n]? = some held ∧ decode held = .error cause ∧
      error = .atIndex (index + n) cause := by
  induction items generalizing index with
  | nil => exact nomatch failed
  | cons first rest ih =>
      rcases Except.bind_eq_error.mp failed with here | ⟨decoded, _, after⟩
      · obtain ⟨cause, failed', same⟩ := Except.mapError_eq_error.mp here
        exact ⟨0, first, cause, rfl, failed', same.symm⟩
      · rcases Except.bind_eq_error.mp after with later | ⟨others, _, done⟩
        · obtain ⟨n, held, cause, found, failed', same⟩ := ih later
          exact ⟨n + 1, held, cause, found, failed', by rw [same]; congr 1; omega⟩
        · exact nomatch done

theorem decodeList_eq_error {decode : Json → Decoded α}
    (failed : decodeList decode data = .error error) :
    ((∀ items, data ≠ .array items) ∧ error = .expected .list data) ∨
      ∃ items n held cause, data = .array items ∧ items[n]? = some held ∧
        decode held = .error cause ∧ error = .atIndex n cause := by
  unfold decodeList at failed
  split at failed
  · next items =>
      obtain ⟨n, held, cause, found, failed', same⟩ := decodeItems_eq_error failed
      rw [Nat.zero_add] at same
      exact .inr ⟨items, n, held, cause, rfl, found, failed', same⟩
  · next noArray => exact .inl ⟨noArray, (Except.error.inj failed).symm⟩

/-- The name of a type is read as any string under a key is. -/
theorem run_typenameDecoder : typenameDecoder.run m data = Value.string <$> decodeTypename data := by
  simp only [typenameDecoder, Decoder.run, decodeTypename]
  cases data with
  | object entries =>
      cases found : entries.lookup typenameKey with
      | none => simp [decodeField, found]
      | some held => cases held <;> simp [decodeField, found, Scalar.decode, Except.mapError]
  | _ => rfl

namespace Decoder

theorem runFields_eq_error {fields : List (String × Decoder)}
    (failed : runFields m fields data = .error error) :
    ∃ field ∈ fields, field.2.run m data = .error error := by
  induction fields with
  | nil => exact nomatch failed
  | cons field rest ih =>
      obtain ⟨name, decoder⟩ := field
      rcases Except.bind_eq_error.mp failed with here | ⟨decoded, _, after⟩
      · exact ⟨_, List.mem_cons_self, here⟩
      · rcases Except.bind_eq_error.mp after with later | ⟨others, _, done⟩
        · obtain ⟨field, among, failed'⟩ := ih later
          exact ⟨field, List.mem_cons_of_mem _ among, failed'⟩
        · exact nomatch done

theorem runRecord_eq_error {r : RecordDecoder} (failed : runRecord m r data = .error error) :
    ∃ field ∈ r.fields, field.2.run m data = .error error := by
  rw [runRecord.eq_def] at failed
  rcases Except.bind_eq_error.mp failed with here | ⟨entries, _, done⟩
  · exact runFields_eq_error here
  · cases done

/-- A union fails where there is no case of the tag, or where the first one does. -/
theorem runCases_eq_error {tag : String} {cases : List (String × RecordDecoder)}
    (failed : runCases m tag cases data = .error error) :
    ((∀ entry ∈ cases, entry.1 ≠ tag) ∧ error = .unexpectedUnionType tag) ∨
      ∃ r, cases.lookup tag = some r ∧ runRecord m r data = .error error := by
  induction cases with
  | nil => exact .inl ⟨by simp, (Except.error.inj failed).symm⟩
  | cons first rest ih =>
      obtain ⟨name, r⟩ := first
      by_cases same : name = tag
      · subst same
        rw [runCases, if_pos (beq_self_eq_true name)] at failed
        exact .inr ⟨r, List.lookup_cons_self, failed⟩
      · rw [runCases, if_neg (by simpa using same)] at failed
        rw [Dictionary.lookup_cons_of_ne (Ne.symm same)]
        refine (ih failed).imp_left fun noCase => ?_
        exact ⟨List.forall_mem_cons.mpr ⟨same, noCase.1⟩, noCase.2⟩

/-- Whatever an optional decoder is run on, it succeeds. -/
theorem run_optional_ne_error {inner : Decoder} :
    (Decoder.optional inner).run m data ≠ .error error := by
  intro failed
  rw [run] at failed
  split at failed <;> cases failed

/-! ### From the error to its cause -/

/-- How a decoder comes to fail: it leads, by the steps of the error, to a decoder that fails with the
root of the error, which says the truth there, and every decoder on the way fails with that root. -/
structure FaultAt (m : Module) (decoder : Decoder) (data : Json) (error : DecodeError)
    (passed : List (Decoder × Json)) (target : Decoder) (x : Json) : Prop where
  leads : decoder.Leads data error.steps passed target x
  fails : target.run m x = .error error.root
  truth : error.root.TrueOf m target x
  passing : ∀ on ∈ passed, ∃ cause, on.1.run m on.2 = .error cause ∧ cause.root = error.root

variable {decoder inner target : Decoder} {held x : Json} {cause : DecodeError}
  {passed : List (Decoder × Json)}

/-- A decoder that itself has the reason to fail. -/
theorem FaultAt.here (failed : decoder.run m data = .error error)
    (truth : error.TrueOf m decoder data) : decoder.FaultAt m data error [] decoder data := by
  have atRoot : error.steps = [] ∧ error.root = error := by cases truth <;> exact ⟨rfl, rfl⟩
  refine ⟨?_, ?_, ?_, by simp⟩
  · rw [atRoot.1]
    exact .here
  · rw [atRoot.2]
    exact failed
  · rw [atRoot.2]
    exact truth

/-- A decoder that fails because of one that it runs. -/
theorem FaultAt.behind (failed : decoder.run m data = .error error)
    (fault : inner.FaultAt m held cause passed target x) (same : error.root = cause.root)
    (leads : decoder.Leads data error.steps ((decoder, data) :: passed) target x) :
    decoder.FaultAt m data error ((decoder, data) :: passed) target x where
  leads := leads
  fails := same ▸ fault.fails
  truth := same ▸ fault.truth
  passing := List.forall_mem_cons.mpr ⟨⟨error, failed, rfl⟩, same ▸ fault.passing⟩

/-- Where a decoder fails, its error has a cause. -/
def HasFault (m : Module) (decoder : Decoder) : Prop :=
  ∀ data error, decoder.run m data = .error error →
    ∃ passed target x, decoder.FaultAt m data error passed target x

theorem hasFault_scalar (s : Scalar) : (Decoder.scalar s).HasFault m := by
  intro data error failed
  have expected := Scalar.decode_eq_error failed
  refine ⟨_, _, _, .here failed ?_⟩
  rw [expected]
  refine .expected (.scalar fun value reads => ?_)
  rw [run, Scalar.decode_eq_ok.mpr reads] at failed
  cases failed

theorem HasFault.field {wire : String} (below : inner.HasFault m) :
    (Decoder.field wire inner).HasFault m := by
  intro data error failed
  rcases decodeField_eq_error failed with
    ⟨noObject, rfl⟩ | ⟨entries, rfl, missing, rfl⟩ |
      ⟨entries, held, cause, rfl, found, failed', rfl⟩
  · exact ⟨_, _, _, .here failed (.expected (.field noObject))⟩
  · refine ⟨_, _, _, .here failed (.missingField fun entry member same => ?_)⟩
    exact Dictionary.lookup_eq_none_iff.mp missing (same ▸ List.mem_map_of_mem member)
  · obtain ⟨passed, target, x, fault⟩ := below _ _ failed'
    exact ⟨_, target, x, fault.behind failed rfl (.field found fault.leads)⟩

theorem HasFault.list (below : inner.HasFault m) : (Decoder.list inner).HasFault m := by
  intro data error failed
  have failed' := failed
  rw [run, Except.map_eq_error] at failed'
  rcases decodeList_eq_error failed' with
    ⟨noArray, rfl⟩ | ⟨items, n, held, cause, rfl, found, failed'', rfl⟩
  · exact ⟨_, _, _, .here failed (.expected (.list noArray))⟩
  · obtain ⟨passed, target, x, fault⟩ := below _ _ failed''
    exact ⟨_, target, x, fault.behind failed rfl (.item found fault.leads)⟩

theorem hasFault_record {r : RecordDecoder} (below : ∀ field ∈ r.fields, field.2.HasFault m) :
    (Decoder.record r).HasFault m := by
  intro data error failed
  obtain ⟨field, among, failed'⟩ := runRecord_eq_error failed
  obtain ⟨passed, target, x, fault⟩ := below field among _ _ failed'
  exact ⟨_, target, x, fault.behind failed rfl (.record among fault.leads)⟩

theorem hasFault_union {name : String} {cases : List (String × RecordDecoder)}
    (below : ∀ entry ∈ cases, ∀ field ∈ entry.2.fields, field.2.HasFault m) :
    (Decoder.union name cases).HasFault m := by
  intro data error failed
  rcases Except.bind_eq_error.mp failed with untyped | ⟨tag, typed, chosen⟩
  · have failed' : typenameDecoder.run m data = .error error := by
      rw [run_typenameDecoder, untyped]
      rfl
    obtain ⟨passed, target, x, fault⟩ := (hasFault_scalar .string).field _ _ failed'
    exact ⟨_, target, x, fault.behind failed rfl (.typename fault.leads)⟩
  · obtain ⟨entries, rfl, found⟩ := decodeTypename_eq_ok.mp typed
    rcases runCases_eq_error chosen with ⟨untagged, rfl⟩ | ⟨r, first, failed'⟩
    · exact ⟨_, _, _, .here failed (.unexpectedUnionType found untagged)⟩
    · have member := Dictionary.mem_of_lookup first
      obtain ⟨passed, target, x, fault⟩ := hasFault_record (below _ member) _ _ failed'
      exact ⟨_, target, x, fault.behind failed rfl (.case found first fault.leads)⟩

theorem hasFault (m : Module) (decoder : Decoder) : decoder.HasFault m := by
  induction decoder using Decoder.induction with
  | scalar s => exact hasFault_scalar s
  | enum name =>
      intro data error failed
      exact ⟨_, _, _, .here failed (decodeEnum_eq_error failed)⟩
  | field wire decoder below => exact below.field
  | optional inner =>
      intro data error failed
      exact absurd failed run_optional_ne_error
  | list item below => exact below.list
  | record r below => exact hasFault_record below
  | union name cases below => exact hasFault_union below

/-- Where a decoder fails, following the fields and indices of the error leads through keys and items
of the data to a value, and there stands a decoder that fails with the root of the error, which says
the truth about the two. All decoders on the way fail for the same reason; none of them is
optional. -/
theorem error_located {m : Module} {decoder : Decoder} {data : Json} {error : DecodeError}
    (failed : decoder.run m data = .error error) :
    ∃ x, data.at? error.steps = some x ∧
      ∃ passed target, decoder.Leads data error.steps passed target x ∧
        target.run m x = .error error.root ∧ error.root.TrueOf m target x ∧
          ∀ on ∈ passed, (∃ cause, on.1.run m on.2 = .error cause ∧ cause.root = error.root) ∧
            ∀ inner, on.1 ≠ .optional inner := by
  obtain ⟨passed, target, x, fault⟩ := hasFault m decoder _ _ failed
  refine ⟨x, fault.leads.at?, passed, target, fault.leads, fault.fails, fault.truth, ?_⟩
  intro on member
  obtain ⟨cause, failed', same⟩ := fault.passing on member
  refine ⟨⟨cause, failed', same⟩, fun inner optional => ?_⟩
  rw [optional] at failed'
  exact run_optional_ne_error failed'

end Decoder

/-! ### A union that lacks a member -/

/-- A decoder of a list of pets, of which dogs are known only. -/
def petsDecoder : Decoder :=
  .field "pets" (.list (.union "Pet" [("Dog", ⟨.tagged "Pet_Dog",
    [("name", .field "name" (.scalar .string)),
      ("barks", .optional (.field "barks" (.scalar .bool)))]⟩)]))

/-- A dog and a fish. The dog does not say whether it barks, which is no error. -/
def petsData : Json :=
  .object [("pets", .array [
    .object [("__typename", .string "Dog"), ("name", .string "Rex"), ("barks", .null)],
    .object [("__typename", .string "Fish"), ("name", .string "Nemo")]])]

/-- The error points at the second pet, whose type no case of the union has. -/
theorem pets_error_located :
    petsDecoder.run default petsData =
        .error (.inField "pets" (.atIndex 1 (.unexpectedUnionType "Fish"))) ∧
      ∃ x, petsData.at? [.key "pets", .index 1] = some x ∧
        ∃ target, (DecodeError.unexpectedUnionType "Fish").TrueOf default target x := by
  have failed : petsDecoder.run default petsData =
      .error (.inField "pets" (.atIndex 1 (.unexpectedUnionType "Fish"))) := rfl
  obtain ⟨x, found, _, target, _, _, truth, _⟩ := Decoder.error_located failed
  exact ⟨failed, x, found, target, truth⟩

end Elm

end ElmClient
