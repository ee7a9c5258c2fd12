/-
Module: ElmClient.Proofs.Elm.Decoding
Purpose: When a decoder succeeds, one statement for each kind of decoder. Later proofs take runs
  apart and put them together by these alone.
Main exports: Decoder.induction, Scalar.decode_eq_ok, decodeField_eq_ok, decodeList_eq_ok,
  decodeEnum_eq_ok, Decoder.runFields_eq_ok, Decoder.run_union_eq_ok, RecordPlan.run_decoder_eq_ok,
  UnionPlan.lookup_cases
-/
import ElmClient.Elm.Decoding
import ElmClient.Plan.ResponseDecoder
import ElmClient.Proofs.Dictionary
import ElmClient.Proofs.Outcome

namespace ElmClient

/-- Where a number is an integer of 64 bits, it lies in their range. -/
theorem Number.toInt64?_bounds {number : Number} {n : Int} (found : number.toInt64? = some n) :
    -signedLimit ≤ n ∧ n < signedLimit := by
  cases number with
  | integer k =>
      simp only [toInt64?, Bool.and_eq_true, decide_eq_true_eq, Option.ite_none_right_eq_some,
        Option.some.injEq] at found
      obtain ⟨bounds, rfl⟩ := found
      exact bounds
  | float x =>
      obtain ⟨_, bounds⟩ := Option.filter_eq_some_iff.mp found
      simp only [Bool.and_eq_true, decide_eq_true_eq] at bounds
      exact ⟨Int.le_of_lt bounds.1, bounds.2⟩

namespace Elm

variable {α : Type} {m : Module} {data : Json} {value : Value}

/-! ### Induction -/

/-- Induction over decoders: what holds of a record decoder follows from its fields, and what holds
of a union decoder from the fields of its cases. -/
theorem Decoder.induction {motive : Decoder → Prop} (scalar : ∀ s, motive (.scalar s))
    (enum : ∀ name, motive (.enum name))
    (field : ∀ wire decoder, motive decoder → motive (.field wire decoder))
    (optional : ∀ inner, motive inner → motive (.optional inner))
    (list : ∀ item, motive item → motive (.list item))
    (record : ∀ r : RecordDecoder, (∀ field ∈ r.fields, motive field.2) → motive (.record r))
    (union : ∀ name (cases : List (String × RecordDecoder)),
      (∀ entry ∈ cases, ∀ field ∈ entry.2.fields, motive field.2) → motive (.union name cases))
    (decoder : Decoder) : motive decoder :=
  @Decoder.rec motive (fun r => ∀ field ∈ r.fields, motive field.2)
    (fun cases => ∀ entry ∈ cases, ∀ field ∈ entry.2.fields, motive field.2)
    (fun fields => ∀ field ∈ fields, motive field.2)
    (fun entry => ∀ field ∈ entry.2.fields, motive field.2) (fun field => motive field.2)
    scalar enum field optional list record union (fun _ _ each => each)
    (by simp) (fun _ _ first others => List.forall_mem_cons.mpr ⟨first, others⟩)
    (by simp) (fun _ _ first others => List.forall_mem_cons.mpr ⟨first, others⟩)
    (fun _ _ each => each) (fun _ _ holds => holds) decoder

/-! ### Leaves -/

/-- What a scalar is read from and as what. -/
inductive Scalar.Reads : Scalar → Json → Value → Prop where
  | int {number n} (integral : Number.toInt64? number = some n) :
      Reads .int (.number number) (.int n)
  | float (number : Number) : Reads .float (.number number) (.float number.toBinary64)
  | bool (b : Bool) : Reads .bool (.bool b) (.bool b)
  | string (s : String) : Reads .string (.string s) (.string s)
  | posix {number seconds} (integral : Number.toInt64? number = some seconds)
      (low : posixSeconds.1 ≤ seconds) (high : seconds ≤ posixSeconds.2) :
      Reads .posix (.number number) (.posix (seconds * 1000))

theorem Scalar.decode_eq_ok {scalar : Scalar} :
    scalar.decode data = .ok value ↔ scalar.Reads data value := by
  constructor
  · intro decoded
    cases scalar with
    | int =>
        cases data with
        | number number =>
            cases integral : number.toInt64? with
            | none => simp [Scalar.decode, integral] at decoded
            | some n =>
                obtain rfl : .int n = value := by simpa [Scalar.decode, integral] using decoded
                exact .int integral
        | _ => simp [Scalar.decode] at decoded
    | float =>
        cases data with
        | number number => exact Except.ok.inj decoded ▸ .float number
        | _ => simp [Scalar.decode] at decoded
    | bool =>
        cases data with
        | bool b => exact Except.ok.inj decoded ▸ .bool b
        | _ => simp [Scalar.decode] at decoded
    | string =>
        cases data with
        | string s => exact Except.ok.inj decoded ▸ .string s
        | _ => simp [Scalar.decode] at decoded
    | posix =>
        cases data with
        | number number =>
            cases integral : number.toInt64? with
            | none => simp [Scalar.decode, integral] at decoded
            | some seconds =>
                by_cases fits : posixSeconds.1 ≤ seconds ∧ seconds ≤ posixSeconds.2
                · obtain rfl : .posix (seconds * 1000) = value := by
                    simpa [Scalar.decode, integral, Option.filter, fits] using decoded
                  exact .posix integral fits.1 fits.2
                · simp [Scalar.decode, integral, Option.filter, fits] at decoded
        | _ => simp [Scalar.decode] at decoded
  · intro reads
    cases reads with
    | int integral => simp [Scalar.decode, integral]
    | float number => rfl
    | bool b => rfl
    | string s => rfl
    | posix integral low high => simp [Scalar.decode, integral, Option.filter, low, high]

/-! ### Fields, lists and tags -/

theorem decodeField_eq_ok {wire : String} {decode : Json → Decoded α} {result : α} :
    decodeField wire decode data = .ok result ↔
      ∃ entries held, data = .object entries ∧ entries.lookup wire = some held ∧
        decode held = .ok result := by
  cases data with
  | object entries =>
      cases found : entries.lookup wire with
      | none => simp [decodeField, found]
      | some held => simp [decodeField, found, Except.mapError_eq_ok]
  | _ => simp [decodeField]

theorem decodeItems_eq_ok {decode : Json → Decoded α} {index : Nat} {items : List Json}
    {results : List α} :
    decodeItems decode index items = .ok results ↔
      List.Forall₂ (fun item result => decode item = .ok result) items results := by
  induction items generalizing index results with
  | nil =>
      rw [decodeItems, List.forall₂_nil_left_iff]
      exact ⟨fun succeeded => (Except.ok.inj succeeded).symm,
        fun empty => congrArg Except.ok empty.symm⟩
  | cons first rest ih =>
      rw [decodeItems, Except.bind_eq_ok, List.forall₂_cons_left_iff]
      constructor
      · rintro ⟨decoded, succeeded, after⟩
        obtain ⟨others, later, same⟩ := Except.bind_eq_ok.mp after
        exact ⟨decoded, others, Except.mapError_eq_ok.mp succeeded, ih.mp later,
          (Except.pure_eq_ok.mp same).symm⟩
      · rintro ⟨decoded, others, succeeded, later, rfl⟩
        exact ⟨decoded, Except.mapError_eq_ok.mpr succeeded,
          Except.bind_eq_ok.mpr ⟨others, ih.mpr later, rfl⟩⟩

theorem decodeList_eq_ok {decode : Json → Decoded α} {results : List α} :
    decodeList decode data = .ok results ↔ ∃ items, data = .array items ∧
      List.Forall₂ (fun item result => decode item = .ok result) items results := by
  cases data with
  | array items => simp [decodeList, decodeItems_eq_ok]
  | _ => simp [decodeList]

theorem decodeEnum_eq_ok {enum : String} :
    decodeEnum m enum data = .ok value ↔
      ∃ wire declaration enumCase, data = .string wire ∧ m.enum enum = some declaration ∧
        declaration.cases.find? (·.wire == wire) = some enumCase ∧
          value = .tag enumCase.constructor := by
  cases data with
  | string wire =>
      cases declared : m.enum enum with
      | none => simp [decodeEnum, declared]
      | some declaration =>
          cases found : declaration.cases.find? (·.wire == wire) with
          | none => simp [decodeEnum, declared, found]
          | some enumCase => simp [decodeEnum, declared, found, eq_comm]
  | _ => simp [decodeEnum]

theorem decodeTypename_eq_ok {tag : String} :
    decodeTypename data = .ok tag ↔
      ∃ entries, data = .object entries ∧ entries.lookup typenameKey = some (.string tag) := by
  rw [decodeTypename, decodeField_eq_ok]
  constructor
  · rintro ⟨entries, held, rfl, found, decoded⟩
    cases held with
    | string text =>
        obtain rfl := Except.ok.inj decoded
        exact ⟨entries, rfl, found⟩
    | _ => exact nomatch decoded
  · rintro ⟨entries, rfl, found⟩
    exact ⟨entries, _, rfl, found, rfl⟩

/-! ### Records, layers and unions -/

namespace Decoder

theorem runFields_eq_ok {fields : List (String × Decoder)} {entries : List (String × Value)} :
    runFields m fields data = .ok entries ↔
      List.Forall₂ (fun field entry => entry.1 = field.1 ∧ field.2.run m data = .ok entry.2)
        fields entries := by
  induction fields generalizing entries with
  | nil =>
      rw [runFields, List.forall₂_nil_left_iff]
      exact ⟨fun succeeded => (Except.ok.inj succeeded).symm,
        fun empty => congrArg Except.ok empty.symm⟩
  | cons field rest ih =>
      obtain ⟨name, decoder⟩ := field
      rw [runFields, Except.bind_eq_ok, List.forall₂_cons_left_iff]
      constructor
      · rintro ⟨decoded, succeeded, after⟩
        obtain ⟨others, later, same⟩ := Except.bind_eq_ok.mp after
        exact ⟨(name, decoded), others, ⟨rfl, succeeded⟩, ih.mp later,
          (Except.pure_eq_ok.mp same).symm⟩
      · rintro ⟨⟨name', decoded⟩, others, ⟨named, succeeded⟩, later, rfl⟩
        obtain rfl : name' = name := named
        exact ⟨decoded, succeeded, Except.bind_eq_ok.mpr ⟨others, ih.mpr later, rfl⟩⟩

theorem runRecord_eq_ok {constructor : Constructor} {fields : List (String × Decoder)} :
    runRecord m ⟨constructor, fields⟩ data = .ok value ↔
      ∃ entries, runFields m fields data = .ok entries ∧ constructor.apply entries = value := by
  rw [runRecord, Except.bind_eq_ok]
  exact exists_congr fun entries => and_congr_right fun _ => Except.pure_eq_ok

/-- The first case of the tag is run. -/
theorem runCases_eq_ok {tag : String} {cases : List (String × RecordDecoder)} :
    runCases m tag cases data = .ok value ↔
      ∃ r, cases.lookup tag = some r ∧ runRecord m r data = .ok value := by
  induction cases with
  | nil => simp [runCases]
  | cons first rest ih =>
      obtain ⟨name, r⟩ := first
      by_cases same : name = tag
      · subst same
        simp [runCases]
      · rw [Dictionary.lookup_cons_of_ne (Ne.symm same), ← ih]
        simp [runCases, same]

theorem run_optional_eq_ok {inner : Decoder} :
    (Decoder.optional inner).run m data = .ok value ↔
      (∃ decoded, inner.run m data = .ok decoded ∧ value = .just decoded) ∨
        ((∀ decoded, inner.run m data ≠ .ok decoded) ∧ value = .nothing) := by
  cases tried : inner.run m data with
  | ok decoded => simp [run, tried, eq_comm]
  | error cause => simp [run, tried, eq_comm]

theorem run_list_eq_ok {item : Decoder} :
    (Decoder.list item).run m data = .ok value ↔
      ∃ items results, data = .array items ∧ value = .list results ∧
        List.Forall₂ (fun json result => item.run m json = .ok result) items results := by
  rw [run, Except.map_eq_ok]
  constructor
  · rintro ⟨results, succeeded, rfl⟩
    obtain ⟨items, rfl, each⟩ := decodeList_eq_ok.mp succeeded
    exact ⟨items, results, rfl, rfl, each⟩
  · rintro ⟨items, results, rfl, rfl, each⟩
    exact ⟨results, decodeList_eq_ok.mpr ⟨items, rfl, each⟩, rfl⟩

theorem run_union_eq_ok {name : String} {cases : List (String × RecordDecoder)} :
    (Decoder.union name cases).run m data = .ok value ↔
      ∃ tag r, decodeTypename data = .ok tag ∧ cases.lookup tag = some r ∧
        runRecord m r data = .ok value := by
  rw [run, Except.bind_eq_ok]
  constructor
  · rintro ⟨tag, typed, chosen⟩
    obtain ⟨r, found, succeeded⟩ := runCases_eq_ok.mp chosen
    exact ⟨tag, r, typed, found, succeeded⟩
  · rintro ⟨tag, r, typed, found, succeeded⟩
    exact ⟨tag, typed, runCases_eq_ok.mpr ⟨r, found, succeeded⟩⟩

end Decoder

end Elm

/-! ### The decoders of plans -/

open Elm

theorem RecordPlan.decoder_eq (constructor : Constructor) (plan : RecordPlan) :
    RecordPlan.decoder constructor plan = ⟨constructor, FieldPlan.decoders plan.fields⟩ := by
  obtain ⟨fields, spreads⟩ := plan
  rfl

/-- A planned record is decoded where all of its fields are, all of them from the same value. -/
theorem RecordPlan.run_decoder_eq_ok {m : Module} {constructor : Constructor} {plan : RecordPlan}
    {data : Json} {value : Value} :
    Decoder.runRecord m (RecordPlan.decoder constructor plan) data = .ok value ↔
      ∃ entries, constructor.apply entries = value ∧
        List.Forall₂ (fun field entry =>
          entry.1 = field.name ∧ (FieldPlan.decoder field).run m data = .ok entry.2)
          plan.fields entries := by
  rw [RecordPlan.decoder_eq, Decoder.runRecord_eq_ok]
  apply exists_congr
  intro entries
  rw [and_comm, FieldPlan.decoders_eq, Decoder.runFields_eq_ok, List.forall₂_map_left_iff]

theorem UnionPlan.cases_eq (union : String) (variants : List (String × RecordPlan)) :
    UnionPlan.cases union variants = variants.map fun entry =>
      (entry.1, RecordPlan.decoder (.tagged (Name.unionConstructor union entry.1)) entry.2) := by
  induction variants with
  | nil => rfl
  | cons first rest ih => simp [UnionPlan.cases, ih]

theorem UnionPlan.lookup_cases (union : String) (variants : List (String × RecordPlan))
    (member : String) :
    (UnionPlan.cases union variants).lookup member = (variants.lookup member).map
      (RecordPlan.decoder (.tagged (Name.unionConstructor union member))) := by
  rw [UnionPlan.cases_eq]
  exact Dictionary.lookup_map_entry
    (fun member => RecordPlan.decoder (.tagged (Name.unionConstructor union member))) member
    variants

end ElmClient
