/-
Module: ElmClient.Proofs.Elm.Shadowing
Purpose: The names that lambdas bind in the source of a module. The lambdas of encoders are
  numbered, so none of them shadows another; the lambda of a union always has the same parameter, so
  a union in a branch of a union shadows it, and nothing else is shadowed.
Main exports: Code.Binds, Code.Shadows, Decoder.Any, Decoder.HasUnion, Decoder.NestsUnions,
  Decoder.shadows_code, Encoder.not_shadows_code, Module.source_shadows
-/
import ElmClient.Generation
import ElmClient.Proofs.Elm.Literals
import ElmClient.Proofs.Elm.References
import ElmClient.Proofs.Outcome

namespace ElmClient.Elm

/-! ### Lambdas in code -/

namespace Code

/-- A lambda in code binds a name. -/
def Binds (name : String) : Code → Prop
  | .plain _ | .literal _ | .longLiteral _ => False
  | .lambda parameters body => name ∈ parameters ∨ body.Binds name
  | .append first second => first.Binds name ∨ second.Binds name

/-- A lambda in code binds a name that a lambda around it binds already. -/
def Shadows (name : String) : Code → Prop
  | .plain _ | .literal _ | .longLiteral _ => False
  | .lambda parameters body => (name ∈ parameters ∧ body.Binds name) ∨ body.Shadows name
  | .append first second => first.Shadows name ∨ second.Shadows name

instance decidableBinds (name : String) : (code : Code) → Decidable (code.Binds name)
  | .plain _ | .literal _ | .longLiteral _ => .isFalse id
  | .lambda parameters body =>
      have := decidableBinds name body
      inferInstanceAs (Decidable (name ∈ parameters ∨ body.Binds name))
  | .append first second =>
      have := decidableBinds name first
      have := decidableBinds name second
      inferInstanceAs (Decidable (first.Binds name ∨ second.Binds name))

instance decidableShadows (name : String) : (code : Code) → Decidable (code.Shadows name)
  | .plain _ | .literal _ | .longLiteral _ => .isFalse id
  | .lambda parameters body =>
      have := decidableShadows name body
      inferInstanceAs (Decidable ((name ∈ parameters ∧ body.Binds name) ∨ body.Shadows name))
  | .append first second =>
      have := decidableShadows name first
      have := decidableShadows name second
      inferInstanceAs (Decidable (first.Shadows name ∨ second.Shadows name))

variable {name : String} {code first second : Code} {pieces : List Code}

@[simp] theorem not_binds_plain (text : String) : ¬(plain text).Binds name := id

@[simp] theorem not_binds_literal (value : String) : ¬(literal value).Binds name := id

@[simp] theorem binds_append :
    (first ++ second).Binds name ↔ first.Binds name ∨ second.Binds name := Iff.rfl

@[simp] theorem binds_lambda {parameters : List String} :
    (lambda parameters code).Binds name ↔ name ∈ parameters ∨ code.Binds name := Iff.rfl

@[simp] theorem not_shadows_plain (text : String) : ¬(plain text).Shadows name := id

@[simp] theorem not_shadows_literal (value : String) : ¬(literal value).Shadows name := id

@[simp] theorem not_shadows_longLiteral (value : String) : ¬(longLiteral value).Shadows name := id

@[simp] theorem shadows_append :
    (first ++ second).Shadows name ↔ first.Shadows name ∨ second.Shadows name := Iff.rfl

@[simp] theorem shadows_lambda {parameters : List String} :
    (lambda parameters code).Shadows name ↔
      (name ∈ parameters ∧ code.Binds name) ∨ code.Shadows name := Iff.rfl

@[simp] theorem binds_concat :
    (concat pieces).Binds name ↔ ∃ piece ∈ pieces, piece.Binds name := by
  induction pieces with
  | nil => simp [concat]
  | cons piece others ih =>
      rw [List.exists_mem_cons_iff, ← ih]
      rfl

@[simp] theorem shadows_concat :
    (concat pieces).Shadows name ↔ ∃ piece ∈ pieces, piece.Shadows name := by
  induction pieces with
  | nil => simp [concat]
  | cons piece others ih =>
      rw [List.exists_mem_cons_iff, ← ih]
      rfl

@[simp] theorem binds_separated (separator : String) :
    (separated (.plain separator) pieces).Binds name ↔ ∃ piece ∈ pieces, piece.Binds name := by
  induction pieces with
  | nil => simp [separated]
  | cons piece others ih =>
      cases others with
      | nil => simp [separated]
      | cons => simp [separated, ih]

@[simp] theorem shadows_separated (separator : String) :
    (separated (.plain separator) pieces).Shadows name ↔
      ∃ piece ∈ pieces, piece.Shadows name := by
  induction pieces with
  | nil => simp [separated]
  | cons piece others ih =>
      cases others with
      | nil => simp [separated]
      | cons => simp [separated, ih]

end Code

variable {name : String} {code first second : Code}

@[simp] theorem not_binds_newLine (indent : Nat) : ¬(newLine indent).Binds name := id

@[simp] theorem not_shadows_newLine (indent : Nat) : ¬(newLine indent).Shadows name := id

@[simp] theorem binds_inParentheses : (inParentheses code).Binds name ↔ code.Binds name := by
  simp [inParentheses]

@[simp] theorem shadows_inParentheses : (inParentheses code).Shadows name ↔ code.Shadows name := by
  simp [inParentheses]

/-! ### Unions in decoders -/

namespace Decoder

/-- Some decoder that stands in a decoder has a property. -/
def Any (holds : Decoder → Prop) (decoder : Decoder) : Prop :=
  ∃ node : Decoder, node.OccursIn decoder ∧ holds node

variable {holds : Decoder → Prop}

/-- Some decoder that stands in a decoder has a property if not every one of them lacks it. -/
theorem any_iff_not_each {decoder : Decoder} :
    decoder.Any holds ↔ ¬decoder.Each fun node => ¬holds node := by
  simp only [Any, Each, not_forall, not_not, exists_prop]

theorem any_scalar {s : Scalar} : (Decoder.scalar s).Any holds ↔ holds (.scalar s) := by
  rw [any_iff_not_each, each_scalar, not_not]

theorem any_enum {enum : String} : (Decoder.enum enum).Any holds ↔ holds (.enum enum) := by
  rw [any_iff_not_each, each_enum, not_not]

theorem any_field {wire : String} {decoder : Decoder} :
    (Decoder.field wire decoder).Any holds ↔
      holds (.field wire decoder) ∨ decoder.Any holds := by
  rw [any_iff_not_each, each_field, not_and_or, not_not, ← any_iff_not_each]

theorem any_optional {inner : Decoder} :
    (Decoder.optional inner).Any holds ↔ holds (.optional inner) ∨ inner.Any holds := by
  rw [any_iff_not_each, each_optional, not_and_or, not_not, ← any_iff_not_each]

theorem any_list {item : Decoder} :
    (Decoder.list item).Any holds ↔ holds (.list item) ∨ item.Any holds := by
  rw [any_iff_not_each, each_list, not_and_or, not_not, ← any_iff_not_each]

theorem any_record {r : RecordDecoder} :
    (Decoder.record r).Any holds ↔
      holds (.record r) ∨ ∃ field ∈ r.fields, field.2.Any holds := by
  rw [any_iff_not_each, each_record, not_and_or, not_not]
  simp only [any_iff_not_each, not_forall, exists_prop]

theorem any_union {union : String} {cases : List (String × RecordDecoder)} :
    (Decoder.union union cases).Any holds ↔
      holds (.union union cases) ∨
        ∃ entry ∈ cases, ∃ field ∈ entry.2.fields, field.2.Any holds := by
  rw [any_iff_not_each, each_union, not_and_or, not_not]
  simp only [any_iff_not_each, not_forall, exists_prop]

/-- A decoder is a union. -/
def IsUnion : Decoder → Prop
  | .union _ _ => True
  | _ => False

/-- A union stands in a decoder. -/
def HasUnion (decoder : Decoder) : Prop := decoder.Any IsUnion

/-- A decoder is a union with a union in one of its branches. -/
def IsUnionOfUnion : Decoder → Prop
  | .union _ cases => ∃ entry ∈ cases, ∃ field ∈ entry.2.fields, field.2.HasUnion
  | _ => False

/-- A union stands in a branch of a union in a decoder. -/
def NestsUnions (decoder : Decoder) : Prop := decoder.Any IsUnionOfUnion

end Decoder

/-! ### The lambdas of decoders -/

/-- The parameter of a field ends with an underscore. -/
theorem fieldParameter_ne_typename (field : String) : fieldParameter field ≠ "typename" := by
  intro same
  have last := congrArg (fun text : String => text.toList.getLast?) same
  simp [fieldParameter] at last

/-- The lambda of a constructor has the parameters of the fields. -/
theorem Constructor.not_binds_typename_code (constructor : Constructor) (names : List String) :
    ¬(constructor.code names).Binds "typename" := by
  have parameters : "typename" ∉ names.map fieldParameter := by
    intro member
    obtain ⟨field, _, same⟩ := List.mem_map.mp member
    exact fieldParameter_ne_typename field same
  cases constructor with
  | recordAlias => exact Code.not_binds_plain _
  | anonymous | tagged => simpa [Constructor.code] using parameters

theorem Constructor.not_shadows_code (constructor : Constructor) (names : List String) :
    ¬(constructor.code names).Shadows name := by
  cases constructor <;> simp [Constructor.code]

theorem binds_typename_applyCode {constructor : Constructor} {names : List String}
    {codes : List Code} :
    (applyCode constructor names codes).Binds "typename" ↔
      ∃ code ∈ codes, code.Binds "typename" := by
  cases codes with
  | nil => simp [applyCode]
  | cons first rest => simp [applyCode, constructor.not_binds_typename_code]

theorem shadows_applyCode {constructor : Constructor} {names : List String} {codes : List Code} :
    (applyCode constructor names codes).Shadows name ↔ ∃ code ∈ codes, code.Shadows name := by
  cases codes with
  | nil => simp [applyCode]
  | cons first rest => simp [applyCode, constructor.not_shadows_code]

theorem binds_caseCode {indent : Nat} {tag : String} :
    (caseCode indent tag code).Binds name ↔ code.Binds name := by
  simp [caseCode]

theorem shadows_caseCode {indent : Nat} {tag : String} :
    (caseCode indent tag code).Shadows name ↔ code.Shadows name := by
  simp [caseCode]

theorem binds_unionCode {indent : Nat} {codes : List Code} :
    (unionCode indent codes).Binds name ↔ name = "typename" ∨ ∃ code ∈ codes, code.Binds name := by
  simp [unionCode, otherCaseCode]

theorem shadows_unionCode {indent : Nat} {codes : List Code} :
    (unionCode indent codes).Shadows name ↔
      (name = "typename" ∧ ∃ code ∈ codes, code.Binds name) ∨
        ∃ code ∈ codes, code.Shadows name := by
  simp [unionCode, otherCaseCode]

namespace Decoder

theorem binds_typename_recordCode {indent : Nat} {r : RecordDecoder} :
    (recordCode indent r).Binds "typename" ↔
      ∃ field ∈ r.fields, (field.2.code indent).Binds "typename" := by
  rw [recordCode, fieldCodes_eq_map, binds_typename_applyCode]
  simp

/-- Where a record is, nothing else is shadowed than in its fields. -/
theorem shadows_recordCode {indent : Nat} {r : RecordDecoder}
    (each : ∀ field ∈ r.fields, ((field.2.code indent).Shadows name ↔
      name = "typename" ∧ field.2.NestsUnions)) :
    (recordCode indent r).Shadows name ↔
      name = "typename" ∧ ∃ field ∈ r.fields, field.2.NestsUnions := by
  rw [recordCode, fieldCodes_eq_map, shadows_applyCode]
  constructor
  · rintro ⟨piece, member, shadows⟩
    obtain ⟨field, among, rfl⟩ := List.mem_map.mp member
    obtain ⟨same, nests⟩ := (each field among).mp shadows
    exact ⟨same, field, among, nests⟩
  · rintro ⟨same, field, among, nests⟩
    exact ⟨_, List.mem_map_of_mem among, (each field among).mpr ⟨same, nests⟩⟩

/-- The lambda of a union binds the name of the type, and no other lambda does. -/
theorem binds_typename_code (decoder : Decoder) (indent : Nat) :
    (decoder.code indent).Binds "typename" ↔ decoder.HasUnion := by
  induction decoder using Decoder.induction generalizing indent with
  | scalar | enum => simp [code, HasUnion, any_scalar, any_enum, IsUnion]
  | field wire decoder ih => simp [code, ih, HasUnion, any_field, IsUnion]
  | optional inner ih => simp [code, ih, HasUnion, any_optional, IsUnion]
  | list item ih => simp [code, ih, HasUnion, any_list, IsUnion]
  | record r ih =>
      rw [code, binds_inParentheses, binds_typename_recordCode, HasUnion, any_record]
      simp only [IsUnion, false_or]
      exact exists_congr fun field => and_congr_right fun member => ih field member indent
  | union union cases => simp [code, binds_unionCode, HasUnion, any_union, IsUnion]

/-- The only name that is shadowed is that of the parameter of a union, by a union in one of its
branches. -/
theorem shadows_code (decoder : Decoder) (indent : Nat) :
    (decoder.code indent).Shadows name ↔ name = "typename" ∧ decoder.NestsUnions := by
  induction decoder using Decoder.induction generalizing indent with
  | scalar | enum => simp [code, NestsUnions, any_scalar, any_enum, IsUnionOfUnion]
  | field wire decoder ih => simp [code, ih, NestsUnions, any_field, IsUnionOfUnion]
  | optional inner ih => simp [code, ih, NestsUnions, any_optional, IsUnionOfUnion]
  | list item ih => simp [code, ih, NestsUnions, any_list, IsUnionOfUnion]
  | record r ih =>
      rw [code, shadows_inParentheses, shadows_recordCode fun field among => ih field among indent,
        NestsUnions, any_record]
      simp only [IsUnionOfUnion, false_or]
      rfl
  | union union cases ih =>
      have binds : (∃ piece ∈ caseCodes indent cases, piece.Binds "typename") ↔
          (Decoder.union union cases).IsUnionOfUnion := by
        simp [caseCodes_eq_map, binds_caseCode, binds_typename_recordCode, binds_typename_code,
          IsUnionOfUnion]
      have shadows : (∃ piece ∈ caseCodes indent cases, piece.Shadows name) ↔
          name = "typename" ∧ ∃ entry ∈ cases, ∃ field ∈ entry.2.fields, field.2.NestsUnions := by
        rw [caseCodes_eq_map]
        constructor
        · rintro ⟨piece, member, shadows⟩
          obtain ⟨entry, chosen, rfl⟩ := List.mem_map.mp member
          obtain ⟨same, nests⟩ := (shadows_recordCode fun field among =>
            ih entry chosen field among _).mp (shadows_caseCode.mp shadows)
          exact ⟨same, entry, chosen, nests⟩
        · rintro ⟨same, entry, chosen, nests⟩
          exact ⟨_, List.mem_map_of_mem chosen, shadows_caseCode.mpr ((shadows_recordCode
            fun field among => ih entry chosen field among _).mpr ⟨same, nests⟩)⟩
      rw [code, shadows_inParentheses, shadows_unionCode, NestsUnions, any_union, and_or_left]
      exact or_congr (and_congr_right fun same => same ▸ binds) shadows

/-- So it is in the body of a declared decoder. -/
theorem shadows_topCode (decoder : Decoder) :
    decoder.topCode.Shadows name ↔ name = "typename" ∧ decoder.NestsUnions := by
  unfold topCode
  split
  · next constructor first rest =>
      rw [← shadows_code _ (indentStep * 2), code, shadows_inParentheses, recordCode,
        fieldCodes_eq_map, shadows_applyCode]
      simp [constructor.not_shadows_code]
  · exact shadows_code _ _

end Decoder

/-! ### The lambdas of encoders -/

/-- A name is a parameter of an encoder at a depth. -/
def IsParameterAt (depth : Nat) (name : String) : Prop :=
  name = "x" ++ toString depth ∨ name = "o" ++ toString depth

/-- The depth of a parameter stands in its name, behind a letter. -/
theorem IsParameterAt.depth_eq {depth : Nat} (here : IsParameterAt depth name) :
    Nat.ofDigitChars 10 name.toList.tail 0 = depth := by
  rcases here with rfl | rfl <;> simp

theorem binds_pairCode :
    (pairCode first second).Binds name ↔ first.Binds name ∨ second.Binds name := by
  simp [pairCode]

theorem shadows_pairCode :
    (pairCode first second).Shadows name ↔ first.Shadows name ∨ second.Shadows name := by
  simp [pairCode]

theorem not_binds_enumEncoderCode (cases : List EnumCase) (value : String) :
    ¬(enumEncoderCode cases value).Binds name := by
  simp [enumEncoderCode, enumTable, binds_pairCode]

theorem not_shadows_enumEncoderCode (cases : List EnumCase) (value : String) :
    ¬(enumEncoderCode cases value).Shadows name := by
  simp [enumEncoderCode, enumTable, shadows_pairCode]

theorem binds_objectCode {entries : List Code} :
    (objectCode entries).Binds name ↔ ∃ entry ∈ entries, entry.Binds name := by
  cases entries <;> simp [objectCode]

theorem shadows_objectCode {entries : List Code} :
    (objectCode entries).Shadows name ↔ ∃ entry ∈ entries, entry.Shadows name := by
  cases entries <;> simp [objectCode]

theorem binds_liftCode {function parameter value : String} :
    (liftCode function parameter code value).Binds name ↔ name = parameter ∨ code.Binds name := by
  simp [liftCode]

theorem shadows_liftCode {function parameter value : String} :
    (liftCode function parameter code value).Shadows name ↔
      (name = parameter ∧ code.Binds name) ∨ code.Shadows name := by
  simp [liftCode]

namespace Encoder

/-- The lambdas of an encoder at a depth have parameters of that depth or of more. -/
theorem binds_code (m : Module) (encoder : Encoder) {value : String} {depth : Nat}
    (binds : (encoder.code m value depth).Binds name) :
    ∃ level, depth ≤ level ∧ IsParameterAt level name := by
  induction encoder using Encoder.induction generalizing value depth with
  | scalar s => exact absurd binds (Code.not_binds_plain _)
  | enum enum => exact absurd binds (not_binds_enumEncoderCode _ _)
  | named input => exact absurd binds (Code.not_binds_plain _)
  | object fields ih =>
      rw [code, entryCodes_eq_map, binds_objectCode] at binds
      obtain ⟨entry, member, binds⟩ := binds
      obtain ⟨field, among, rfl⟩ := List.mem_map.mp member
      obtain ⟨level, deeper, same⟩ := ih field among
        ((binds_pairCode.mp binds).resolve_left (Code.not_binds_literal _))
      exact ⟨level, Nat.le_of_succ_le deeper, same⟩
  | list item ih =>
      rcases binds_liftCode.mp binds with same | binds
      · exact ⟨depth, Nat.le_refl depth, .inl same⟩
      · obtain ⟨level, deeper, same⟩ := ih binds
        exact ⟨level, Nat.le_of_succ_le deeper, same⟩
  | optional inner ih =>
      rcases binds_liftCode.mp binds with same | binds
      · exact ⟨depth, Nat.le_refl depth, .inr same⟩
      · obtain ⟨level, deeper, same⟩ := ih binds
        exact ⟨level, Nat.le_of_succ_le deeper, same⟩

/-- The parameters inside a lambda are deeper than its own. -/
theorem not_binds_code_deeper {m : Module} {encoder : Encoder} {value : String} {depth : Nat}
    (here : IsParameterAt depth name) : ¬(encoder.code m value (depth + 1)).Binds name := by
  intro binds
  obtain ⟨level, deeper, there⟩ := binds_code m encoder binds
  exact absurd (here.depth_eq.symm.trans there.depth_eq) (Nat.ne_of_lt deeper)

/-- Nothing is shadowed in an encoder. -/
theorem not_shadows_code (m : Module) (encoder : Encoder) (value : String) (depth : Nat) :
    ¬(encoder.code m value depth).Shadows name := by
  induction encoder using Encoder.induction generalizing value depth with
  | scalar s => exact Code.not_shadows_plain _
  | enum enum => exact not_shadows_enumEncoderCode _ _
  | named input => exact Code.not_shadows_plain _
  | object fields ih =>
      rw [code, entryCodes_eq_map, shadows_objectCode]
      rintro ⟨entry, member, shadows⟩
      obtain ⟨field, among, rfl⟩ := List.mem_map.mp member
      exact ih field among _ _
        ((shadows_pairCode.mp shadows).resolve_left (Code.not_shadows_literal _))
  | list item ih =>
      rw [code, shadows_liftCode, not_or]
      exact ⟨fun both => not_binds_code_deeper (.inl both.1) both.2, ih _ _⟩
  | optional inner ih =>
      rw [code, shadows_liftCode, not_or]
      exact ⟨fun both => not_binds_code_deeper (.inr both.1) both.2, ih _ _⟩

end Encoder

/-! ### Modules -/

theorem Parameter.not_shadows_code (m : Module) (indent : Nat) (parameter : Parameter) :
    ¬(parameter.code m indent).Shadows name := by
  unfold Parameter.code
  split
  · simp [Encoder.not_shadows_code]
  · simp [shadows_pairCode, Encoder.not_shadows_code]

theorem Request.not_shadows_code (m : Module) (request : Request) :
    ¬(request.code m).Shadows name := by
  unfold Request.code
  cases request.method <;> cases request.parameters <;> simp [Parameter.not_shadows_code]

theorem EnumDeclaration.not_shadows_code (enum : EnumDeclaration) : ¬enum.code.Shadows name := by
  simp [EnumDeclaration.code]

theorem Declaration.shadows_code (m : Module) (declaration : Declaration) :
    (declaration.code m).Shadows name ↔ name = "typename" ∧ ∃ function result decoder,
      declaration = .decoder function result decoder ∧ decoder.NestsUnions := by
  cases declaration with
  | constant | typeAlias | customType | fragment => simp [Declaration.code]
  | request request => simp [Declaration.code, request.not_shadows_code]
  | decoder function result decoder => simp [Declaration.code, decoder.shadows_topCode]
  | encoder input encoder => simp [Declaration.code, encoder.not_shadows_code]
  | enumDecoder enum => simp [Declaration.code, enum.not_shadows_code]

/-- In the source of a module, a lambda binds a name that a lambda around it binds only where a
union stands in a branch of a union in a decoder. Then the name is that of the parameter of
unions. -/
theorem Module.source_shadows (m : Module) : m.sourceCode.text = m.source ∧
    ∀ name, m.sourceCode.Shadows name ↔ name = "typename" ∧ ∃ function result decoder,
      .decoder function result decoder ∈ m.declarations ∧ decoder.NestsUnions := by
  refine ⟨m.text_sourceCode, fun name => ?_⟩
  simp only [Module.sourceCode, Code.shadows_append, Code.not_shadows_plain, Code.shadows_concat,
    List.mem_map, exists_exists_and_eq_and, Declaration.shadows_code, false_or, or_false]
  constructor
  · rintro ⟨_, declared, same, function, result, decoder, rfl, nests⟩
    exact ⟨same, function, result, decoder, declared, nests⟩
  · rintro ⟨same, function, result, decoder, declared, nests⟩
    exact ⟨_, declared, same, function, result, decoder, rfl, nests⟩

/-! ### A union in a branch of a union -/

/-- A schema in which a member of a union has a field of that union. -/
def friendSchema : Schema where
  types := [("Query", .object [("pet", .named "Pet")]), ("Pet", .union ["Dog", "Cat"]),
    ("Dog", .object [("friend", .named "Pet")]), ("Cat", .object [("name", .named "String")]),
    ("String", .scalar)]
  roots := { query := some "Query" }

/-- A document that asks for the friend of a pet. -/
def friendText : String :=
  "\x7b pet \x7b __typename ... on Dog \x7b friend \x7b __typename " ++
    "... on Cat \x7b name \x7d \x7d \x7d \x7d \x7d"

/-- The decoder of the friend shadows the parameter of the decoder of the pet. -/
theorem friend_source_shadows : ∃ m,
    generateFromText friendSchema friendText ⟨"Queries.Pets", "/graphql", .post, false⟩ = .ok m ∧
      m.sourceCode.text = m.source ∧ m.sourceCode.Shadows "typename" ∧
      ∃ function result decoder, .decoder function result decoder ∈ m.declarations ∧
        decoder.NestsUnions := by
  have evaluated : (generateFromText friendSchema friendText
      ⟨"Queries.Pets", "/graphql", .post, false⟩).toOption.any
        (fun m => decide (m.sourceCode.Shadows "typename")) = true := by decide +kernel
  obtain ⟨m, generated, shadows⟩ := Except.any_toOption.mp evaluated
  obtain ⟨same, iff⟩ := m.source_shadows
  have shadows := of_decide_eq_true shadows
  exact ⟨m, generated, same, shadows, ((iff _).mp shadows).2⟩

end ElmClient.Elm
