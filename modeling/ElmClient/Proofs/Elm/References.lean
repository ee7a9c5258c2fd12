/-
Module: ElmClient.Proofs.Elm.References
Purpose: What stands in a type, in a decoder and in an encoder, and what running them reports of the
  names in them: a decoder only reports values that its enumerations lack, and an encoder whose
  names are all declared reports none of them.
Main exports: TypeExpr.OccursIn, Decoder.OccursIn, Encoder.OccursIn, TypeExpr.Each, Decoder.Each,
  Encoder.Each, Decoder.run_unknownEnumValue, Encoder.Resolves,
  Module.encodeVariables_ne_unknownEncoder
-/
import ElmClient.Elm.Encoding
import ElmClient.Proofs.Elm.Faults

namespace ElmClient.Elm

/-! ### Types -/

/-- A type that stands somewhere in a type. -/
inductive TypeExpr.OccursIn (node : TypeExpr) : TypeExpr → Prop where
  | here : OccursIn node node
  | list {item} (inside : OccursIn node item) : OccursIn node (.list item)
  | optional {inner} (inside : OccursIn node inner) : OccursIn node (.optional inner)
  | record {fields row field} (among : field ∈ fields) (inside : OccursIn node field.2) :
      OccursIn node (.record fields row)
  | union {name arguments argument} (among : argument ∈ arguments)
      (inside : OccursIn node argument.2) : OccursIn node (.union name arguments)
  | extend {fragment base} (inside : OccursIn node base) : OccursIn node (.extend fragment base)
  | app {constructor arguments argument} (among : argument ∈ arguments)
      (inside : OccursIn node argument) : OccursIn node (.app constructor arguments)

namespace TypeExpr

/-- A property has every type that stands in a type. -/
def Each (holds : TypeExpr → Prop) (type : TypeExpr) : Prop :=
  ∀ node : TypeExpr, node.OccursIn type → holds node

variable {holds : TypeExpr → Prop}

theorem Each.scalar {s : Scalar} (here : holds (.scalar s)) : (TypeExpr.scalar s).Each holds := by
  intro node inside
  cases inside
  exact here

theorem Each.enum {name : String} (here : holds (.enum name)) :
    (TypeExpr.enum name).Each holds := by
  intro node inside
  cases inside
  exact here

theorem Each.named {name : String} (here : holds (.named name)) :
    (TypeExpr.named name).Each holds := by
  intro node inside
  cases inside
  exact here

theorem Each.list {item : TypeExpr} (here : holds (.list item)) (below : item.Each holds) :
    (TypeExpr.list item).Each holds := by
  intro node inside
  cases inside with
  | here => exact here
  | list inside => exact below node inside

theorem Each.optional {inner : TypeExpr} (here : holds (.optional inner))
    (below : inner.Each holds) : (TypeExpr.optional inner).Each holds := by
  intro node inside
  cases inside with
  | here => exact here
  | optional inside => exact below node inside

theorem Each.record {fields : List (String × TypeExpr)} {row : Option String}
    (here : holds (.record fields row)) (below : ∀ field ∈ fields, field.2.Each holds) :
    (TypeExpr.record fields row).Each holds := by
  intro node inside
  cases inside with
  | here => exact here
  | record among inside => exact below _ among node inside

theorem Each.union {name : String} {arguments : List (String × TypeExpr)}
    (here : holds (.union name arguments))
    (below : ∀ argument ∈ arguments, argument.2.Each holds) :
    (TypeExpr.union name arguments).Each holds := by
  intro node inside
  cases inside with
  | here => exact here
  | union among inside => exact below _ among node inside

theorem Each.extend {fragment : String} {base : TypeExpr} (here : holds (.extend fragment base))
    (below : base.Each holds) : (TypeExpr.extend fragment base).Each holds := by
  intro node inside
  cases inside with
  | here => exact here
  | extend inside => exact below node inside

theorem Each.app {constructor : String} {arguments : List TypeExpr}
    (here : holds (.app constructor arguments))
    (below : ∀ argument ∈ arguments, argument.Each holds) :
    (TypeExpr.app constructor arguments).Each holds := by
  intro node inside
  cases inside with
  | here => exact here
  | app among inside => exact below _ among node inside

/-- Layers around a type add lists and optional types only. -/
theorem Each.wrap (list : ∀ item, holds (.list item)) (optional : ∀ inner, holds (.optional inner))
    (layers : List Layer) {inner : TypeExpr} (below : inner.Each holds) :
    (TypeExpr.wrap layers inner).Each holds := by
  induction layers with
  | nil => exact below
  | cons layer rest ih =>
      cases layer with
      | optional => exact .optional (optional _) ih
      | list => exact .list (list _) ih

end TypeExpr

/-! ### Decoders -/

/-- A decoder that stands somewhere in a decoder. -/
inductive Decoder.OccursIn (node : Decoder) : Decoder → Prop where
  | here : OccursIn node node
  | field {wire decoder} (inside : OccursIn node decoder) : OccursIn node (.field wire decoder)
  | optional {inner} (inside : OccursIn node inner) : OccursIn node (.optional inner)
  | list {item} (inside : OccursIn node item) : OccursIn node (.list item)
  | record {r field} (among : field ∈ r.fields) (inside : OccursIn node field.2) :
      OccursIn node (.record r)
  | union {name cases entry field} (chosen : entry ∈ cases) (among : field ∈ entry.2.fields)
      (inside : OccursIn node field.2) : OccursIn node (.union name cases)

namespace Decoder

/-- A property has every decoder that stands in a decoder. -/
def Each (holds : Decoder → Prop) (decoder : Decoder) : Prop :=
  ∀ node : Decoder, node.OccursIn decoder → holds node

variable {holds : Decoder → Prop}

theorem Each.scalar {s : Scalar} (here : holds (.scalar s)) : (Decoder.scalar s).Each holds := by
  intro node inside
  cases inside
  exact here

theorem Each.enum {name : String} (here : holds (.enum name)) :
    (Decoder.enum name).Each holds := by
  intro node inside
  cases inside
  exact here

theorem Each.field {wire : String} {decoder : Decoder} (here : holds (.field wire decoder))
    (below : decoder.Each holds) : (Decoder.field wire decoder).Each holds := by
  intro node inside
  cases inside with
  | here => exact here
  | field inside => exact below node inside

theorem Each.optional {inner : Decoder} (here : holds (.optional inner))
    (below : inner.Each holds) : (Decoder.optional inner).Each holds := by
  intro node inside
  cases inside with
  | here => exact here
  | optional inside => exact below node inside

theorem Each.list {item : Decoder} (here : holds (.list item)) (below : item.Each holds) :
    (Decoder.list item).Each holds := by
  intro node inside
  cases inside with
  | here => exact here
  | list inside => exact below node inside

theorem Each.record {r : RecordDecoder} (here : holds (.record r))
    (below : ∀ field ∈ r.fields, field.2.Each holds) : (Decoder.record r).Each holds := by
  intro node inside
  cases inside with
  | here => exact here
  | record among inside => exact below _ among node inside

theorem Each.union {name : String} {cases : List (String × RecordDecoder)}
    (here : holds (.union name cases))
    (below : ∀ entry ∈ cases, ∀ field ∈ entry.2.fields, field.2.Each holds) :
    (Decoder.union name cases).Each holds := by
  intro node inside
  cases inside with
  | here => exact here
  | union chosen among inside => exact below _ chosen _ among node inside

theorem each_scalar {s : Scalar} : (Decoder.scalar s).Each holds ↔ holds (.scalar s) :=
  ⟨fun each => each _ .here, .scalar⟩

theorem each_enum {name : String} : (Decoder.enum name).Each holds ↔ holds (.enum name) :=
  ⟨fun each => each _ .here, .enum⟩

theorem each_field {wire : String} {decoder : Decoder} : (Decoder.field wire decoder).Each holds ↔
    holds (.field wire decoder) ∧ decoder.Each holds :=
  ⟨fun each => ⟨each _ .here, fun _ inside => each _ (.field inside)⟩,
    fun ⟨here, below⟩ => .field here below⟩

theorem each_optional {inner : Decoder} :
    (Decoder.optional inner).Each holds ↔ holds (.optional inner) ∧ inner.Each holds :=
  ⟨fun each => ⟨each _ .here, fun _ inside => each _ (.optional inside)⟩,
    fun ⟨here, below⟩ => .optional here below⟩

theorem each_list {item : Decoder} :
    (Decoder.list item).Each holds ↔ holds (.list item) ∧ item.Each holds :=
  ⟨fun each => ⟨each _ .here, fun _ inside => each _ (.list inside)⟩,
    fun ⟨here, below⟩ => .list here below⟩

theorem each_record {r : RecordDecoder} : (Decoder.record r).Each holds ↔
    holds (.record r) ∧ ∀ field ∈ r.fields, field.2.Each holds :=
  ⟨fun each => ⟨each _ .here, fun _ among _ inside => each _ (.record among inside)⟩,
    fun ⟨here, below⟩ => .record here below⟩

theorem each_union {name : String} {cases : List (String × RecordDecoder)} :
    (Decoder.union name cases).Each holds ↔ holds (.union name cases) ∧
      ∀ entry ∈ cases, ∀ field ∈ entry.2.fields, field.2.Each holds :=
  ⟨fun each => ⟨each _ .here,
      fun _ chosen _ among _ inside => each _ (.union chosen among inside)⟩,
    fun ⟨here, below⟩ => .union here below⟩

/-- Layers around a decoder add lists and optional decoders only. -/
theorem Each.wrap (list : ∀ item, holds (.list item)) (optional : ∀ inner, holds (.optional inner))
    (layers : List Layer) {inner : Decoder} (below : inner.Each holds) :
    (Decoder.wrap layers inner).Each holds := by
  induction layers with
  | nil => exact below
  | cons layer rest ih =>
      cases layer with
      | optional => exact .optional (optional _) ih
      | list => exact .list (list _) ih

end Decoder

section Decode

variable {m : Module} {enum wire : String}

/-- The declaration of an enumeration has no value of a name, if there is a declaration. -/
def Module.Lacks (m : Module) (enum wire : String) : Prop :=
  ((m.enum enum).bind fun enum => enum.cases.find? (·.wire == wire)) = none

theorem Module.lacks_of_unlisted (unlisted : ∀ declared, m.enum enum = some declared →
    ∀ listed ∈ declared.cases, listed.wire ≠ wire) : m.Lacks enum wire := by
  refine Option.bind_eq_none_iff.mpr fun declared found => List.find?_eq_none.mpr ?_
  exact fun listed among same => unlisted declared found listed among (beq_iff_eq.mp same)

/-- An enumeration that a decoder comes to run stands in the decoder. The one decoder that a union
adds of its own, which reads the name of the type, has none. -/
theorem Decoder.Leads.enum_occursIn {decoder : Decoder} {data x : Json} {steps : List Json.Step}
    {passed : List (Decoder × Json)}
    (leads : decoder.Leads data steps passed (.enum enum) x) :
    (Decoder.enum enum).OccursIn decoder := by
  generalize same : Decoder.enum enum = target at leads
  induction leads with
  | here => exact .here
  | field _ _ ih => exact .field (ih same)
  | optional _ ih => exact .optional (ih same)
  | item _ _ ih => exact .list (ih same)
  | record among _ ih => exact .record among (ih same)
  | typename _ ih =>
      subst same
      cases ih rfl with
      | field inside => cases inside
  | case _ chosen _ ih =>
      subst same
      cases ih rfl with
      | record among inside => exact .union (Dictionary.mem_of_lookup chosen) among inside

/-- A decoder reports an unknown value only for an enumeration that stands in it, and only a value
that the declaration lacks. -/
theorem Decoder.run_unknownEnumValue {decoder : Decoder} {data : Json} {cause : DecodeError}
    (failed : decoder.run m data = .error cause) (unknown : cause.root = .unknownEnumValue enum wire) :
    (Decoder.enum enum).OccursIn decoder ∧ m.Lacks enum wire := by
  obtain ⟨passed, target, x, fault⟩ := decoder.hasFault m _ _ failed
  have truth := fault.truth
  rw [unknown] at truth
  cases truth with
  | unknownEnumValue unlisted =>
      exact ⟨fault.leads.enum_occursIn, Module.lacks_of_unlisted unlisted⟩

end Decode

/-! ### Encoders -/

/-- An encoder that stands somewhere in an encoder. -/
inductive Encoder.OccursIn (node : Encoder) : Encoder → Prop where
  | here : OccursIn node node
  | object {fields field} (among : field ∈ fields) (inside : OccursIn node field.encoder) :
      OccursIn node (.object fields)
  | list {item} (inside : OccursIn node item) : OccursIn node (.list item)
  | optional {inner} (inside : OccursIn node inner) : OccursIn node (.optional inner)

namespace Encoder

/-- A property has every encoder that stands in an encoder. -/
def Each (holds : Encoder → Prop) (encoder : Encoder) : Prop :=
  ∀ node : Encoder, node.OccursIn encoder → holds node

variable {holds : Encoder → Prop}

theorem Each.scalar {s : Scalar} (here : holds (.scalar s)) : (Encoder.scalar s).Each holds := by
  intro node inside
  cases inside
  exact here

theorem Each.enum {name : String} (here : holds (.enum name)) :
    (Encoder.enum name).Each holds := by
  intro node inside
  cases inside
  exact here

theorem Each.named {input : String} (here : holds (.named input)) :
    (Encoder.named input).Each holds := by
  intro node inside
  cases inside
  exact here

theorem Each.object {fields : List (EncodedField Encoder)} (here : holds (.object fields))
    (below : ∀ field ∈ fields, field.encoder.Each holds) :
    (Encoder.object fields).Each holds := by
  intro node inside
  cases inside with
  | here => exact here
  | object among inside => exact below _ among node inside

theorem Each.list {item : Encoder} (here : holds (.list item)) (below : item.Each holds) :
    (Encoder.list item).Each holds := by
  intro node inside
  cases inside with
  | here => exact here
  | list inside => exact below node inside

theorem Each.optional {inner : Encoder} (here : holds (.optional inner))
    (below : inner.Each holds) : (Encoder.optional inner).Each holds := by
  intro node inside
  cases inside with
  | here => exact here
  | optional inside => exact below node inside

/-- Layers around an encoder add lists and optional encoders only. -/
theorem Each.wrap (list : ∀ item, holds (.list item)) (optional : ∀ inner, holds (.optional inner))
    (layers : List Layer) {inner : Encoder} (below : inner.Each holds) :
    (Encoder.wrap layers inner).Each holds := by
  induction layers with
  | nil => exact below
  | cons layer rest ih =>
      cases layer with
      | optional => exact .optional (optional _) ih
      | list => exact .list (list _) ih

end Encoder

/-- The encoders that stand in an encoder by their names are declared. -/
def Encoder.Resolves (m : Module) (encoder : Encoder) : Prop :=
  ∀ input, (Encoder.named input).OccursIn encoder → ∃ declared, m.encoder input = some declared

section Encode

variable {m : Module} {input : String}

/-- Fields that are encoded report what one of them does. -/
theorem encodeFields_eq_error {fields : List (EncodedField Encoder)}
    {encoders : List (String × (Encoder → Encoded Json))} {cause : EncodeError}
    (failed : encodeFields fields encoders = .error cause) :
    (∃ name, cause = .missingField name) ∨ ∃ field ∈ fields, ∃ encode,
      encoders.lookup field.name = some encode ∧ encode field.encoder = .error cause := by
  obtain ⟨field, among, here⟩ := Except.exists_of_mapM_eq_error failed
  cases found : encoders.lookup field.name with
  | none =>
      simp only [found] at here
      exact Or.inl ⟨_, (Except.error.inj here).symm⟩
  | some encode =>
      simp only [found] at here
      rcases Except.bind_eq_error.mp here with failed' | ⟨value, _, done⟩
      · exact Or.inr ⟨field, among, encode, found, failed'⟩
      · exact nomatch done

mutual

/-- Where every declared encoder only names declared ones, an encoder that does so too reports no
name. -/
theorem Value.encode_ne_unknownEncoder
    (closed : ∀ input encoder, m.encoder input = some encoder → encoder.Resolves m) :
    ∀ (value : Value) {encoder : Encoder}, encoder.Resolves m →
      value.encode m encoder ≠ .error (.unknownEncoder input)
  | value, encoder, resolves => by
      intro failed
      rw [Value.encode.eq_def] at failed
      split at failed
      · exact nomatch failed
      · split at failed
        · exact nomatch failed
        · exact nomatch failed
      · exact nomatch failed
      · exact nomatch failed
      · exact nomatch failed
      · exact nomatch failed
      · next entries fields =>
          rcases encodeFields_eq_error (Except.map_eq_error.mp failed) with
            ⟨name, missing⟩ | ⟨field, among, encode, found, failed'⟩
          · exact nomatch missing
          · exact Value.fieldEncoders_ne_unknownEncoder closed entries
              (Dictionary.mem_of_lookup found)
              (fun input named => resolves input (.object among named)) failed'
      · next items item =>
          exact Value.encodeItems_ne_unknownEncoder closed items
            (fun input named => resolves input (.list named)) (Except.map_eq_error.mp failed)
      · exact nomatch failed
      · next inner encoder =>
          exact Value.encode_ne_unknownEncoder closed inner
            (fun input named => resolves input (.optional named)) failed
      · next constructor payload input' =>
          split at failed
          · obtain ⟨declared, found⟩ := resolves input' .here
            rw [found] at failed
            exact Value.encode_ne_unknownEncoder closed payload (closed _ _ found) failed
          · exact nomatch failed
      · exact nomatch failed

/-- The items of a list report no name. -/
theorem Value.encodeItems_ne_unknownEncoder
    (closed : ∀ input encoder, m.encoder input = some encoder → encoder.Resolves m) :
    ∀ (items : List Value) {encoder : Encoder}, encoder.Resolves m →
      Value.encodeItems m items encoder ≠ .error (.unknownEncoder input)
  | [], encoder, _ => fun failed => nomatch failed
  | item :: rest, encoder, resolves => by
      intro failed
      rcases Except.bind_eq_error.mp failed with here | ⟨first, _, after⟩
      · exact Value.encode_ne_unknownEncoder closed item resolves here
      · rcases Except.bind_eq_error.mp after with later | ⟨others, _, done⟩
        · exact Value.encodeItems_ne_unknownEncoder closed rest resolves later
        · exact nomatch done

/-- The fields of a record report no name. -/
theorem Value.fieldEncoders_ne_unknownEncoder
    (closed : ∀ input encoder, m.encoder input = some encoder → encoder.Resolves m) :
    ∀ (entries : List (String × Value)) {name : String} {encode : Encoder → Encoded Json},
      (name, encode) ∈ Value.fieldEncoders m entries → ∀ {encoder : Encoder},
        encoder.Resolves m → encode encoder ≠ .error (.unknownEncoder input)
  | [], _, _, absent => nomatch absent
  | (_, value) :: rest, name, encode, member => by
      intro resolves failed
      rcases List.mem_cons.mp member with here | later
      · obtain ⟨_, rfl⟩ := Prod.mk.inj here
        exact Value.encode_ne_unknownEncoder closed value resolves failed
      · exact Value.fieldEncoders_ne_unknownEncoder closed rest later resolves failed

end

/-- The parameters of a request report no name if its encoders only name declared ones. -/
theorem Module.encodeVariables_ne_unknownEncoder
    (closed : ∀ input encoder, m.encoder input = some encoder → encoder.Resolves m)
    {operation : String}
    (resolves : ∀ request, m.request operation = some request →
      ∀ parameter ∈ request.parameters, parameter.encoder.Resolves m) (parameters : Value) :
    m.encodeVariables operation parameters ≠ .error (.unknownEncoder input) := by
  intro failed
  unfold Module.encodeVariables at failed
  split at failed
  · next request found =>
      obtain ⟨parameter, among, here⟩ :=
        Except.exists_of_mapM_eq_error (Except.map_eq_error.mp failed)
      unfold encodeParameter at here
      split at here
      · rcases Except.bind_eq_error.mp here with failed' | ⟨encoded, _, done⟩
        · exact Value.encode_ne_unknownEncoder closed _ (resolves request found _ among) failed'
        · exact nomatch done
      · exact nomatch here
  · exact nomatch failed

end Encode

end ElmClient.Elm
