/-
Module: ElmClient.Proofs.Elm.Literals
Purpose: Where the string literals of a module stand in its source and which they are: one after
  another those of its declarations, none of them right before a quote.
Main exports: Code.occurrences, Code.Writes, Decoder.strings, Encoder.strings, Request.strings,
  Declaration.literals, Module.sourceCode, Module.literals, Module.occurrences_sourceCode
-/
import ElmClient.Elm.Source
import ElmClient.Proofs.Elm.Decoding
import ElmClient.Proofs.Elm.Identifiers
import ElmClient.Proofs.Elm.StringReading

namespace ElmClient.Elm

/-! ### Literals in code -/

namespace Code

/-- The literals of code in order, each with the text that comes after it when the code itself comes
before a text. -/
def occurrences : Code → List Char → List (Literal × List Char)
  | .plain _, _ => []
  | .literal value, rest => [(.short value, rest)]
  | .longLiteral value, rest => [(.long value, rest)]
  | .lambda _ body, rest => body.occurrences (')' :: rest)
  | .append first second, rest =>
      first.occurrences (second.text.toList ++ rest) ++ second.occurrences rest

/-- The literals of code in order. -/
def literals : Code → List Literal
  | .plain _ => []
  | .literal value => [.short value]
  | .longLiteral value => [.long value]
  | .lambda _ body => body.literals
  | .append first second => first.literals ++ second.literals

variable {code first second : Code} {pieces : List Code} {rest : List Char}

theorem map_fst_occurrences (code : Code) (rest : List Char) :
    (code.occurrences rest).map Prod.fst = code.literals := by
  induction code generalizing rest with
  | append first second ih ih' => rw [occurrences, List.map_append, ih, ih', literals]
  | lambda _ body ih => exact ih _
  | _ => rfl

/-- Each literal stands in the text where it is said to. -/
theorem occurrences_suffix {literal : Literal} {after : List Char}
    (member : (literal, after) ∈ code.occurrences rest) :
    literal.text.toList ++ after <:+ code.text.toList ++ rest := by
  induction code generalizing rest with
  | plain => cases member
  | literal | longLiteral =>
      obtain ⟨rfl, rfl⟩ := Prod.mk.inj (List.mem_singleton.mp member)
      exact List.suffix_rfl
  | lambda parameters body ih =>
      have split : (lambda parameters body).text.toList ++ rest =
          ("(\\" ++ " ".intercalate parameters ++ " ->").toList ++
            (body.text.toList ++ ')' :: rest) := by
        simp [text]
      rw [split]
      exact (ih member).trans (List.suffix_append _ _)
  | append first second ih ih' =>
      rw [text, String.toList_append, List.append_assoc]
      rcases List.mem_append.mp member with here | later
      · exact ih here
      · exact (ih' later).trans (List.suffix_append _ _)

theorem literals_append : (first ++ second).literals = first.literals ++ second.literals := rfl

/-! ### Code in which no quote follows a literal -/

/-- Code that does not start with a quote. -/
def Unquoted (code : Code) : Prop := code.text.toList.head? ≠ some '"'

instance (code : Code) : Decidable code.Unquoted := inferInstanceAs (Decidable (_ ≠ _))

/-- Code whose literals are not followed by a quote, if the code itself is not. -/
def Apart (code : Code) : Prop :=
  ∀ rest : List Char, rest.head? ≠ some '"' →
    ∀ occurrence ∈ code.occurrences rest, occurrence.2.head? ≠ some '"'

theorem head?_append_ne {before : List Char} (apart : before.head? ≠ some '"')
    (apart' : rest.head? ≠ some '"') : (before ++ rest).head? ≠ some '"' := by
  cases before with
  | nil => exact apart'
  | cons c more => exact apart

theorem Unquoted.append (one : first.Unquoted) (two : second.Unquoted) :
    (first ++ second).Unquoted := by
  rw [Unquoted, text_append, String.toList_append]
  exact head?_append_ne one two

theorem Unquoted.of_startsWith (starts : Text.startsWith (· != '"') code.text = true) :
    code.Unquoted := by
  intro quote
  rw [Text.startsWith, quote] at starts
  cases starts

/-- Code that starts with something else than a quote, whatever comes later. -/
theorem Unquoted.of_start (starts : Text.startsWith (· != '"') first.text = true) :
    (first ++ second).Unquoted :=
  .of_startsWith (Text.startsWith_append second.text starts)

theorem Unquoted.concat (each : ∀ piece ∈ pieces, piece.Unquoted) : (concat pieces).Unquoted := by
  induction pieces with
  | nil => decide
  | cons piece others ih =>
      obtain ⟨here, later⟩ := List.forall_mem_cons.mp each
      show (piece ++ Code.concat others).Unquoted
      exact here.append (ih later)

/-! ### Code with given literals -/

/-- Code writes the given literals and no others, in their order, and none of them before a quote. -/
structure Writes (code : Code) (written : List Literal) : Prop where
  literals_eq : code.literals = written
  apart : code.Apart

namespace Writes

variable {written others : List Literal} {ι : Type} {items : List ι} {codeOf : ι → Code}
  {literalsOf : ι → List Literal}

theorem plain (text : String) : (Code.plain text).Writes [] :=
  ⟨rfl, fun _ _ _ member => absurd member List.not_mem_nil⟩

theorem literal (value : String) : (Code.literal value).Writes [.short value] :=
  ⟨rfl, fun _ apart _ member => List.mem_singleton.mp member ▸ apart⟩

theorem longLiteral (value : String) : (Code.longLiteral value).Writes [.long value] :=
  ⟨rfl, fun _ apart _ member => List.mem_singleton.mp member ▸ apart⟩

theorem lambda {parameters : List String} (body : code.Writes written) :
    (Code.lambda parameters code).Writes written :=
  ⟨body.literals_eq, fun _ _ _ member => body.apart _ (by simp) _ member⟩

theorem append (one : first.Writes written) (two : second.Writes others)
    (unquoted : second.Unquoted) : (first ++ second).Writes (written ++ others) := by
  refine ⟨by rw [literals_append, one.literals_eq, two.literals_eq], ?_⟩
  intro rest apart occurrence member
  rcases List.mem_append.mp member with here | later
  · exact one.apart _ (head?_append_ne unquoted apart) occurrence here
  · exact two.apart rest apart occurrence later

/-- After code without literals, anything may come. -/
theorem after (one : first.Writes []) (two : second.Writes written) :
    (first ++ second).Writes written := by
  refine ⟨by rw [literals_append, one.literals_eq, two.literals_eq, List.nil_append], ?_⟩
  intro rest apart occurrence member
  rcases List.mem_append.mp member with here | later
  · have named := List.mem_map_of_mem (f := Prod.fst) here
    rw [map_fst_occurrences, one.literals_eq] at named
    exact absurd named List.not_mem_nil
  · exact two.apart rest apart occurrence later

/-- Code without literals may come after anything if it does not start with a quote. -/
theorem before (one : first.Writes written) (two : second.Writes []) (unquoted : second.Unquoted) :
    (first ++ second).Writes written :=
  List.append_nil written ▸ one.append two unquoted

theorem concat (each : ∀ item ∈ items, (codeOf item).Writes (literalsOf item))
    (unquoted : ∀ item ∈ items, (codeOf item).Unquoted) :
    (Code.concat (items.map codeOf)).Writes (items.flatMap literalsOf) := by
  induction items with
  | nil => exact .plain ""
  | cons item items ih =>
      obtain ⟨here, later⟩ := List.forall_mem_cons.mp each
      obtain ⟨_, unquoted'⟩ := List.forall_mem_cons.mp unquoted
      rw [List.map_cons, List.flatMap_cons]
      exact here.append (ih later unquoted') (.concat (List.forall_mem_map.mpr unquoted'))

theorem separated (separator : String) (start : Text.startsWith (· != '"') separator = true)
    (each : ∀ item ∈ items, (codeOf item).Writes (literalsOf item)) :
    (Code.separated (.plain separator) (items.map codeOf)).Writes (items.flatMap literalsOf) := by
  induction items with
  | nil => exact .plain ""
  | cons item items ih =>
      obtain ⟨here, later⟩ := List.forall_mem_cons.mp each
      cases items with
      | nil => simpa [Code.separated] using here
      | cons next more => exact here.append (.after (.plain separator) (ih later)) (.of_start start)

end Writes

end Code

open Code (Unquoted Writes)

variable {code first second : Code} {written others : List Literal}

theorem startsWith_newLine (indent : Nat) :
    Text.startsWith (· != '"') (newLine indent).text = true :=
  Text.startsWith_append _ (by decide)

theorem unquoted_newLine (indent : Nat) : (newLine indent).Unquoted :=
  .of_startsWith (startsWith_newLine indent)

theorem Code.Writes.newLine {indent : Nat} (more : code.Writes written) :
    (Elm.newLine indent ++ code).Writes written := .after (.plain _) more

theorem Code.Writes.inParentheses (inside : code.Writes written) :
    (Elm.inParentheses code).Writes written :=
  .before (.after (.plain "(") inside) (.plain ")") (by decide)

/-! ### Decoders -/

mutual

/-- The strings in the code of a decoder: the keys that it reads, the tags of unions and what it fails
with. -/
def Decoder.strings : Decoder → List String
  | .scalar _ | .enum _ => []
  | .field wire decoder => wire :: decoder.strings
  | .optional inner => inner.strings
  | .list item => item.strings
  | .record r => Decoder.recordStrings r
  | .union _ cases => typenameKey :: (Decoder.caseStrings cases ++ ["Unexpected union type"])
termination_by structural decoder => decoder

/-- The strings of a record decoder. -/
def Decoder.recordStrings : RecordDecoder → List String
  | ⟨_, fields⟩ => Decoder.fieldStrings fields
termination_by structural r => r

/-- The strings of the decoders of fields. -/
def Decoder.fieldStrings : List (String × Decoder) → List String
  | [] => []
  | (_, decoder) :: rest => decoder.strings ++ Decoder.fieldStrings rest
termination_by structural fields => fields

/-- The strings of the cases of a union. -/
def Decoder.caseStrings : List (String × RecordDecoder) → List String
  | [] => []
  | (tag, r) :: rest => tag :: (Decoder.recordStrings r ++ Decoder.caseStrings rest)
termination_by structural cases => cases

end

namespace Decoder

theorem fieldStrings_eq_flatMap (fields : List (String × Decoder)) :
    fieldStrings fields = fields.flatMap fun field => field.2.strings := by
  induction fields with
  | nil => rfl
  | cons first rest ih => rw [fieldStrings, ih, List.flatMap_cons]

theorem caseStrings_eq_flatMap (cases : List (String × RecordDecoder)) :
    caseStrings cases = cases.flatMap fun entry => entry.1 :: recordStrings entry.2 := by
  induction cases with
  | nil => rfl
  | cons first rest ih => rw [caseStrings, ih, List.flatMap_cons, List.cons_append]

theorem fieldCodes_eq_map (indent : Nat) (fields : List (String × Decoder)) :
    fieldCodes indent fields = fields.map fun field => field.2.code indent := by
  induction fields with
  | nil => rfl
  | cons first rest ih => rw [fieldCodes, ih, List.map_cons]

theorem caseCodes_eq_map (indent : Nat) (cases : List (String × RecordDecoder)) :
    caseCodes indent cases = cases.map fun entry =>
      caseCode indent entry.1 (recordCode (caseIndent indent + indentStep) entry.2) := by
  induction cases with
  | nil => rfl
  | cons first rest ih => rw [caseCodes, ih, List.map_cons]

end Decoder

theorem Constructor.writes_code (constructor : Constructor) (fields : List String) :
    (constructor.code fields).Writes [] := by
  cases constructor with
  | recordAlias name => exact .plain _
  | anonymous | tagged => exact .lambda (.plain _)

theorem writes_applyCode (constructor : Constructor) (names : List String) {ι : Type}
    {items : List ι} {codeOf : ι → Code} {literalsOf : ι → List Literal}
    (each : ∀ item ∈ items, (codeOf item).Writes (literalsOf item)) :
    (applyCode constructor names (items.map codeOf)).Writes (items.flatMap literalsOf) := by
  cases items with
  | nil => exact .plain _
  | cons first rest =>
      obtain ⟨here, later⟩ := List.forall_mem_cons.mp each
      have applied : ∀ item ∈ rest, (.plain " |> apply " ++ codeOf item : Code).Unquoted :=
        fun _ _ => .of_start (by decide)
      rw [List.map_cons, List.flatMap_cons, applyCode, List.map_map]
      exact .after (.plain _) (.after (constructor.writes_code names) (.after (.plain _)
        (here.append (.concat (fun item member => .after (.plain _) (later item member)) applied)
          (.concat (List.forall_mem_map.mpr applied)))))

theorem writes_caseCode (indent : Nat) (tag : String) (decoder : code.Writes written) :
    (caseCode indent tag code).Writes (.short tag :: written) :=
  .newLine (.append (.literal tag)
    (.after (.plain _) (.newLine (decoder.before (.plain _) (by decide)))) (.of_start (by decide)))

theorem writes_otherCaseCode (indent : Nat) :
    (otherCaseCode indent).Writes [.short "Unexpected union type"] :=
  .newLine (.after (.plain _) (.newLine (.after (.plain _) (.literal _))))

theorem writes_unionCode (indent : Nat) {cases : List Code} (each : (Code.concat cases).Writes written) :
    (unionCode indent cases).Writes
      (.short typenameKey :: (written ++ [.short "Unexpected union type"])) := by
  have otherwise : (otherCaseCode indent ++ newLine (indent + indentStep * 2)).Writes
      [.short "Unexpected union type"] :=
    (writes_otherCaseCode indent).before (.plain _) (unquoted_newLine _)
  have branches := each.append otherwise (.of_start (Text.startsWith_append _ (startsWith_newLine _)))
  exact .after (.plain _) (.append (.literal typenameKey) (.after (.plain _) (.newLine
    (.after (.plain _) (.newLine (.lambda (.newLine (.after (.plain _) branches)))))))
      (.of_start (by decide)))

theorem Decoder.writes_recordCode {r : RecordDecoder} (indent : Nat)
    (each : ∀ field ∈ r.fields, (field.2.code indent).Writes (field.2.strings.map .short)) :
    (Decoder.recordCode indent r).Writes ((Decoder.recordStrings r).map .short) := by
  rw [Decoder.recordCode, Decoder.fieldCodes_eq_map, Decoder.recordStrings,
    Decoder.fieldStrings_eq_flatMap, List.map_flatMap]
  exact writes_applyCode r.constructor _ each

/-- The code of a decoder has the strings of the decoder as literals. -/
theorem Decoder.writes_code (decoder : Decoder) (indent : Nat) :
    (decoder.code indent).Writes (decoder.strings.map .short) := by
  induction decoder using Decoder.induction generalizing indent with
  | scalar | enum => exact .plain _
  | field wire decoder ih =>
      exact .inParentheses (.after (.plain _) (.append (.literal wire) (.after (.plain _) (ih indent))
        (.of_start (by decide))))
  | optional inner ih => exact .inParentheses (.after (.plain _) (ih indent))
  | list item ih => exact .inParentheses (.after (.plain _) (ih indent))
  | record r ih =>
      exact .inParentheses (Decoder.writes_recordCode indent fun field member => ih field member indent)
  | union name cases ih =>
      have each : ∀ entry ∈ cases, (caseCode indent entry.1
          (Decoder.recordCode (caseIndent indent + indentStep) entry.2)).Writes
            ((entry.1 :: Decoder.recordStrings entry.2).map .short) := fun entry member =>
        writes_caseCode indent entry.1
          (Decoder.writes_recordCode _ fun field among => ih entry member field among _)
      rw [Decoder.code, Decoder.strings, Decoder.caseCodes_eq_map, Decoder.caseStrings_eq_flatMap,
        List.map_cons, List.map_append, List.map_flatMap]
      exact .inParentheses (writes_unionCode indent (.concat each fun _ _ =>
        .of_start (startsWith_newLine _)))

/-- So has the body of a declared decoder. -/
theorem Decoder.writes_topCode (decoder : Decoder) :
    decoder.topCode.Writes (decoder.strings.map .short) := by
  unfold Decoder.topCode
  split
  · next constructor first rest =>
      have lines : ∀ field ∈ rest, (newLine (indentStep * 2) ++
          (.plain "|> apply " ++ field.2.code (indentStep * 2)) : Code).Unquoted :=
        fun _ _ => .of_start (startsWith_newLine _)
      rw [Decoder.strings, Decoder.recordStrings, Decoder.fieldStrings_eq_flatMap, List.map_flatMap,
        List.flatMap_cons]
      exact .after (.plain _) (.after (constructor.writes_code _) (.newLine
        ((first.2.writes_code _).append (.concat (fun field _ =>
          .newLine (.after (.plain _) (field.2.writes_code _))) lines)
            (.concat (List.forall_mem_map.mpr lines)))))
  · exact decoder.writes_code _

/-! ### Encoders -/

/-- Induction over encoders: what holds of an encoder of objects follows from its fields. -/
theorem Encoder.induction {motive : Encoder → Prop} (scalar : ∀ s, motive (.scalar s))
    (enum : ∀ name, motive (.enum name))
    (object : ∀ fields : List (EncodedField Encoder),
      (∀ field ∈ fields, motive field.encoder) → motive (.object fields))
    (list : ∀ item, motive item → motive (.list item))
    (optional : ∀ inner, motive inner → motive (.optional inner))
    (named : ∀ input, motive (.named input)) (encoder : Encoder) : motive encoder :=
  @Encoder.rec motive (fun fields => ∀ field ∈ fields, motive field.encoder)
    (fun field => motive field.encoder) scalar enum object list optional named (by simp)
    (fun _ _ first others => List.forall_mem_cons.mpr ⟨first, others⟩) (fun _ _ _ holds => holds)
    encoder

/-- The strings in the code that encodes a value of an enumeration, which is a table of constructors
with their values. -/
def enumEncoderStrings (cases : List EnumCase) : List String :=
  "" :: cases.flatMap fun enumCase => [enumCase.constructor, enumCase.wire]

mutual

/-- The strings in the code of an encoder: the keys of objects and the tables of enumerations. -/
def Encoder.strings (m : Module) : Encoder → List String
  | .scalar _ | .named _ => []
  | .enum name => enumEncoderStrings (((m.enum name).map (·.cases)).getD [])
  | .object fields => Encoder.entryStrings m fields
  | .list item => item.strings m
  | .optional inner => inner.strings m
termination_by structural encoder => encoder

/-- The strings of the entries of an object. -/
def Encoder.entryStrings (m : Module) : List (EncodedField Encoder) → List String
  | [] => []
  | ⟨_, wire, encoder⟩ :: rest => wire :: (encoder.strings m ++ Encoder.entryStrings m rest)
termination_by structural fields => fields

end

theorem Encoder.entryStrings_eq_flatMap (m : Module) (fields : List (EncodedField Encoder)) :
    Encoder.entryStrings m fields =
      fields.flatMap fun field => field.wire :: field.encoder.strings m := by
  induction fields with
  | nil => rfl
  | cons first rest ih => rw [Encoder.entryStrings, ih, List.flatMap_cons, List.cons_append]

theorem Encoder.entryCodes_eq_map (m : Module) (value : String) (depth : Nat)
    (fields : List (EncodedField Encoder)) :
    Encoder.entryCodes m value depth fields = fields.map fun field =>
      pairCode (.literal field.wire) (field.encoder.code m (value ++ "." ++ field.name) depth) := by
  induction fields with
  | nil => rfl
  | cons first rest ih => rw [Encoder.entryCodes, ih, List.map_cons]

theorem writes_pairCode (one : first.Writes written) (two : second.Writes others) :
    (pairCode first second).Writes (written ++ others) :=
  .after (.plain _) (one.append (.after (.plain _) (two.before (.plain _) (by decide)))
    (.of_start (by decide)))

theorem writes_enumEncoderCode (cases : List EnumCase) (value : String) :
    (enumEncoderCode cases value).Writes ((enumEncoderStrings cases).map .short) := by
  have table : (enumTable cases).Writes (cases.flatMap fun enumCase =>
      [.short enumCase.constructor, .short enumCase.wire]) :=
    .separated ", " (by decide) fun enumCase _ =>
      writes_pairCode (.literal enumCase.constructor) (.literal enumCase.wire)
  rw [enumEncoderStrings, List.map_cons, List.map_flatMap]
  refine .after (.plain _) (.append (.literal "")
    (.after (.plain _) (table.before (.plain _) (by decide))) (.of_start ?_))
  rw [Code.text, String.append_assoc]
  exact Text.startsWith_append _ (by decide)

theorem writes_objectCode {ι : Type} {items : List ι} {codeOf : ι → Code}
    {literalsOf : ι → List Literal} (each : ∀ item ∈ items, (codeOf item).Writes (literalsOf item)) :
    (objectCode (items.map codeOf)).Writes (items.flatMap literalsOf) := by
  unfold objectCode
  split
  · next none =>
      obtain rfl : items = [] := by simpa using none
      exact .plain _
  · exact .after (.plain _) ((Writes.separated ", " (by decide) each).before (.plain _) (by decide))

theorem writes_liftCode (function parameter value : String) (body : code.Writes written) :
    (liftCode function parameter code value).Writes written :=
  .after (.plain _) ((Writes.lambda (.after (.plain _) body)).before (.plain _)
    (.of_startsWith (Text.startsWith_append _ (by decide))))

/-- The code of an encoder has the strings of the encoder as literals. -/
theorem Encoder.writes_code (m : Module) (encoder : Encoder) (value : String) (depth : Nat) :
    (encoder.code m value depth).Writes ((encoder.strings m).map .short) := by
  induction encoder using Encoder.induction generalizing value depth with
  | scalar | named => exact .plain _
  | enum name => exact writes_enumEncoderCode _ value
  | object fields ih =>
      rw [Encoder.code, Encoder.strings, Encoder.entryCodes_eq_map, Encoder.entryStrings_eq_flatMap,
        List.map_flatMap]
      exact writes_objectCode fun field member =>
        writes_pairCode (.literal field.wire) (ih field member _ _)
  | list item ih => exact writes_liftCode _ _ _ (ih _ _)
  | optional inner ih => exact writes_liftCode _ _ _ (ih _ _)

/-- The strings in the code of a parameter. -/
def Parameter.strings (m : Module) (parameter : Parameter) : List String :=
  parameter.wire :: parameter.encoder.strings m

theorem Parameter.writes_code (m : Module) (indent : Nat) (parameter : Parameter) :
    (parameter.code m indent).Writes ((parameter.strings m).map .short) := by
  unfold Parameter.code Parameter.strings
  split
  · next inner optional _ =>
      rw [optional, Encoder.strings]
      refine .after (.plain _) (.append (.literal _) (.newLine (.after (.plain _) (.newLine
        (.after (.plain _) (.newLine (.before (Encoder.writes_code m _ _ _) (.after (.plain _) ?_)
          (.of_start (by decide)))))))) (.of_start (startsWith_newLine _)))
      exact .newLine (.after (.plain _) (.newLine (.after (.plain _) (.newLine (.plain _)))))
  · exact writes_pairCode (.literal _) (Encoder.writes_code m _ _ _)

/-! ### Declarations -/

/-- The strings in the decoder of an enumeration: its values, and what it fails with. -/
def EnumDeclaration.strings (enum : EnumDeclaration) : List String :=
  enum.cases.map (·.wire) ++ ["Unknown " ++ enum.name]

/-- The strings in one quote in the function of a request: the keys of the parameters and what they
are encoded with, the verb and the name of the operation. -/
def Request.strings (m : Module) (request : Request) : List String :=
  request.parameters.flatMap (Parameter.strings m) ++
    (request.method.toList.map HttpMethod.text ++ [request.operationName])

/-- The literals in a declaration. Only the text of a query is in three quotes. -/
def Declaration.literals (m : Module) : Declaration → List Literal
  | .constant _ _ value => [.short value]
  | .typeAlias .. | .customType .. | .fragment _ => []
  | .request r => .long r.queryText :: (r.strings m).map .short
  | .decoder _ _ d => d.strings.map .short
  | .encoder _ e => (e.strings m).map .short
  | .enumDecoder e => e.strings.map .short

theorem EnumDeclaration.writes_code (enum : EnumDeclaration) :
    enum.code.Writes (enum.strings.map .short) := by
  have values : (Code.concat (enum.cases.map fun enumCase => newLine 20 ++
      (.literal enumCase.wire ++ (.plain " ->" ++ (newLine 24 ++
        .plain ("succeed " ++ enumCase.constructor ++ "\n")))))).Writes
          (enum.cases.flatMap fun enumCase => [.short enumCase.wire]) :=
    .concat (fun _ _ => .newLine (.before (.literal _) (.after (.plain _) (.newLine (.plain _)))
      (.of_start (by decide)))) fun _ _ => .of_start (startsWith_newLine _)
  have failure : (newLine 20 ++ (.plain "_ ->" ++ (newLine 24 ++ (.plain "fail " ++
      (.literal ("Unknown " ++ enum.name) ++ newLine 12)))) : Code).Writes
        [.short ("Unknown " ++ enum.name)] :=
    .newLine (.after (.plain _) (.newLine (.after (.plain _)
      (.before (.literal _) (.plain _) (unquoted_newLine _)))))
  rw [EnumDeclaration.strings, List.map_append, List.map_map, List.map_eq_flatMap]
  exact .after (.plain _) (.newLine (.after (.plain _) (.newLine (.after (.plain _) (.newLine
    (.lambda (.newLine (.after (.plain _)
      (values.append failure (.of_start (startsWith_newLine _)))))))))))

/-- The entry of a parameter on a line of its own. -/
theorem writes_parameterLine (m : Module) (lead : String) (parameter : Parameter) :
    (newLine 16 ++ (.plain lead ++ parameter.code m 16) : Code).Writes
      ((parameter.strings m).map .short) :=
  .newLine (.after (.plain _) (parameter.writes_code m 16))

/-- The call that sends a request, with the verb before its arguments. -/
theorem Request.writes_call (request : Request) {verb : Code} (before : verb.Writes written) :
    (.plain ("\n    in\n    " ++ request.kind.functionName ++ " ") ++ (verb ++
      (.plain "endpointUrl graphQLQuery " ++ (.literal request.operationName ++
        .plain (" graphQLParams " ++ request.decoderName)))) : Code).Writes
          (written ++ [.short request.operationName]) := by
  have arguments : (.literal request.operationName ++
      .plain (" graphQLParams " ++ request.decoderName) : Code).Writes
        [.short request.operationName] :=
    .before (.literal _) (.plain _) (.of_startsWith (Text.startsWith_append _ (by decide)))
  exact .after (.plain _) (before.append (.after (.plain _) arguments) (.of_start (by decide)))

theorem Request.writes_code (m : Module) (request : Request) :
    (request.code m).Writes (.long request.queryText :: (request.strings m).map .short) := by
  have start : Text.startsWith (· != '"')
      ("\n    in\n    " ++ request.kind.functionName ++ " ") = true :=
    Text.startsWith_append _ (Text.startsWith_append _ (by decide))
  unfold Request.code
  rw [Request.strings, List.map_append, List.map_append, List.map_flatMap]
  refine .after (.plain _) (.append (.longLiteral _) (.after (.plain _) (.append ?entries
    (request.writes_call ?verb) (.of_start start))) (.of_start (by decide)))
  case verb =>
      cases request.method with
      | none => exact .plain _
      | some method => exact .before (.literal _) (.plain _) (by decide)
  case entries =>
      cases request.parameters with
      | nil => exact .newLine (.plain _)
      | cons first rest =>
          have lines : ∀ parameter ∈ rest,
              (newLine 16 ++ (.plain ", " ++ parameter.code m 16) : Code).Unquoted :=
            fun _ _ => .of_start (startsWith_newLine _)
          rw [List.flatMap_cons]
          exact (writes_parameterLine m "[ " first).append
            (.before (.concat (fun parameter _ => writes_parameterLine m ", " parameter) lines)
              (.newLine (.plain _)) (.of_start (startsWith_newLine _)))
            (.append (.concat (List.forall_mem_map.mpr lines)) (.of_start (startsWith_newLine _)))

theorem Declaration.writes_code (m : Module) (declaration : Declaration) :
    (declaration.code m).Writes (declaration.literals m) := by
  cases declaration with
  | constant => exact .after (.plain _) (.literal _)
  | typeAlias | customType | fragment => exact .plain _
  | request request => exact request.writes_code m
  | decoder name result decoder => exact .after (.plain _) decoder.writes_topCode
  | encoder input encoder => exact .after (.plain _) (encoder.writes_code m _ _)
  | enumDecoder enum => exact enum.writes_code

/-! ### Modules -/

namespace Module

/-- The source of a module as code. -/
def sourceCode (m : Module) : Code :=
  .plain (m.headerText ++ "\n" ++ m.importText) ++
    Code.concat (m.declarations.map fun declaration =>
      .plain "\n\n" ++ (declaration.code m ++ .plain "\n"))

/-- The literals of a module: those of its declarations, in order. -/
def literals (m : Module) : List Literal := m.declarations.flatMap (Declaration.literals m)

theorem text_sourceCode (m : Module) : m.sourceCode.text = m.source := by
  have declaration (d : Declaration) :
      (.plain "\n\n" ++ (d.code m ++ .plain "\n") : Code).text =
        "\n\n" ++ (d.code m).text ++ "\n" := by
    rw [Code.text_append, Code.text_append, ← String.append_assoc]
    rfl
  rw [sourceCode, Code.text_append, Code.text_concat, List.map_map]
  simp only [Function.comp_def, declaration]
  rfl

theorem writes_sourceCode (m : Module) : m.sourceCode.Writes m.literals := by
  refine .after (.plain _) (.concat (fun declaration _ => ?_) fun _ _ => .of_start (by decide))
  exact .after (.plain _) ((declaration.writes_code m).before (.plain _) (by decide))

/-- The literals of a module are those of its declarations, in order. Each stands in the source where
it is said to, and no quote comes right after it. -/
theorem occurrences_sourceCode (m : Module) :
    (m.sourceCode.occurrences []).map Prod.fst = m.literals ∧
      ∀ literal after, (literal, after) ∈ m.sourceCode.occurrences [] →
        literal.text.toList ++ after <:+ m.source.toList ∧ after.head? ≠ some '"' := by
  have writes := m.writes_sourceCode
  refine ⟨by rw [Code.map_fst_occurrences, writes.literals_eq], fun literal after member => ?_⟩
  have stands := Code.occurrences_suffix member
  rw [List.append_nil, text_sourceCode] at stands
  exact ⟨stands, writes.apart [] (by simp) _ member⟩

/-- The texts of queries are in three quotes, and nothing else is. -/
theorem long_mem_literals_iff {m : Module} {value : String} :
    .long value ∈ m.literals ↔ ∃ request ∈ m.requests, request.queryText = value := by
  constructor
  · intro member
    obtain ⟨declaration, declared, among⟩ := List.mem_flatMap.mp member
    cases declaration with
    | request r =>
        have same : value = r.queryText := by simpa [Declaration.literals] using among
        exact ⟨r, List.mem_filterMap.mpr ⟨_, declared, rfl⟩, same.symm⟩
    | _ => simp [Declaration.literals] at among
  · rintro ⟨request, requested, rfl⟩
    obtain ⟨declaration, declared, selected⟩ := List.mem_filterMap.mp requested
    refine List.mem_flatMap.mpr ⟨declaration, declared, ?_⟩
    cases declaration with
    | request r =>
        obtain rfl := Option.some.inj selected
        exact List.mem_cons_self
    | _ => cases selected

end Module

end ElmClient.Elm
