/-
Module: ElmClient.Proofs.QueryText.Legality
Purpose: What the grammar guarantees of a document: names where names stand, values whose integers
  have 64 bits and whose objects have distinct keys, and selections that are nested no deeper than
  the limit. A reader that reports a fault makes the whole text fail, so all of this is said of
  readings without one.
Main exports: Value.Legal, Selection.Legal, Operation.Legal, Fragment.Legal, Document.Legal,
  Reader.Grants, Document.legal_of_parse
-/
import ElmClient.Proofs.QueryText.Literals
import ElmClient.Proofs.Schema.WellFormed

namespace ElmClient.GraphQL

/-! ### Legal documents -/

/-- Whether a text is the name of an enum value: a name that does not start with a word that
stands for a value. -/
def isEnumName (name : String) : Bool :=
  isName name && ["true", "false", "null"].all fun word =>
    (Reader.dropWord? word.toList name.toList).isNone

theorem isEnumName_iff {name : String} :
    isEnumName name = true ↔ isName name = true ∧
      Reader.dropWord? "true".toList name.toList = none ∧
      Reader.dropWord? "false".toList name.toList = none ∧
      Reader.dropWord? "null".toList name.toList = none := by
  simp only [isEnumName, List.all_cons, List.all_nil, Bool.and_true, Bool.and_eq_true,
    Option.isNone_iff_eq_none]

/-- A value of the grammar; constant values have no variables. -/
inductive Value.Legal (constant : Bool) : Value → Prop where
  | null : Legal constant .null
  | boolean (b : Bool) : Legal constant (.boolean b)
  | number {n : Number} (range : n.inRange = true) : Legal constant (.number n)
  | string (s : String) : Legal constant (.string s)
  | enum {name : String} (legal : isEnumName name = true) : Legal constant (.enum name)
  | reference {name : String} (free : constant = false) (legal : isName name = true) :
      Legal constant (.variable name)
  | list {items : List Value} (each : ∀ item ∈ items, Legal constant item) :
      Legal constant (.list items)
  | object {entries : List (String × Value)} (distinct : (entries.map Prod.fst).Nodup)
      (keys : ∀ entry ∈ entries, isName entry.1 = true)
      (each : ∀ entry ∈ entries, Legal constant entry.2) : Legal constant (.object entries)

/-- An argument or an entry of an object. -/
def LegalEntry (constant : Bool) (entry : String × Value) : Prop :=
  isName entry.1 = true ∧ entry.2.Legal constant

structure Directive.Legal (directive : Directive) : Prop where
  name : isName directive.name = true
  arguments : ∀ argument ∈ directive.arguments, LegalEntry false argument

/-- A reference in which names stand and no mark stands directly inside a mark. -/
def TypeRef.Legal (type : TypeRef) : Prop := isName type.name = true ∧ type.isProper = true

structure VariableDefinition.Legal (definition : VariableDefinition) : Prop where
  name : isName definition.name = true
  type : definition.type.Legal
  default : ∀ value, definition.default = some value → value.Legal true

structure Field.Legal (field : Field) : Prop where
  aliasName : ∀ name, field.aliasName = some name → isName name = true
  name : isName field.name = true
  arguments : ∀ argument ∈ field.arguments, LegalEntry false argument
  directives : ∀ directive ∈ field.directives, directive.Legal

structure Spread.Legal (spread : Spread) : Prop where
  fragment : isName spread.fragment = true
  directives : ∀ directive ∈ spread.directives, directive.Legal

structure InlineFragment.Legal (inline : InlineFragment) : Prop where
  condition : ∀ condition, inline.condition = some condition → isName condition.type = true
  directives : ∀ directive ∈ inline.directives, directive.Legal

/-- A selection with a number of levels below it at most. -/
inductive Selection.Legal : (levels : Nat) → Selection → Prop where
  | leaf {levels : Nat} {field : Field} (brace : Position) (legal : field.Legal) :
      Legal levels (.field field brace [])
  | field {levels : Nat} {field : Field} {selections : List Selection} (brace : Position)
      (legal : field.Legal) (filled : selections ≠ [])
      (each : ∀ selection ∈ selections, Legal levels selection) :
      Legal (levels + 1) (.field field brace selections)
  | spread {levels : Nat} {spread : Spread} (legal : spread.Legal) : Legal levels (.spread spread)
  | inline {levels : Nat} {inline : InlineFragment} {selections : List Selection}
      (brace : Position) (legal : inline.Legal) (filled : selections ≠ [])
      (each : ∀ selection ∈ selections, Legal levels selection) :
      Legal (levels + 1) (.inline inline brace selections)

/-- Selections that stand in braces. -/
structure LegalSelections (levels : Nat) (selections : List Selection) : Prop where
  filled : selections ≠ []
  each : ∀ selection ∈ selections, selection.Legal levels

structure Operation.Legal (operation : Operation) : Prop where
  name : ∀ name, operation.name = some name → isName name = true
  definitions : ∀ definition ∈ operation.definitions, definition.Legal
  directives : ∀ directive ∈ operation.directives, directive.Legal
  selections : LegalSelections Reader.levelLimit operation.selections

structure Fragment.Legal (fragment : Fragment) : Prop where
  name : isName fragment.name = true
  condition : isName fragment.condition.type = true
  directives : ∀ directive ∈ fragment.directives, directive.Legal
  selections : LegalSelections Reader.levelLimit fragment.selections

/-- A document of the grammar. Its fragments have distinct names. -/
structure Document.Legal (document : Document) : Prop where
  operations : ∀ operation ∈ document.operations, operation.Legal
  fragments : ∀ fragment ∈ document.fragments, fragment.Legal
  distinct : (document.fragments.map (·.name)).Nodup

/-! ### Readings without a fault -/

namespace Reader

variable {α β : Type}

/-- Where a reader that stood at a cursor ends without a report, there was none before, and what
was read satisfies a property. -/
def GrantsAt (cursor : Cursor) (reader : Reader α) (property : α → Prop) : Prop :=
  ∀ value after, reader.run cursor = some (value, after) → after.fault = none →
    cursor.fault = none ∧ property value

/-- What a reader grants wherever it stood. -/
def Grants (reader : Reader α) (property : α → Prop) : Prop :=
  ∀ cursor, GrantsAt cursor reader property

theorem Grants.imp {reader : Reader α} {stronger weaker : α → Prop}
    (each : Grants reader stronger) (implies : ∀ value, stronger value → weaker value) :
    Grants reader weaker := by
  intro cursor value after read clean
  obtain ⟨before, holds⟩ := each cursor value after read clean
  exact ⟨before, implies value holds⟩

theorem Grants.pure {property : α → Prop} {value : α} (holds : property value) :
    Grants (Pure.pure value) property := by
  intro cursor result after read clean
  obtain ⟨rfl, rfl⟩ := Prod.mk.inj (Option.some.inj read)
  exact ⟨clean, holds⟩

/-- What the first part of a sequence grants, the rest may presuppose. -/
theorem Grants.bind {first : Reader α} {next : α → Reader β} {earlier : α → Prop}
    {property : β → Prop} (one : Grants first earlier)
    (two : ∀ value, Grants (next value) fun result => earlier value → property result) :
    Grants (first >>= next) property := by
  intro cursor result after read clean
  rw [StateT.run_bind] at read
  obtain ⟨⟨value, middle⟩, started, finished⟩ := Option.bind_eq_some_iff.mp read
  obtain ⟨between, implies⟩ := two value middle result after finished clean
  obtain ⟨before, holds⟩ := one cursor value middle started between
  exact ⟨before, implies holds⟩

theorem Grants.andThen {first : Reader α} {next : α → Reader β} {earlier : α → Prop}
    {property : β → Prop} (one : Grants first earlier)
    (two : ∀ value, Grants (next value) property) : Grants (first >>= next) property :=
  one.bind fun value => (two value).imp fun _ holds _ => holds

theorem Grants.map {reader : Reader α} {f : α → β} {property : β → Prop}
    (one : Grants reader fun value => property (f value)) : Grants (f <$> reader) property := by
  rw [map_eq_pure_bind]
  exact one.bind fun _ => .pure fun holds => holds

theorem Grants.orElse {first second : Reader α} {property : α → Prop}
    (one : Grants first property) (two : Grants second property) :
    Grants (first <|> second) property := by
  intro cursor value after read clean
  rw [run_orElse] at read
  cases started : first.run cursor with
  | none =>
      rw [started] at read
      exact two _ _ _ read clean
  | some read' =>
      rw [started] at read
      obtain rfl := Option.some.inj read
      exact one _ _ _ started clean

theorem Grants.fail {property : α → Prop} : Grants (failure : Reader α) property := by
  intro cursor value after read
  exact absurd read.symm (Option.some_ne_none _)

theorem GrantsAt.state {cursor : Cursor} {next : Cursor → Reader α} {property : α → Prop}
    (here : GrantsAt cursor (next cursor) property) : GrantsAt cursor (get >>= next) property :=
  here

/-- A reader that looks at where it stands. -/
theorem Grants.state {next : Cursor → Reader α} {property : α → Prop}
    (each : ∀ cursor, GrantsAt cursor (next cursor) property) : Grants (get >>= next) property :=
  each

theorem Grants.upTo {reader : Reader α} {property : α → Prop} (each : Grants reader property)
    (count : Nat) : Grants (upTo reader count) fun values => ∀ value ∈ values, property value := by
  induction count with
  | zero => exact .pure (by simp)
  | succ count ih =>
      refine .orElse (each.bind fun first => ih.bind fun more => .pure ?_) (.pure (by simp))
      intro later here
      exact List.forall_mem_cons.mpr ⟨here, later⟩

theorem get_grants : Grants (get : Reader Cursor) fun _ => True := by
  intro cursor value after read clean
  obtain ⟨rfl, rfl⟩ := Prod.mk.inj (Option.some.inj read)
  exact ⟨clean, trivial⟩

theorem Grants.many {reader : Reader α} {property : α → Prop} (each : Grants reader property) :
    Grants (many reader) fun values => ∀ value ∈ values, property value :=
  get_grants.andThen fun _ => each.upTo _

theorem Grants.many1 {reader : Reader α} {property : α → Prop} (each : Grants reader property) :
    Grants (many1 reader) fun values => values ≠ [] ∧ ∀ value ∈ values, property value := by
  refine each.bind fun first => each.many.bind fun more => .pure ?_
  intro later here
  exact ⟨List.cons_ne_nil _ _, List.forall_mem_cons.mpr ⟨here, later⟩⟩

theorem Grants.optional {reader : Reader α} {property : α → Prop} (each : Grants reader property) :
    Grants (optional reader) fun found => ∀ value, found = some value → property value :=
  .orElse (.map (each.imp fun _ holds _ same => Option.some.inj same ▸ holds)) (.pure (by simp))

theorem Grants.orEmpty {reader : Reader (List α)} {property : α → Prop}
    (each : Grants reader fun values => ∀ value ∈ values, property value) :
    Grants (orEmpty reader) fun values => ∀ value ∈ values, property value :=
  .orElse each (.pure (by simp))

theorem skip_grants : Grants skip fun _ => True := by
  intro cursor value after read clean
  obtain ⟨_, rfl⟩ := Prod.mk.inj (Option.some.inj read)
  exact ⟨clean, trivial⟩

theorem finish_grants : Grants finish fun _ => True := by
  refine skip_grants.andThen fun _ => get_grants.andThen fun _ => ?_
  split
  · exact .pure trivial
  · exact .fail

theorem Grants.of_run? {reader : Reader α} {property : α → Prop} (each : Grants reader property)
    {text : String} {result : α} (read : reader.run? text = .ok result) : property result := by
  have all : Grants (do let result ← reader; finish; Pure.pure result) property :=
    each.bind fun value => finish_grants.andThen fun _ => .pure fun holds => holds
  unfold run? at read
  split at read
  · simp at read
  · next value cursor started =>
      split at read
      · simp at read
      · next clean =>
          obtain rfl := Except.ok.inj read
          exact (all _ _ _ started clean).2

theorem report_grants (error : DocumentError) : Grants (report error) fun _ => False := by
  intro cursor value after read clean
  obtain ⟨_, rfl⟩ := Prod.mk.inj (Option.some.inj read)
  exact absurd clean (Option.some_ne_none _)

theorem here_grants : Grants here fun _ => True :=
  skip_grants.andThen fun _ => get_grants.andThen fun _ => .pure trivial

theorem depthBound_grants : Grants depthBound fun _ => True :=
  get_grants.andThen fun _ => .pure trivial

/-- Moving on from where a reader stands reports nothing. -/
theorem GrantsAt.advance {property : α → Prop} (cursor : Cursor) (taken rest : List Char)
    {value : α} (holds : property value) :
    GrantsAt cursor (do set (cursor.advance taken rest); Pure.pure value) property := by
  intro result after read clean
  obtain ⟨rfl, rfl⟩ := Prod.mk.inj (Option.some.inj read)
  exact ⟨clean, holds⟩

theorem exactly_grants (word : String) : Grants (exactly word) fun _ => True := by
  refine .state fun cursor => ?_
  split
  · exact GrantsAt.advance cursor _ _ trivial
  · exact Grants.fail cursor

theorem token_grants (word : String) : Grants (token word) fun _ => True :=
  skip_grants.andThen fun _ => exactly_grants word

theorem nameHere_grants : Grants nameHere fun name => isName name = true := by
  refine .state fun cursor => ?_
  split
  · next c more _ =>
      split
      · next starts => exact .advance cursor _ _ (by simp [isName, starts])
      · exact Grants.fail cursor
  · exact Grants.fail cursor

theorem name_grants : Grants name fun name => isName name = true :=
  skip_grants.andThen fun _ => nameHere_grants

theorem string_grants : Grants string fun _ => True := by
  refine skip_grants.andThen fun _ => .state fun cursor => ?_
  dsimp only
  split
  · split
    · exact .advance cursor _ _ trivial
    · split
      · exact .advance cursor _ _ trivial
      · exact Grants.fail cursor
  · split
    · exact .advance cursor _ _ trivial
    · exact Grants.fail cursor
  · exact Grants.fail cursor

theorem number_grants : Grants number fun n => n.inRange = true := by
  refine skip_grants.andThen fun _ => .state fun cursor => ?_
  split
  · exact Grants.fail cursor
  · next literal rest _ =>
      split
      · exact Grants.fail cursor
      · cases value : literal.value? with
        | some n => exact .advance cursor _ _ (Number.inRange_of_value? value)
        | none =>
            intro result after read clean
            obtain ⟨_, rfl⟩ := Prod.mk.inj (Option.some.inj read)
            exact absurd clean (Option.some_ne_none _)

theorem boolean_grants : Grants boolean fun _ => True :=
  .orElse ((token_grants "true").andThen fun _ => .pure trivial)
    ((token_grants "false").andThen fun _ => .pure trivial)

/-- What follows a word that must not stand here may presuppose that it does not. -/
theorem GrantsAt.without {cursor : Cursor} {word : String} {next : Unit → Reader α}
    {property : α → Prop}
    (later : dropWord? word.toList cursor.rest = none → GrantsAt cursor (next ()) property) :
    GrantsAt cursor (without (exactly word) >>= next) property := by
  cases dropped : dropWord? word.toList cursor.rest with
  | none =>
      have failed : (exactly word).run cursor = none := refuses_exactly dropped _ _
      intro value after read clean
      rw [StateT.run_bind, run_without failed] at read
      exact later dropped value after read clean
  | some rest =>
      have refused := ((takes_exactly dropped).refuses_without.bind next) cursor.position cursor.fault
      intro value after read
      exact absurd (read.symm.trans refused) (Option.some_ne_none _)

theorem enumName_grants : Grants enumName fun name => isEnumName name = true := by
  refine skip_grants.andThen fun _ cursor => .without fun noTrue => .without fun noFalse =>
    .without fun noNull => .state ?_
  split
  · next c more ahead =>
      split
      · next starts =>
          have whole : cursor.rest =
              (c :: more.takeWhile continuesName) ++ more.dropWhile continuesName := by
            rw [ahead, List.cons_append, List.takeWhile_append_dropWhile]
          rw [whole] at noTrue noFalse noNull
          refine .advance cursor _ _ (isEnumName_iff.mpr ⟨by simp [isName, starts], ?_⟩)
          have letters : (String.ofList (c :: more.takeWhile continuesName)).toList =
              c :: more.takeWhile continuesName := String.toList_ofList
          rw [letters]
          exact ⟨dropWord?_of_append noTrue, dropWord?_of_append noFalse,
            dropWord?_of_append noNull⟩
      · exact Grants.fail cursor
  · exact Grants.fail cursor

theorem named_grants {constant : Bool} {value : Reader Value}
    (each : Grants value fun value => value.Legal constant) :
    Grants (named value) (LegalEntry constant) :=
  name_grants.bind fun _ => (token_grants ":").andThen fun _ => each.bind fun _ => .pure
    fun legal name => ⟨name, legal⟩

theorem valueTo_grants (constant : Bool) (depth : Nat) :
    Grants (valueTo constant depth) fun value => value.Legal constant := by
  induction depth with
  | zero => exact .fail
  | succ depth ih =>
      refine .orElse ?reference (.orElse ?number (.orElse ?string (.orElse ?boolean
        (.orElse ?null (.orElse ?enum (.orElse ?list ?object))))))
      case reference =>
        cases constant with
        | true => exact .fail
        | false =>
            exact (token_grants "$").andThen fun _ =>
              .map (name_grants.imp fun _ legal => .reference rfl legal)
      case number => exact .map (number_grants.imp fun _ => .number)
      case string => exact .map (string_grants.imp fun s _ => .string s)
      case boolean => exact .map (boolean_grants.imp fun b _ => .boolean b)
      case null => exact (token_grants "null").andThen fun _ => .pure .null
      case enum => exact .map (enumName_grants.imp fun _ => .enum)
      case list =>
        exact (token_grants "[").andThen fun _ => ih.many.bind fun _ =>
          (token_grants "]").andThen fun _ => .pure .list
      case object =>
        refine (token_grants "\x7b").andThen fun _ => (named_grants ih).many.bind fun entries =>
          (token_grants "\x7d").andThen fun _ => .pure fun each => ?_
        refine .object (Dictionary.nodup_ofList entries) ?_ ?_
        · exact fun entry member => (each entry (Dictionary.mem_ofList member)).1
        · exact fun entry member => (each entry (Dictionary.mem_ofList member)).2

theorem value_grants (constant : Bool) : Grants (value constant) fun value => value.Legal constant :=
  depthBound_grants.andThen fun depth => valueTo_grants constant depth

theorem arguments_grants (constant : Bool) :
    Grants (arguments constant) fun arguments =>
      ∀ argument ∈ arguments, LegalEntry constant argument :=
  (token_grants "(").andThen fun _ => (named_grants (value_grants constant)).many1.bind
    fun _ => (token_grants ")").andThen fun _ => .pure fun legal => legal.2

theorem directive_grants : Grants (directive false) Directive.Legal :=
  (token_grants "@").andThen fun _ => name_grants.bind fun _ =>
    (arguments_grants false).orEmpty.bind fun _ => .pure fun arguments name => ⟨name, arguments⟩

theorem directives_grants :
    Grants (directives false) fun directives => ∀ directive ∈ directives, directive.Legal :=
  directive_grants.many

theorem typeHere_grants (depth : Nat) : Grants (typeHere depth) TypeRef.Legal := by
  induction depth with
  | zero => exact .fail
  | succ depth ih =>
      have base : Grants ((TypeRef.named <$> nameHere) <|> (do
          exactly "["
          let item ← typeHere depth
          exactly "]"
          Pure.pure (TypeRef.list item))) TypeRef.Legal := by
        refine .orElse (.map (nameHere_grants.imp fun _ legal => ⟨legal, rfl⟩)) ?_
        exact (exactly_grants "[").andThen fun _ => ih.bind fun _ =>
          (exactly_grants "]").andThen fun _ => .pure fun legal => legal
      refine base.bind fun type => .orElse ?_ (.pure fun legal => legal)
      refine (exactly_grants "!").andThen fun _ => .pure fun legal => ?_
      exact ⟨by rw [TypeRef.name_required]; exact legal.1, TypeRef.isProper_required legal.2⟩

theorem type_grants : Grants type TypeRef.Legal :=
  skip_grants.andThen fun _ => depthBound_grants.andThen fun depth => typeHere_grants depth

theorem defaultValue_grants : Grants defaultValue fun value => value.Legal true :=
  (token_grants "=").andThen fun _ => value_grants true

theorem variableDefinition_grants : Grants variableDefinition VariableDefinition.Legal :=
  (token_grants "$").andThen fun _ => name_grants.bind fun _ => (token_grants ":").andThen fun _ =>
    type_grants.bind fun _ => directives_grants.andThen fun _ =>
      defaultValue_grants.optional.bind fun _ => .pure
        fun default type name => ⟨name, type, default⟩

theorem variableDefinitions_grants :
    Grants variableDefinitions fun definitions => ∀ definition ∈ definitions, definition.Legal :=
  (token_grants "(").andThen fun _ => variableDefinition_grants.many.bind fun _ =>
    (token_grants ")").andThen fun _ => .pure fun legal => legal

theorem blanks_grants : Grants blanks fun _ => True := by
  refine .state fun cursor => ?_
  split
  · exact Grants.fail cursor
  · exact GrantsAt.advance cursor _ _ trivial

theorem typeCondition_grants :
    Grants typeCondition fun condition => isName condition.type = true :=
  here_grants.andThen fun _ => (exactly_grants "on").andThen fun _ => blanks_grants.andThen fun _ =>
    get_grants.andThen fun _ => nameHere_grants.bind fun _ => .pure fun legal => legal

/-! ### Selections, operations and fragments -/

/-- A field, with a reader of the selections below it. -/
def field (below : Reader (Position × List Selection)) : Reader Selection := do
  let position ← here
  let aliasName ← optional (do
    let aliasName ← name
    token ":"
    pure aliasName)
  let fieldName ← name
  let fieldArguments ← orEmpty (arguments false)
  let fieldDirectives ← directives false
  let (brace, selections) ← below <|> pure (position, [])
  pure (.field ⟨position, aliasName, fieldName, fieldArguments, fieldDirectives⟩ brace selections)

/-- An inline fragment, with a reader of its selections. -/
def inlineFragment (below : Reader (Position × List Selection)) : Reader Selection := do
  let position ← here
  exactly "..."
  let condition ← optional typeCondition
  let inlineDirectives ← directives false
  let (brace, selections) ← below
  pure (.inline ⟨position, condition, inlineDirectives⟩ brace selections)

/-- The use of a fragment. -/
def spread : Reader Selection := do
  let position ← here
  exactly "..."
  without typeCondition
  let fragment ← name
  let spreadDirectives ← directives false
  pure (.spread ⟨position, fragment, spreadDirectives⟩)

/-- A selection, with a reader of the selections below it. -/
def selection (below : Reader (Position × List Selection)) : Reader Selection :=
  field below <|> inlineFragment below <|> spread

/-- The selections one level down; where no level is left, that is reported. -/
def oneBelow (depth levels : Nat) : Reader (Position × List Selection) := do
  if levels == 0 then report .recursionLimitExceeded
  selectionSet depth (levels - 1)

theorem selectionSet_succ (depth levels : Nat) :
    selectionSet (depth + 1) levels = (do
      let position ← here
      exactly "\x7b"
      let items ← many1 (selection (oneBelow depth levels))
      token "\x7d"
      pure (position, items)) :=
  rfl

section

variable {levels : Nat} {below : Reader (Position × List Selection)}

theorem field_grants
    (each : Grants below fun read => 0 < levels ∧ LegalSelections (levels - 1) read.2) :
    Grants (field below) (Selection.Legal levels) := by
  have aliasName : Grants (do
      let aliasName ← name
      token ":"
      Pure.pure aliasName) fun name => isName name = true :=
    name_grants.bind fun _ => (token_grants ":").andThen fun _ => .pure fun legal => legal
  have selections (position : Position) : Grants (below <|> Pure.pure (position, [])) fun read =>
      read.2 = [] ∨ 0 < levels ∧ LegalSelections (levels - 1) read.2 :=
    .orElse (each.imp fun _ legal => Or.inr legal) (.pure (Or.inl rfl))
  refine here_grants.andThen fun position => aliasName.optional.bind fun _ => name_grants.bind
    fun _ => (arguments_grants false).orEmpty.bind fun _ => directives_grants.bind fun _ =>
      (selections position).bind fun (brace, found) => .pure ?_
  intro nested directives arguments name aliasName
  have legal : Field.Legal ⟨position, _, _, _, _⟩ := ⟨aliasName, name, arguments, directives⟩
  rcases nested with rfl | ⟨deeper, filled, all⟩
  · exact .leaf brace legal
  · obtain ⟨levels, rfl⟩ := Nat.exists_eq_succ_of_ne_zero (Nat.ne_of_gt deeper)
    exact .field brace legal filled all

theorem inlineFragment_grants
    (each : Grants below fun read => 0 < levels ∧ LegalSelections (levels - 1) read.2) :
    Grants (inlineFragment below) (Selection.Legal levels) := by
  refine here_grants.andThen fun position => (exactly_grants "...").andThen fun _ =>
    typeCondition_grants.optional.bind fun _ => directives_grants.bind fun _ =>
      each.bind fun (brace, found) => .pure ?_
  rintro ⟨deeper, filled, all⟩ directives condition
  obtain ⟨levels, rfl⟩ := Nat.exists_eq_succ_of_ne_zero (Nat.ne_of_gt deeper)
  exact .inline brace ⟨condition, directives⟩ filled all

theorem without_typeCondition_grants : Grants (without typeCondition) fun _ => True := by
  refine .state fun cursor => ?_
  split
  · exact Grants.fail cursor
  · exact Grants.pure trivial cursor

theorem spread_grants : Grants spread (Selection.Legal levels) :=
  here_grants.andThen fun _ => (exactly_grants "...").andThen fun _ =>
    without_typeCondition_grants.andThen fun _ => name_grants.bind fun _ =>
      directives_grants.bind fun _ => .pure fun directives fragment =>
        .spread ⟨fragment, directives⟩

end

/-- The selections in braces are legal on as many levels as are left. -/
theorem selectionSet_grants (depth levels : Nat) :
    Grants (selectionSet depth levels) fun read => LegalSelections levels read.2 := by
  induction depth generalizing levels with
  | zero => exact .fail
  | succ depth ih =>
      have below : Grants (oneBelow depth levels) fun read =>
          0 < levels ∧ LegalSelections (levels - 1) read.2 := by
        cases levels with
        | zero => exact (report_grants _).bind fun _ => (ih 0).imp fun _ _ never => never.elim
        | succ levels => exact (ih levels).imp fun _ legal => ⟨Nat.succ_pos _, legal⟩
      have each : Grants (selection (oneBelow depth levels)) (Selection.Legal levels) :=
        .orElse (field_grants below) (.orElse (inlineFragment_grants below) spread_grants)
      rw [selectionSet_succ]
      exact here_grants.andThen fun _ => (exactly_grants "\x7b").andThen fun _ =>
        each.many1.bind fun _ => (token_grants "\x7d").andThen fun _ =>
          .pure fun legal => ⟨legal.1, legal.2⟩

theorem ownSelectionSet_grants :
    Grants ownSelectionSet fun read => LegalSelections levelLimit read.2 :=
  depthBound_grants.andThen fun depth => selectionSet_grants depth levelLimit

theorem operationKind_grants : Grants operationKind fun _ => True :=
  .orElse ((token_grants "query").andThen fun _ => .pure trivial)
    (.orElse ((token_grants "mutation").andThen fun _ => .pure trivial)
      ((token_grants "subscription").andThen fun _ => .pure trivial))

theorem operation_grants : Grants operation Operation.Legal := by
  refine .orElse ?_ ?_
  · exact here_grants.andThen fun _ => operationKind_grants.andThen fun _ =>
      name_grants.optional.bind fun _ => variableDefinitions_grants.orEmpty.bind fun _ =>
        directives_grants.bind fun _ => ownSelectionSet_grants.bind fun (_, _) => .pure
          fun selections directives definitions name =>
            ⟨name, definitions, directives, selections⟩
  · exact ownSelectionSet_grants.bind fun (_, _) => .pure
      fun selections => ⟨by simp, by simp, by simp, selections⟩

theorem fragmentDefinition_grants : Grants fragmentDefinition Fragment.Legal :=
  here_grants.andThen fun _ => (exactly_grants "fragment").andThen fun _ =>
    name_grants.bind fun _ => typeCondition_grants.bind fun _ => directives_grants.bind fun _ =>
      ownSelectionSet_grants.bind fun (_, _) => .pure
        fun selections directives condition name => ⟨name, condition, directives, selections⟩

end Reader

/-! ### Documents -/

namespace Document

/-- A legal operation or fragment. -/
def LegalDefinition : Operation ⊕ Fragment → Prop
  | .inl operation => operation.Legal
  | .inr fragment => fragment.Legal

/-- Adding an operation leaves the fragments as they are. -/
theorem addOperation_fragments {document result : Document} {operation : Operation}
    (added : document.addOperation operation = .ok result) :
    result.fragments = document.fragments := by
  unfold addOperation at added
  split at added
  · obtain ⟨_, same⟩ := Except.ite_error_eq_ok.mp added
    obtain rfl := Except.ok.inj same
    rfl
  · obtain ⟨_, added'⟩ := Except.error_ite_eq_ok.mp added
    obtain ⟨_, same⟩ := Except.error_ite_eq_ok.mp added'
    obtain rfl := Except.ok.inj same
    rfl

/-- A legal definition is added to a legal document. -/
theorem Legal.add {document result : Document} {definition : Operation ⊕ Fragment}
    (legal : document.Legal) (legal' : LegalDefinition definition)
    (added : document.add definition = .ok result) : result.Legal := by
  cases definition with
  | inr fragment =>
      obtain ⟨fresh, same⟩ := Except.error_ite_eq_ok.mp added
      obtain rfl := Except.ok.inj same
      refine ⟨legal.operations, ?_, ?_⟩
      · intro other member
        rcases List.mem_append.mp member with old | new
        · exact legal.fragments other old
        · rw [List.mem_singleton.mp new]
          exact legal'
      · have apart : fragment.name ∉ document.fragments.map (·.name) := by
          intro member
          obtain ⟨other, among, same⟩ := List.mem_map.mp member
          have found : document.fragments.any (·.name == fragment.name) = true :=
            List.any_eq_true.mpr ⟨other, among, beq_iff_eq.mpr same⟩
          exact absurd (fresh.symm.trans found) Bool.false_ne_true
        simp only [List.map_append, List.map_cons, List.map_nil]
        exact List.nodup_append.mpr ⟨legal.distinct, List.nodup_singleton _, fun name old other new =>
          fun same => apart (List.mem_singleton.mp new ▸ same ▸ old)⟩
  | inl operation =>
      have fragments : result.fragments = document.fragments := addOperation_fragments added
      refine ⟨?_, by rw [fragments]; exact legal.fragments, by rw [fragments]; exact legal.distinct⟩
      intro other member
      rcases add_operations added member with old | same
      · exact legal.operations other old
      · obtain rfl := Sum.inl.inj same
        exact legal'

theorem Legal.foldlM {definitions : List (Operation ⊕ Fragment)} {document result : Document}
    (legal : document.Legal) (each : ∀ definition ∈ definitions, LegalDefinition definition)
    (added : definitions.foldlM Document.add document = .ok result) : result.Legal := by
  induction definitions generalizing document with
  | nil =>
      obtain rfl := Except.pure_eq_ok.mp added
      exact legal
  | cons first rest ih =>
      obtain ⟨next, here, later⟩ := Except.foldlM_cons_eq_ok.mp added
      obtain ⟨legalFirst, legalRest⟩ := List.forall_mem_cons.mp each
      exact ih (legal.add legalFirst here) legalRest later

/-- A document that is read from a text is legal. -/
theorem legal_of_parse {text : String} {document : Document}
    (read : parse text = .ok document) : document.Legal := by
  obtain ⟨definitions, parsed, gathered⟩ := Except.bind_eq_ok.mp read
  obtain ⟨gathered', folded, checked⟩ := Except.bind_eq_ok.mp gathered
  obtain ⟨_, same⟩ := Except.error_ite_eq_ok.mp checked
  obtain rfl := Except.ok.inj same
  have each : Reader.Grants Reader.definition LegalDefinition :=
    .orElse (.map Reader.operation_grants) (.map Reader.fragmentDefinition_grants)
  have none : Document.Legal ⟨[], []⟩ := ⟨by simp, by simp, List.nodup_nil⟩
  exact none.foldlM (each.many1.of_run? parsed).2 folded

end Document

end ElmClient.GraphQL
