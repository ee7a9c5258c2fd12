/-
Module: ElmClient.Proofs.QueryText.Operations
Purpose: Operations and fragments read back from the text that is printed for them, up to the places
  of what is in them and up to the name of an anonymous operation, which is left out.
Main exports: Operation.sent, Operation.isLegible, Fragment.isLegible,
  Reader.takes_operation_of_named, Reader.takes_fragmentDefinition
-/
import ElmClient.Proofs.QueryText.Blanks

namespace ElmClient

namespace GraphQL

/-! ### Operations and fragments without places -/

/-- An operation at no particular place. -/
def Operation.erased (operation : Operation) : Operation :=
  { operation with
    position := .start
    brace := .start
    selections := erasedSelections operation.selections }

/-- An operation as a server gets it: at no particular place, and without the name of an anonymous
one. -/
def Operation.sent (operation : Operation) : Operation :=
  { operation.erased with name := operation.name.filter (· != anonymousName) }

/-- A fragment at no particular place. -/
def Fragment.erased (fragment : Fragment) : Fragment :=
  { fragment with
    position := .start
    condition := fragment.condition.erased
    brace := .start
    selections := erasedSelections fragment.selections }

/-- Whether the values in an operation are legible, and nowhere in it a field stands right after a
use of a fragment `on` without directives. -/
def Operation.isLegible (operation : Operation) : Bool :=
  operation.definitions.all (fun definition => definition.default.all Value.isLegible) &&
    directivesAreLegible operation.directives && selectionsAreLegible operation.selections

/-- The same of a fragment. -/
def Fragment.isLegible (fragment : Fragment) : Bool :=
  directivesAreLegible fragment.directives && selectionsAreLegible fragment.selections

/-! ### Variables -/

/-- The default value of a variable as it is printed. -/
def defaultChars (default : Option Value) : List Char :=
  default.elim [] fun value => [' ', '=', ' '] ++ value.text.toList

/-- The declaration of a variable as it is printed. -/
def definitionChars (definition : VariableDefinition) : List Char :=
  '$' :: (definition.name.toList ++ ':' :: ' ' :: (definition.type.text.toList ++
    defaultChars definition.default))

theorem toList_definitionText (definition : VariableDefinition) :
    definition.text.toList = definitionChars definition := by
  cases default : definition.default with
  | none => simp [VariableDefinition.text, definitionChars, defaultChars, default]
  | some value => simp [VariableDefinition.text, definitionChars, defaultChars, default]

theorem toList_variablesText_cons (definition : VariableDefinition)
    (definitions : List VariableDefinition) :
    (variablesText (definition :: definitions)).toList =
      '(' :: ([',', ' '].intercalate ((definition :: definitions).map definitionChars) ++
        [')']) := by
  have entries : ((definition :: definitions).map (·.text)).map String.toList =
      (definition :: definitions).map definitionChars := by
    simp [toList_definitionText, Function.comp_def]
  simp only [variablesText, List.isEmpty_cons, Bool.false_eq_true, if_false, String.toList_append,
    String.toList_intercalate, entries]
  rfl

namespace Reader

variable {ahead rest : List Char}

/-- A text before which the declaration of a variable ends. -/
def EndsDefinition (rest : List Char) : Prop := EndsType rest ∧ Clear ['@', '='] rest

theorem takes_defaultValue {default : Option Value}
    (legal : ∀ value, default = some value → value.Legal true)
    (legible : default.all Value.isLegible = true) (clear : Clear ['='] rest) :
    Takes (optional defaultValue) (defaultChars default ++ rest) rest fun read =>
      read = default := by
  cases default with
  | none =>
      have none : Refuses (token "=") rest :=
        refuses_token_of_head "=" rfl (clear.head (by decide))
      exact (none.bind _).optional
  | some value =>
      have spelled := value_spelled (legal value rfl) legible
      have takes : Takes defaultValue (defaultChars (some value) ++ rest) rest fun read =>
          read = value :=
        (takes_token rfl).andThen fun _ =>
          spelled.takes clear.1 ((skipped_space _).trans (spelled.solid _))
      refine takes.optional.imp ?_
      rintro _ ⟨read, rfl, rfl⟩
      rfl

/-- What may stand after a variable may do so after its type. -/
theorem ends_defaultChars (default : Option Value) (ends : EndsDefinition rest) :
    EndsType (defaultChars default ++ rest) ∧ Clear ['@'] (defaultChars default ++ rest) := by
  cases default with
  | none => exact ⟨ends.1, ends.2.mono (by simp)⟩
  | some value =>
      exact ⟨⟨.cons (by decide) _, by simp [defaultChars]⟩, .of_space (by decide) (by decide) _⟩

theorem variableDefinition_spelled {definition : VariableDefinition} (legal : definition.Legal)
    (bare : definition.directives = [])
    (legible : definition.default.all Value.isLegible = true) :
    Spells variableDefinition (definitionChars definition) EndsDefinition
      fun read => read = definition where
  filled := List.cons_ne_nil _ _
  solid rest := skipped_of_isSolid (by decide) _
  takes {ahead rest} ends here := by
    obtain ⟨endsType, clear⟩ := ends_defaultChars definition.default ends
    have noDirective : Refuses (directive false) (defaultChars definition.default ++ rest) :=
      (refuses_token_of_head "@" rfl (clear.head (by decide))).bind _
    have typed := type_spelled legal.type
    have here' : skipped ahead = '$' :: (definition.name.toList ++ ':' :: ' ' ::
        (definition.type.text.toList ++ (defaultChars definition.default ++ rest))) := by
      rw [here, definitionChars]
      simp only [List.cons_append, List.append_assoc]
    refine (takes_token (by rw [here']; rfl)).andThen fun _ => ?_
    refine (takes_name legal.name (.cons (by decide) _) (skipped_name legal.name _)).bind
      fun name sameName => (takes_token rfl).andThen fun _ => ?_
    refine (typed.takes endsType ((skipped_space _).trans (typed.solid _))).bind
      fun type sameType => noDirective.many.bind fun directives none => ?_
    refine (takes_defaultValue legal.default legible (ends.2.mono (by simp))).bind
      fun default sameDefault => .pure ?_
    rw [sameName, sameType, none, sameDefault, ← bare]

/-- Variables read back before a text that goes on with no parenthesis. -/
theorem takes_variables {definitions : List VariableDefinition}
    (legal : ∀ definition ∈ definitions, definition.Legal)
    (bare : ∀ definition ∈ definitions, definition.directives = [])
    (legible : ∀ definition ∈ definitions, definition.default.all Value.isLegible = true)
    (clear : Clear ['('] rest) :
    Takes (orEmpty variableDefinitions) ((variablesText definitions).toList ++ rest) rest
      fun read => read = definitions := by
  cases definitions with
  | nil =>
      have none : Refuses (token "(") rest :=
        refuses_token_of_head "(" rfl (clear.head (by decide))
      exact (none.bind _).orEmpty
  | cons first others =>
      have spelled : ∀ definition ∈ first :: others, Spells variableDefinition
          (definitionChars definition) EndsDefinition fun read => read = definition :=
        fun definition member => variableDefinition_spelled (legal definition member)
          (bare definition member) (legible definition member)
      have refuses : Refuses variableDefinition (')' :: rest) :=
        (refuses_token_of_head "$" rfl (by
          rw [skipped_of_isSolid (by decide)]
          exact fun same => absurd (Option.some.inj same) (by decide))).bind _
      have closes : EndsDefinition (')' :: rest) :=
        ⟨⟨.cons (by decide) _, by simp⟩, .of_solid (by decide) (by decide) (by decide) _⟩
      have continues (definition : VariableDefinition) (tail : List Char) :
          EndsDefinition ([',', ' '] ++ (definitionChars definition ++ tail)) := by
        refine ⟨⟨.cons (by decide) _, by simp⟩, .cons (by decide) _, ?_⟩
        show ∀ c ∈ (skipped (',' :: ' ' :: '$' :: _)).head?, c ∉ ['@', '=']
        rw [skipped_comma, skipped_space, skipped_of_isSolid (by decide)]
        rintro c ⟨⟩
        decide
      rw [toList_variablesText_cons, List.cons_append, List.append_assoc]
      refine Takes.orElse ((takes_token rfl).andThen fun _ => ?_) _
      refine (Takes.many (.of_intercalated spelled (by simp)
        (fun definition _ tail => continues definition tail) closes refuses)).bind
          fun read same => ?_
      exact (takes_token rfl).andThen fun _ => .pure (Forall₂.eq_of_same same)

end Reader

/-! ### What is printed of operations and fragments -/

/-- The name under which an operation is sent, with a space before it. -/
def sentNameChars (operation : Operation) : List Char :=
  operation.sent.name.elim [] fun name => ' ' :: name.toList

theorem toList_text_of_isBare {operation : Operation} (bare : operation.isBare = true) :
    operation.text.toList = (selectionSetText operation.selections).toList := by
  rw [Operation.text, if_pos bare]

/-- The name of an operation is printed unless it is that of an anonymous one. -/
theorem toList_text_of_named {operation : Operation} (named : operation.isBare = false) :
    operation.text.toList =
      operation.kind.keyword.toList ++ (sentNameChars operation ++
        ((variablesText operation.definitions).toList ++
          ((directivesText operation.directives).toList ++
            ' ' :: (selectionSetText operation.selections).toList))) := by
  have name : (if operation.title == anonymousName then "" else " " ++ operation.title).toList =
      sentNameChars operation := by
    cases given : operation.name with
    | none => simp [Operation.title, sentNameChars, Operation.sent, given]
    | some name =>
        by_cases anonymous : name = anonymousName
        · simp [Operation.title, sentNameChars, Operation.sent, Option.filter, given, anonymous]
        · simp [Operation.title, sentNameChars, Operation.sent, Option.filter, given, anonymous]
  simp only [Operation.text, named, Bool.false_eq_true, if_false, String.toList_append, name,
    List.append_assoc]
  rfl

theorem toList_fragmentText (fragment : Fragment) :
    fragment.text.toList =
      "fragment".toList ++ ' ' :: (fragment.name.toList ++ ' ' :: (['o', 'n', ' '] ++
        (fragment.condition.type.toList ++ ((directivesText fragment.directives).toList ++
          ' ' :: (selectionSetText fragment.selections).toList)))) := by
  simp [Fragment.text]

/-! ### Operations and fragments read back -/

namespace Reader

variable {ahead rest : List Char}

theorem takes_operationKind (kind : OperationKind)
    (here : skipped ahead = kind.keyword.toList ++ rest) :
    Takes operationKind ahead rest fun read => read = kind := by
  have keyword : Takes (do token kind.keyword; pure kind) ahead rest fun read => read = kind :=
    (takes_token (by rw [here]; exact dropWord?_append _ _)).andThen fun _ => .pure rfl
  cases kind with
  | query => exact keyword.orElse _
  | mutation =>
      have noQuery : Refuses (token "query") ahead := refuses_token (by rw [here]; rfl)
      exact (noQuery.bind _).orElse (keyword.orElse _)
  | subscription =>
      have noQuery : Refuses (token "query") ahead := refuses_token (by rw [here]; rfl)
      have noMutation : Refuses (token "mutation") ahead := refuses_token (by rw [here]; rfl)
      exact (noQuery.bind _).orElse ((noMutation.bind _).orElse keyword)

theorem refuses_operationKind {c : Char} (first : (skipped ahead).head? = some c)
    (apart : c ∉ ['q', 'm', 's']) : Refuses operationKind ahead := by
  have other {d : Char} (keyword : d ∈ ['q', 'm', 's']) : (skipped ahead).head? ≠ some d := by
    rw [first]
    rintro ⟨⟩
    exact apart keyword
  have noQuery : Refuses (token "query") ahead :=
    refuses_token_of_head "query" rfl (other (by decide))
  have noMutation : Refuses (token "mutation") ahead :=
    refuses_token_of_head "mutation" rfl (other (by decide))
  have noSubscription : Refuses (token "subscription") ahead :=
    refuses_token_of_head "subscription" rfl (other (by decide))
  exact (noQuery.bind _).both ((noMutation.bind _).both (noSubscription.bind _))

/-- What stands between the name of an operation and its selections does not go on with a name. -/
theorem ends_operationName (definitions : List VariableDefinition) (directives : List Directive)
    (selections : List Selection) (rest : List Char) :
    let tail := (variablesText definitions).toList ++ ((directivesText directives).toList ++
      ' ' :: ((selectionSetText selections).toList ++ rest))
    Ends tail ∧ ∀ c ∈ (skipped tail).head?, startsName c = false := by
  have after {c : Char} (solid : isSolid c = true) (noName : startsName c = false)
      (text : List Char) : Ends (' ' :: c :: text) ∧
        ∀ d ∈ (skipped (' ' :: c :: text)).head?, startsName d = false := by
    refine ⟨.cons (by decide) _, ?_⟩
    rw [skipped_space, skipped_of_isSolid solid]
    rintro d ⟨⟩
    exact noName
  intro tail
  cases definitions with
  | cons definition others =>
      simp only [tail, toList_variablesText_cons]
      refine ⟨.cons (by decide) _, ?_⟩
      rw [List.cons_append, skipped_of_isSolid (by decide)]
      rintro c ⟨⟩
      decide
  | nil =>
      cases directives with
      | cons directive others =>
          simp only [tail, toList_directivesText]
          exact after (c := '@') (by decide) (by decide) _
      | nil =>
          simp only [tail, toList_selectionSetText]
          exact after (c := '\x7b') (by decide) (by decide) _

theorem takes_operationName {operation : Operation} (legal : operation.Legal)
    (next : Ends rest ∧ ∀ c ∈ (skipped rest).head?, startsName c = false) :
    Takes (optional name) (sentNameChars operation ++ rest) rest fun read =>
      read = operation.sent.name := by
  unfold sentNameChars
  cases sent : operation.sent.name with
  | none => exact (refuses_name next.2).optional
  | some name =>
      have legal' : isName name = true :=
        legal.name name (Option.filter_eq_some_iff.mp sent).1
      have here : skipped (' ' :: (name.toList ++ rest)) = name.toList ++ rest := by
        rw [skipped_space, skipped_name legal']
      refine (takes_name legal' next.1 here).optional.imp ?_
      rintro _ ⟨read, rfl, rfl⟩
      rfl

/-- A bare selection set is read as a query without a name. -/
theorem takes_operation_of_isBare {operation : Operation} (bare : operation.isBare = true)
    (legal : operation.Legal) (legible : operation.isLegible = true)
    (here : skipped ahead = operation.text.toList ++ rest) :
    Takes Reader.operation ahead rest fun read => read.erased = operation.sent := by
  obtain ⟨bare', noDirectives⟩ := Bool.and_eq_true_iff.mp bare
  obtain ⟨bare'', noDefinitions⟩ := Bool.and_eq_true_iff.mp bare'
  obtain ⟨anonymous, isQuery⟩ := Bool.and_eq_true_iff.mp bare''
  have noName : operation.sent.name = none := by
    cases given : operation.name with
    | none => simp [Operation.sent, given]
    | some name =>
        have same : name = anonymousName := by
          simpa [Operation.title, given] using anonymous
        simp [Operation.sent, Option.filter, given, same]
  rw [toList_text_of_isBare bare] at here
  have noKeyword : Refuses operationKind (skipped ahead) := by
    refine refuses_operationKind (c := '\x7b') ?_ (by decide)
    rw [skipped_skipped, here, toList_selectionSetText]
    rfl
  have nested := (Bool.and_eq_true_iff.mp legible).2
  refine Refuses.orElse (takes_here.refuses fun _ _ => noKeyword.bind _) ?_
  refine (takes_ownSelectionSet legal.selections nested here).bind fun (brace, read) same =>
    .pure ?_
  have same' : erasedSelections read = erasedSelections operation.selections := same
  show (⟨.start, .query, none, [], [], .start, erasedSelections read⟩ : Operation) =
    ⟨.start, operation.kind, operation.sent.name, operation.definitions, operation.directives,
      .start, erasedSelections operation.selections⟩
  rw [same', noName, beq_iff_eq.mp isQuery, List.isEmpty_iff.mp noDefinitions,
    List.isEmpty_iff.mp noDirectives]

theorem takes_operation_of_named {operation : Operation} (named : operation.isBare = false)
    (legal : operation.Legal) (bare : ∀ definition ∈ operation.definitions,
      definition.directives = []) (legible : operation.isLegible = true)
    (here : skipped ahead = operation.text.toList ++ rest) :
    Takes Reader.operation ahead rest fun read => read.erased = operation.sent := by
  obtain ⟨values, nested⟩ := Bool.and_eq_true_iff.mp legible
  obtain ⟨defaults, directives⟩ := Bool.and_eq_true_iff.mp values
  have selectionsHere := skipped_selectionSetText operation.selections rest
  have clear {chars : List Char} (apart : '\x7b' ∉ chars) :=
    clear_selectionSetText apart operation.selections rest
  have next := ends_operationName operation.definitions operation.directives operation.selections
    rest
  rw [toList_text_of_named named] at here
  simp only [List.append_assoc, List.cons_append] at here
  refine Takes.orElse (takes_here.andThen fun position => ?_) _
  refine (takes_operationKind operation.kind (by rw [skipped_skipped, here])).bind
    fun kind sameKind => ?_
  refine (takes_operationName legal next).bind fun name sameName => ?_
  refine (takes_variables legal.definitions bare (List.all_eq_true.mp defaults)
    (clear_directives (by decide) (clear (by decide)) _)).bind fun definitions sameDefinitions => ?_
  refine (takes_directives legal.directives (List.all_eq_true.mp directives)
    (clear (by decide))).bind fun directives sameDirectives => ?_
  refine (takes_ownSelectionSet legal.selections nested selectionsHere).bind
    fun (brace, read) same => .pure ?_
  have same' : erasedSelections read = erasedSelections operation.selections := same
  show (⟨.start, kind, name, definitions, directives, .start, erasedSelections read⟩ : Operation) =
    ⟨.start, operation.kind, operation.sent.name, operation.definitions, operation.directives,
      .start, erasedSelections operation.selections⟩
  rw [same', sameKind, sameName, sameDefinitions, sameDirectives]

theorem takes_fragmentDefinition {fragment : Fragment} (legal : fragment.Legal)
    (legible : fragment.isLegible = true)
    (here : skipped ahead = fragment.text.toList ++ rest) :
    Takes fragmentDefinition ahead rest fun read => read.erased = fragment.erased := by
  obtain ⟨directives, nested⟩ := Bool.and_eq_true_iff.mp legible
  have selectionsHere := skipped_selectionSetText fragment.selections rest
  have clear {chars : List Char} (apart : '\x7b' ∉ chars) :=
    clear_selectionSetText apart fragment.selections rest
  have clear' := @clear_directives [] _ (by decide) (clear (by decide)) fragment.directives
  rw [toList_fragmentText] at here
  simp only [List.append_assoc, List.cons_append] at here
  refine takes_here.andThen fun position => ?_
  rw [here]
  refine (takes_exactly (dropWord?_append _ _)).andThen fun _ => ?_
  refine (takes_name legal.name (.cons (by decide) _)
    ((skipped_space _).trans (skipped_name legal.name _))).bind fun name sameName => ?_
  refine (takes_typeCondition legal.condition clear'.1
    ((skipped_space _).trans (skipped_of_isSolid (by decide) _))).bind
      fun condition sameCondition => ?_
  refine (takes_directives legal.directives (List.all_eq_true.mp directives)
    (clear (by decide))).bind fun directives sameDirectives => ?_
  refine (takes_ownSelectionSet legal.selections nested selectionsHere).bind
    fun (brace, read) same => .pure ?_
  have same' : erasedSelections read = erasedSelections fragment.selections := same
  show (⟨.start, name, ⟨.start, condition.type, .start⟩, directives, .start,
      erasedSelections read⟩ : Fragment) =
    ⟨.start, fragment.name, ⟨.start, fragment.condition.type, .start⟩, fragment.directives, .start,
      erasedSelections fragment.selections⟩
  rw [same', sameName, sameCondition, sameDirectives]

end Reader

/-! ### Printed operations and fragments have single spaces -/

open Text (Settled Firm)

theorem firm_definition {definition : VariableDefinition} (legal : definition.Legal)
    (legible : definition.default.all Value.isLegible = true) : Firm (definitionChars definition) := by
  have default : Settled (defaultChars definition.default) := by
    cases given : definition.default with
    | none => exact .nil
    | some value =>
        rw [given] at legible
        have equals : Firm ('=' :: ' ' :: value.text.toList) :=
          .cons (by decide) (firm_value (legal.default value given) legible).space
        exact equals.space
  have type : Firm (definition.type.text.toList ++ defaultChars definition.default) :=
    (firm_type legal.type.1).append default
  exact .cons (by decide) ((firm_name legal.name).append
    (Firm.cons (by decide) type.space).settled).settled

theorem settled_variables {definitions : List VariableDefinition}
    (legal : ∀ definition ∈ definitions, definition.Legal)
    (legible : ∀ definition ∈ definitions, definition.default.all Value.isLegible = true) :
    Settled (variablesText definitions).toList := by
  cases definitions with
  | nil => exact .nil
  | cons first others =>
      rw [toList_variablesText_cons]
      refine (Firm.cons (by decide) ((Settled.intercalate ?_).append
        (Firm.cons (by decide) .nil).settled)).settled
      rintro _ member
      obtain ⟨definition, among, rfl⟩ := List.mem_map.mp member
      exact firm_definition (legal definition among) (legible definition among)

theorem firm_operation {operation : Operation} (legal : operation.Legal)
    (legible : operation.isLegible = true) : Firm operation.text.toList := by
  obtain ⟨values, nested⟩ := Bool.and_eq_true_iff.mp legible
  obtain ⟨defaults, directives⟩ := Bool.and_eq_true_iff.mp values
  have selections := firm_selectionSetText legal.selections nested
  cases bare : operation.isBare with
  | true => rwa [toList_text_of_isBare bare]
  | false =>
      have keyword : Firm operation.kind.keyword.toList := by
        cases operation.kind with
        | query => exact .of_visible (by decide) (by decide)
        | mutation => exact .of_visible (by decide) (by decide)
        | subscription => exact .of_visible (by decide) (by decide)
      have name : Settled (sentNameChars operation) := by
        unfold sentNameChars
        cases sent : operation.sent.name with
        | none => exact .nil
        | some name => exact (firm_name (legal.name name (Option.filter_eq_some_iff.mp sent).1)).space
      rw [toList_text_of_named bare]
      refine keyword.append (name.append (.append ?_ (.append ?_ selections.space)))
      · exact settled_variables legal.definitions (List.all_eq_true.mp defaults)
      · exact settled_directives legal.directives directives

theorem firm_fragment {fragment : Fragment} (legal : fragment.Legal)
    (legible : fragment.isLegible = true) : Firm fragment.text.toList := by
  obtain ⟨directives, nested⟩ := Bool.and_eq_true_iff.mp legible
  have selections := firm_selectionSetText legal.selections nested
  have keyword : Firm "fragment".toList := .of_visible (by decide) (by decide)
  have on : Firm (['o', 'n'] ++ ' ' :: (fragment.condition.type.toList ++
      ((directivesText fragment.directives).toList ++
        ' ' :: (selectionSetText fragment.selections).toList))) :=
    (Firm.of_visible (by decide) (by decide)).append ((firm_name legal.condition).append
      ((settled_directives legal.directives directives).append selections.space)).space
  rw [toList_fragmentText]
  exact keyword.append ((firm_name legal.name).append on.space).space

end GraphQL

end ElmClient
