/-
Module: ElmClient.QueryText
Purpose: The text of an operation that is sent to a server: the fragments it reaches and then the
  operation itself, on one line.
Main exports: selectionSetText, Fragment.text, Fragment.header_prefix_text, Operation.text,
  BoundDocument.usedFragments, BoundDocument.queryText
-/
import ElmClient.BoundDocument
import ElmClient.Text.Blank

namespace ElmClient

open GraphQL

/-- Arguments in parentheses, or nothing. -/
def argumentsText (arguments : List (String × Value)) : String :=
  if arguments.isEmpty then ""
  else
    let texts := arguments.map fun argument => argument.1 ++ ": " ++ argument.2.text
    "(" ++ ", ".intercalate texts ++ ")"

/-- Directives, with a space before each. -/
def directivesText (directives : List Directive) : String :=
  String.join (directives.map fun directive =>
    " @" ++ directive.name ++ argumentsText directive.arguments)

/-- The declaration of a variable. Its directives are left out. -/
def GraphQL.VariableDefinition.text (definition : VariableDefinition) : String :=
  let declaration := "$" ++ definition.name ++ ": " ++ definition.type.text
  match definition.default with
  | some value => declaration ++ " = " ++ value.text
  | none => declaration

/-- Declarations of variables in parentheses, or nothing. -/
def variablesText (definitions : List VariableDefinition) : String :=
  if definitions.isEmpty then ""
  else "(" ++ ", ".intercalate (definitions.map (·.text)) ++ ")"

/-- A field without what is selected below it. -/
def GraphQL.Field.text (field : Field) : String :=
  let before :=
    match field.aliasName with
    | some aliasName => aliasName ++ ": "
    | none => ""
  before ++ field.name ++ argumentsText field.arguments ++ directivesText field.directives

/-- An inline fragment without its selections. -/
def GraphQL.InlineFragment.text (inline : InlineFragment) : String :=
  let condition :=
    match inline.condition with
    | some condition => " on " ++ condition.type
    | none => ""
  "..." ++ condition ++ directivesText inline.directives

/-- Items in braces. -/
def braced (items : String) : String := "\x7b " ++ items ++ "\x7d"

mutual

/-- One selection. -/
def selectionText : Selection → String
  | .field field _ selections =>
      if selections.isEmpty then field.text
      else field.text ++ " " ++ braced (selectionsText selections)
  | .spread spread => "..." ++ spread.fragment ++ directivesText spread.directives
  | .inline inline _ selections => inline.text ++ " " ++ braced (selectionsText selections)
termination_by structural selection => selection

/-- Selections, each with a space after it. -/
def selectionsText : List Selection → String
  | [] => ""
  | selection :: rest => selectionText selection ++ " " ++ selectionsText rest
termination_by structural selections => selections

end

/-- A selection set in braces. -/
def selectionSetText (selections : List Selection) : String := braced (selectionsText selections)

/-- The definition of a fragment. -/
def GraphQL.Fragment.text (fragment : Fragment) : String :=
  "fragment " ++ fragment.name ++ " on " ++ fragment.condition.type ++
    directivesText fragment.directives ++ " " ++ selectionSetText fragment.selections

/-- The definition of a fragment starts with its name and the type that it is on. -/
theorem GraphQL.Fragment.header_prefix_text (fragment : Fragment) :
    ("fragment " ++ fragment.name ++ " on " ++ fragment.condition.type).toList <+:
      fragment.text.toList :=
  ⟨(directivesText fragment.directives ++ " " ++ selectionSetText fragment.selections).toList, by
    simp only [Fragment.text, String.toList_append, List.append_assoc]⟩

/-- Whether an operation is only written as its selection set: a query with nothing beside it. -/
def GraphQL.Operation.isBare (operation : Operation) : Bool :=
  operation.title == anonymousName && operation.kind == .query && operation.definitions.isEmpty &&
    operation.directives.isEmpty

/-- An operation. The name of an anonymous one is left out. -/
def GraphQL.Operation.text (operation : Operation) : String :=
  let selections := selectionSetText operation.selections
  if operation.isBare then selections
  else
    let name := if operation.title == anonymousName then "" else " " ++ operation.title
    operation.kind.keyword ++ name ++ variablesText operation.definitions ++
      directivesText operation.directives ++ " " ++ selections

/-- Adds the fragments that the use of a fragment reaches. -/
abbrev FragmentVisit := Spread → List Fragment → Except GenerationError (List Fragment)

mutual

/-- Adds the fragments that a selection reaches. -/
def usedByItem (visit : FragmentVisit) :
    Selection → List Fragment → Except GenerationError (List Fragment)
  | .field _ _ selections, used => usedBySelections visit selections used
  | .spread spread, used => visit spread used
  | .inline _ _ selections, used => usedBySelections visit selections used
termination_by structural selection => selection

/-- Adds the fragments that selections reach. -/
def usedBySelections (visit : FragmentVisit) :
    List Selection → List Fragment → Except GenerationError (List Fragment)
  | [], used => .ok used
  | selection :: rest, used => do
      let used ← usedByItem visit selection used
      usedBySelections visit rest used
termination_by structural selections => selections

end

namespace BoundDocument

/-- Adds a fragment before those that it reaches, unless it is there. Fragments in one another are
followed no deeper than the count says. -/
def visitFragment (bound : BoundDocument) : Nat → FragmentVisit
  | 0, _, used => .ok used
  | depth + 1, spread, used =>
      if used.any (·.name == spread.fragment) then .ok used
      else do
        let fragment ← bound.fragment spread.fragment spread.position
        usedBySelections (bound.visitFragment depth) fragment.selections (used ++ [fragment])

/-- The fragments that an operation reaches, in the order in which they are first spread. -/
def usedFragments (bound : BoundDocument) (operation : Operation) :
    Except GenerationError (List Fragment) :=
  usedBySelections (bound.visitFragment bound.spreadDepth) operation.selections []

/-- The text that is sent for an operation. -/
def queryText (bound : BoundDocument) (operation : Operation) :
    Except GenerationError String := do
  let fragments ← bound.usedFragments operation
  let definitions := fragments.map fun fragment => fragment.text ++ " "
  pure (Text.squeezeBlank (String.join definitions ++ operation.text))

end BoundDocument

end ElmClient
