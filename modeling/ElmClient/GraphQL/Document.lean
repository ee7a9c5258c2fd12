/-
Module: ElmClient.GraphQL.Document
Purpose: Executable GraphQL documents: operations, fragments and what they select.
Main exports: Position, OperationKind, Directive, Selection, Operation, Fragment, Document
-/
import ElmClient.GraphQL.TypeRef
import ElmClient.GraphQL.Value

namespace ElmClient.GraphQL

/-- A place in a text; lines and columns count from one, and a column is a character. -/
structure Position where
  line : Nat
  column : Nat
deriving DecidableEq, Repr, Inhabited

namespace Position

/-- The start of a text. -/
def start : Position := ⟨1, 1⟩

/-- The place after a character. A line feed starts a line, and a carriage return goes back to the
first column of the same one. -/
def after (c : Char) (position : Position) : Position :=
  if c == '\n' then ⟨position.line + 1, 1⟩
  else if c == '\r' then ⟨position.line, 1⟩
  else ⟨position.line, position.column + 1⟩

/-- The place as `line:column`. -/
def text (position : Position) : String :=
  toString position.line ++ ":" ++ toString position.column

/-- Whether a place is not behind another one. -/
def before (a b : Position) : Bool :=
  a.line < b.line || (a.line == b.line && a.column ≤ b.column)

theorem before_refl (a : Position) : a.before a = true := by
  simp [before]

theorem before_trans {a b c : Position} (one : a.before b = true) (two : b.before c = true) :
    a.before c = true := by
  simp only [before, Bool.or_eq_true, Bool.and_eq_true, decide_eq_true_eq, beq_iff_eq] at *
  omega

theorem before_of_not {a b : Position} (other : ¬ a.before b = true) : b.before a = true := by
  simp only [before, Bool.or_eq_true, Bool.and_eq_true, decide_eq_true_eq, beq_iff_eq] at *
  omega

end Position

/-- The three kinds of operations. -/
inductive OperationKind where
  | query
  | mutation
  | subscription
deriving DecidableEq, Repr, Inhabited

/-- The keyword of a kind of operations. -/
def OperationKind.keyword : OperationKind → String
  | .query => "query"
  | .mutation => "mutation"
  | .subscription => "subscription"

/-- A directive with its arguments, which may repeat a name. -/
structure Directive where
  name : String
  arguments : List (String × Value)
deriving Repr, Inhabited

/-- The declaration of a variable. -/
structure VariableDefinition where
  name : String
  type : TypeRef
  directives : List Directive
  default : Option Value
deriving Repr, Inhabited

/-- A selected field, without what is selected below it. -/
structure Field where
  position : Position
  aliasName : Option String
  name : String
  arguments : List (String × Value)
  directives : List Directive
deriving Repr, Inhabited

/-- The key under which a response holds the field. -/
def Field.responseKey (field : Field) : String := field.aliasName.getD field.name

/-- The use of a fragment. -/
structure Spread where
  position : Position
  fragment : String
  directives : List Directive
deriving Repr, Inhabited

/-- The type that a fragment is about, with the places of its keyword and of its name. -/
structure TypeCondition where
  position : Position
  type : String
  typePosition : Position
deriving Repr, Inhabited

/-- A fragment written where it is used, without its selections. -/
structure InlineFragment where
  position : Position
  condition : Option TypeCondition
  directives : List Directive
deriving Repr, Inhabited

/-- One item of a selection set. A field without a selection set has no selections; `brace` is the
place of the opening brace. -/
inductive Selection where
  | field (field : Field) (brace : Position) (selections : List Selection)
  | spread (spread : Spread)
  | inline (inline : InlineFragment) (brace : Position) (selections : List Selection)
deriving Repr, Inhabited

/-- An operation. Its definitions are those of its variables. -/
structure Operation where
  position : Position
  kind : OperationKind
  name : Option String
  definitions : List VariableDefinition
  directives : List Directive
  brace : Position
  selections : List Selection
deriving Repr, Inhabited

/-- A named fragment. -/
structure Fragment where
  position : Position
  name : String
  condition : TypeCondition
  directives : List Directive
  brace : Position
  selections : List Selection
deriving Repr, Inhabited

/-- A document: its operations and its fragments, each in the order of the text. -/
structure Document where
  operations : List Operation
  fragments : List Fragment
deriving Repr, Inhabited

/-- Why a GraphQL text is refused. -/
inductive DocumentError where
  | malformed
  | recursionLimitExceeded
  | multipleOperations
  | operationRepeated (name : String)
  | fragmentRepeated (name : String)
  | missingOperation
  | multipleRoots (kind : OperationKind)
  | missingQueryRoot
deriving DecidableEq, Repr, Inhabited

/-- What a refused text is told. -/
def DocumentError.message : DocumentError → String
  | .malformed => "the text does not follow the grammar"
  | .recursionLimitExceeded => "recursion limit exceeded."
  | .multipleOperations => "document contains multiple operations"
  | .operationRepeated name => "operation " ++ name ++ " is defined twice"
  | .fragmentRepeated name => "fragment " ++ name ++ " is defined twice"
  | .missingOperation => "document does not contain an operation"
  | .multipleRoots kind => "multiple " ++ kind.keyword ++ " roots in schema definition"
  | .missingQueryRoot => "schema definition is missing query root"

end ElmClient.GraphQL
