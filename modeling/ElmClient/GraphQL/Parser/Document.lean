/-
Module: ElmClient.GraphQL.Parser.Document
Purpose: The grammar of executable documents, and what a document must satisfy beyond it.
Main exports: Document.parse
-/
import ElmClient.GraphQL.Parser.Value

namespace ElmClient.GraphQL

namespace Reader

/-- One character or more that may stand between tokens, but no comment. -/
def blanks : Reader Unit := do
  let cursor ← get
  match cursor.rest.takeWhile isIgnored with
  | [] => failure
  | taken => set (cursor.advance taken (cursor.rest.dropWhile isIgnored))

/-- The type that a fragment is about. Blanks must follow the keyword. -/
def typeCondition : Reader TypeCondition := do
  let position ← here
  exactly "on"
  blanks
  let typePosition := (← get).position
  let type ← nameHere
  pure ⟨position, type, typePosition⟩

/-- The declaration of a variable; directives stand before the default value. -/
def variableDefinition : Reader VariableDefinition := do
  token "$"
  let variableName ← name
  token ":"
  let variableType ← type
  let variableDirectives ← directives false
  let default ← optional defaultValue
  pure ⟨variableName, variableType, variableDirectives, default⟩

/-- Variables in parentheses, which may be empty. -/
def variableDefinitions : Reader (List VariableDefinition) := do
  token "("
  let definitions ← many variableDefinition
  token ")"
  pure definitions

/-- How many levels of selections may stand below those of an operation or a fragment. -/
def levelLimit : Nat := 64

/-- A selection set: the place of its brace and its items. The first bound is on the nesting that
the text can hold; `levels` are those that may still follow below, and one more is reported. -/
def selectionSet : (depth : Nat) → (levels : Nat) → Reader (Position × List Selection)
  | 0, _ => failure
  | depth + 1, levels => do
      let position ← here
      exactly "\x7b"
      let below : Reader (Position × List Selection) := do
        if levels == 0 then report .recursionLimitExceeded
        selectionSet depth (levels - 1)
      let field : Reader Selection := do
        let position ← here
        let aliasName ← optional (do
          let aliasName ← name
          token ":"
          pure aliasName)
        let fieldName ← name
        let fieldArguments ← orEmpty (arguments false)
        let fieldDirectives ← directives false
        let (brace, selections) ← below <|> pure (position, [])
        pure (.field ⟨position, aliasName, fieldName, fieldArguments, fieldDirectives⟩ brace
          selections)
      let inlineFragment : Reader Selection := do
        let position ← here
        exactly "..."
        let condition ← optional typeCondition
        let inlineDirectives ← directives false
        let (brace, selections) ← below
        pure (.inline ⟨position, condition, inlineDirectives⟩ brace selections)
      let spread : Reader Selection := do
        let position ← here
        exactly "..."
        without typeCondition
        let fragment ← name
        let spreadDirectives ← directives false
        pure (.spread ⟨position, fragment, spreadDirectives⟩)
      let items ← many1 (field <|> inlineFragment <|> spread)
      token "\x7d"
      pure (position, items)

/-- The selection set of an operation or a fragment. -/
def ownSelectionSet : Reader (Position × List Selection) := do
  selectionSet (← depthBound) levelLimit

/-- An operation: one with a keyword, or a query that is only a selection set. -/
def operation : Reader Operation :=
  (do let position ← here
      let kind ← operationKind
      let operationName ← optional name
      let definitions ← orEmpty variableDefinitions
      let operationDirectives ← directives false
      let (brace, selections) ← ownSelectionSet
      pure ⟨position, kind, operationName, definitions, operationDirectives, brace,
        selections⟩) <|>
  (do let (brace, selections) ← ownSelectionSet
      pure ⟨brace, .query, none, [], [], brace, selections⟩)

/-- The definition of a fragment. -/
def fragmentDefinition : Reader Fragment := do
  let position ← here
  exactly "fragment"
  let fragmentName ← name
  let condition ← typeCondition
  let fragmentDirectives ← directives false
  let (brace, selections) ← ownSelectionSet
  pure ⟨position, fragmentName, condition, fragmentDirectives, brace, selections⟩

/-- A definition of a document. -/
def definition : Reader (Operation ⊕ Fragment) :=
  (Sum.inl <$> operation) <|> (Sum.inr <$> fragmentDefinition)

end Reader

namespace Document

/-- Adds an operation. One without a name stands alone, and names do not repeat. -/
def addOperation (operation : Operation) (document : Document) : Except DocumentError Document :=
  match operation.name with
  | none =>
      if document.operations.isEmpty then .ok { document with operations := [operation] }
      else .error .multipleOperations
  | some name =>
      if document.operations.any (·.name.isNone) then .error .multipleOperations
      else if document.operations.any (·.name == some name) then .error (.operationRepeated name)
      else .ok { document with operations := document.operations ++ [operation] }

/-- Adds a fragment, whose name is new. -/
def addFragment (fragment : Fragment) (document : Document) : Except DocumentError Document :=
  if document.fragments.any (·.name == fragment.name) then
    .error (.fragmentRepeated fragment.name)
  else .ok { document with fragments := document.fragments ++ [fragment] }

/-- Adds a definition. -/
def add (document : Document) : Operation ⊕ Fragment → Except DocumentError Document
  | .inl operation => document.addOperation operation
  | .inr fragment => document.addFragment fragment

/-- The document of some definitions; it has an operation. -/
def ofDefinitions (definitions : List (Operation ⊕ Fragment)) :
    Except DocumentError Document := do
  let document ← definitions.foldlM add ⟨[], []⟩
  if document.operations.isEmpty then .error .missingOperation else .ok document

/-- Reads an executable document. -/
def parse (text : String) : Except DocumentError Document := do
  let definitions ← (Reader.many1 Reader.definition).run? text
  ofDefinitions definitions

end Document

end ElmClient.GraphQL
