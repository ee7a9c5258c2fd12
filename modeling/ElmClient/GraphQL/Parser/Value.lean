/-
Module: ElmClient.GraphQL.Parser.Value
Purpose: The grammar of what executable documents and schemas share: type references, values,
  arguments and directives.
Main exports: Reader.type, Reader.string, Reader.value, Reader.directives, Reader.defaultValue
-/
import ElmClient.GraphQL.Reader
import ElmClient.GraphQL.StringLiteral

namespace ElmClient.GraphQL.Reader

/-- The bound on the depth of nesting in the text ahead: every level takes a character. -/
def depthBound : Reader Nat := do
  pure ((← get).rest.length + 1)

/-- A type reference without blanks inside, nested at most as deep as given. -/
def typeHere : Nat → Reader TypeRef
  | 0 => failure
  | depth + 1 => do
      let base ←
        (TypeRef.named <$> nameHere) <|>
        (do exactly "["
            let item ← typeHere depth
            exactly "]"
            pure (TypeRef.list item))
      (do exactly "!"
          pure base.required) <|> pure base

/-- A type reference. -/
def type : Reader TypeRef := do
  skip
  typeHere (← depthBound)

/-- A string, in one of its two forms. -/
def string : Reader String := do
  skip
  let cursor ← get
  let quoted (rest : List Char) : Reader String :=
    match StringLiteral.scanQuoted rest with
    | some scanned => do
        set (cursor.advance ('"' :: scanned.taken) scanned.rest)
        pure (String.ofList scanned.value)
    | none => failure
  match cursor.rest with
  | '"' :: '"' :: '"' :: rest =>
      match StringLiteral.scanBlock rest with
      | some scanned => do
          set (cursor.advance (['"', '"', '"'] ++ scanned.taken) scanned.rest)
          pure (String.ofList (StringLiteral.blockValue scanned.value))
      | none => quoted ('"' :: '"' :: rest)
  | '"' :: rest => quoted rest
  | _ => failure

/-- A number that no name follows. One that is too large is reported. -/
def number : Reader Number := do
  skip
  let cursor ← get
  match NumberLiteral.scan cursor.rest with
  | none => failure
  | some (literal, rest) =>
      if rest.head?.any startsName then failure
      else
        let taken := cursor.rest.take (cursor.rest.length - rest.length)
        set (cursor.advance taken rest)
        match literal.value? with
        | some n => pure n
        | none => do
            report .malformed
            pure (.integer 0)

/-- A truth value. -/
def boolean : Reader Bool :=
  (do token "true"
      pure true) <|>
  (do token "false"
      pure false)

/-- A name that is neither a truth value nor null, nor starts like one. -/
def enumName : Reader String := do
  skip
  without (exactly "true")
  without (exactly "false")
  without (exactly "null")
  nameHere

/-- A name and a value after a colon. -/
def named (value : Reader Value) : Reader (String × Value) := do
  let key ← name
  token ":"
  let v ← value
  pure (key, v)

/-- A value, nested at most as deep as given. Constant values have no variables. -/
def valueTo (constant : Bool) : Nat → Reader Value
  | 0 => failure
  | depth + 1 =>
      (do if constant then failure
          token "$"
          Value.variable <$> name) <|>
      (Value.number <$> number) <|>
      (Value.string <$> string) <|>
      (Value.boolean <$> boolean) <|>
      (do token "null"
          pure Value.null) <|>
      (Value.enum <$> enumName) <|>
      (do token "["
          let items ← many (valueTo constant depth)
          token "]"
          pure (Value.list items)) <|>
      (do token "\x7b"
          let entries ← many (named (valueTo constant depth))
          token "\x7d"
          pure (Value.object (Dictionary.ofList entries)))

/-- A value. -/
def value (constant : Bool) : Reader Value := do
  valueTo constant (← depthBound)

/-- Arguments in parentheses; there is one at least. -/
def arguments (constant : Bool) : Reader (List (String × Value)) := do
  token "("
  let arguments ← many1 (named (value constant))
  token ")"
  pure arguments

/-- A directive. -/
def directive (constant : Bool) : Reader Directive := do
  token "@"
  let directiveName ← name
  let directiveArguments ← orEmpty (arguments constant)
  pure ⟨directiveName, directiveArguments⟩

/-- One directive or more. -/
def directives1 (constant : Bool) : Reader (List Directive) :=
  many1 (directive constant)

/-- Directives, if there are any. -/
def directives (constant : Bool) : Reader (List Directive) :=
  many (directive constant)

/-- A constant value after an equals sign. -/
def defaultValue : Reader Value := do
  token "="
  value true

/-- The keyword of an operation. -/
def operationKind : Reader OperationKind :=
  (do token "query"
      pure .query) <|>
  (do token "mutation"
      pure .mutation) <|>
  (do token "subscription"
      pure .subscription)

end ElmClient.GraphQL.Reader
