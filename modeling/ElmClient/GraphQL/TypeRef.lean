/-
Module: ElmClient.GraphQL.TypeRef
Purpose: References to types of a schema, with their lists and non-null marks.
Main exports: TypeRef, TypeRef.required, TypeRef.name, TypeRef.text, TypeRef.parse?
-/

namespace ElmClient.GraphQL

/-- A reference to a type: its name, inside lists and non-null marks. A reference made by
`TypeRef.required` never marks twice. -/
inductive TypeRef where
  | named (name : String)
  | list (item : TypeRef)
  | nonNull (inner : TypeRef)
deriving DecidableEq, Repr, Inhabited

namespace TypeRef

/-- Marks a reference as non-null, once. -/
def required : TypeRef → TypeRef
  | .nonNull inner => .nonNull inner
  | other => .nonNull other

/-- The name of the type under all lists and marks. -/
def name : TypeRef → String
  | .named name => name
  | .list item => item.name
  | .nonNull inner => inner.name

/-- Whether the reference carries a mark outside. -/
def isNonNull : TypeRef → Bool
  | .nonNull _ => true
  | _ => false

/-- The reference without its outer mark. -/
def nullable : TypeRef → TypeRef
  | .nonNull inner => inner
  | other => other

/-- The reference as GraphQL writes it. -/
def text : TypeRef → String
  | .named name => name
  | .list item => "[" ++ item.text ++ "]"
  | .nonNull inner => inner.text ++ "!"

/-- The text without a given last character, if it ends in it. -/
def dropLast? (c : Char) (text : List Char) : Option (List Char) :=
  if text.getLast? = some c then some text.dropLast else none

/-- Reads the text of a reference in at most so many steps. Whatever is not a list is a name. -/
def parseChars? : Nat → List Char → Option TypeRef
  | 0, _ => none
  | steps + 1, text =>
      let (marked, body) :=
        match dropLast? '!' text with
        | some body => (true, body)
        | none => (false, text)
      let base : Option TypeRef :=
        match body with
        | '[' :: rest =>
            (dropLast? ']' rest).bind fun item => (parseChars? steps item).map TypeRef.list
        | _ => some (TypeRef.named (String.ofList body))
      base.map fun type => if marked then type.required else type

/-- Reads the text of a reference. A text that opens a list and does not close it has no
reference. -/
def parse? (text : String) : Option TypeRef :=
  parseChars? (text.length + 1) text.toList

@[simp] theorem name_required (t : TypeRef) : t.required.name = t.name := by
  cases t <;> rfl

@[simp] theorem isNonNull_required (t : TypeRef) : t.required.isNonNull = true := by
  cases t <;> rfl

@[simp] theorem required_required (t : TypeRef) : t.required.required = t.required := by
  cases t <;> rfl

end TypeRef

end ElmClient.GraphQL
