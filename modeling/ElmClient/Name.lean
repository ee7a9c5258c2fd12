/-
Module: ElmClient.Name
Purpose: The Elm names that stand for names of a schema and of a document.
Main exports: Name.safe, Name.enumConstructor, Name.enumDecoder, Name.unionConstructor,
  Name.openAlias, Name.decoder, Name.encoder, Name.typeParameter, Name.moduleOf
-/
import ElmClient.Path
import ElmClient.Text.Case

namespace ElmClient.Name

open Text (capitalize decapitalize lowercase)

/-- The words that get an underscore at the end: keywords of Elm, and names that the modules
import. -/
def reserved : List String :=
  ["type", "alias", "as", "case", "else", "exposing", "if", "import", "in", "let", "module", "of",
    "port", "then", "where", "Task", "List", "Http", "GraphQL", "Maybe", "String"]

/-- A name that Elm accepts as a field. -/
def safe (name : String) : String :=
  if name == "__typename" then "typename_"
  else if reserved.contains name then name ++ "_"
  else name

/-- The constructor of a value of an enumeration. -/
def enumConstructor (enum value : String) : String :=
  capitalize enum ++ "_" ++ capitalize (lowercase value)

/-- The decoder of an enumeration. -/
def enumDecoder (enum : String) : String := lowercase enum ++ "Decoder"

/-- The constructor of a member of a union. -/
def unionConstructor (union member : String) : String := safe (union ++ "_" ++ member)

/-- The alias of a fragment that takes further fields. -/
def openAlias (fragment : String) : String := capitalize fragment ++ "_"

/-- The decoder of a type. -/
def decoder (type : String) : String := decapitalize type ++ "Decoder"

/-- The encoder of a type. -/
def encoder (type : String) : String := "encode" ++ capitalize type

/-- The type parameter of the member of a union at an index. -/
def typeParameter (index : Nat) : String :=
  if index < 26 then String.singleton (Char.ofNat ('a'.toNat + index))
  else "a" ++ toString index

/-- The part of a list after the last occurrence of a name, or all of it. -/
def afterLast (name : String) (names : List String) : List String :=
  (names.reverse.takeWhile (· != name)).reverse

/-- The module of a source file: the names below the last directory `src`, the last one without
its extension. -/
def moduleOf (path : String) : String :=
  let names := afterLast "src" (Path.names (Path.withExtension path ""))
  ".".intercalate (names.map capitalize)

end ElmClient.Name
