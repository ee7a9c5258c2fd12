/-
Module: ElmClient.Json.Form
Purpose: Taking JSON values of an expected form apart, with the path to what does not fit.
Main exports: Json.Step, Json.FormError, Json.Form, Json.Form.text, Json.Form.list,
  Json.Form.nullable, Json.RecordForm, Json.Form.record
-/
import ElmClient.Json.Basic
import ElmClient.Text.Quoted

namespace ElmClient.Json

/-- One step into a JSON value. -/
inductive Step where
  | key (name : String)
  | index (n : Nat)
deriving DecidableEq, Repr, Inhabited

/-- The text of a path after its first step. -/
def stepsText : List Step → String
  | [] => ""
  | .key name :: rest => "." ++ name ++ stepsText rest
  | .index n :: rest => "[" ++ toString n ++ "]" ++ stepsText rest

/-- The text of a path: keys are joined by points, and a point alone is the whole value. -/
def pathText : List Step → String
  | [] => "."
  | .key name :: rest => name ++ stepsText rest
  | steps => stepsText steps

/-- What does not fit, and where. -/
structure FormError where
  path : List Step
  message : String
deriving DecidableEq, Repr, Inhabited

/-- The place and the fault in one text. -/
def FormError.text (error : FormError) : String :=
  "at JSON path " ++ pathText error.path ++ " → " ++ error.message

/-- Moves the place of an error one step down. -/
def FormError.below (step : Step) (error : FormError) : FormError :=
  { error with path := step :: error.path }

/-- What an unfit value is called. -/
def describe : Json → String
  | .null => "null"
  | .bool true => "boolean `true`"
  | .bool false => "boolean `false`"
  | .number (.integer n) => "integer `" ++ toString n ++ "`"
  | .number (.float x) => "floating point `" ++ FloatStyle.json.text x ++ "`"
  | .string s => "string " ++ Text.quote s
  | .array _ => "sequence"
  | .object _ => "map"

/-- Takes a value apart, or says what does not fit. -/
abbrev Form (α : Type) := Json → Except FormError α

namespace Form

/-- An error at the value itself. -/
def reject {α : Type} (message : String) : Except FormError α := .error ⟨[], message⟩

/-- The error for a value of another type. -/
def mistyped {α : Type} (value : Json) (expected : String) : Except FormError α :=
  reject ("invalid type: " ++ describe value ++ ", expected " ++ expected)

/-- Moves the place of an error one step down. -/
def below {α : Type} (step : Step) (result : Except FormError α) : Except FormError α :=
  result.mapError (·.below step)

/-- A string. -/
def text : Form String
  | .string s => .ok s
  | value => mistyped value "a string"

/-- The items of an array from an index on. -/
def items {α : Type} (item : Form α) : Nat → List Json → Except FormError (List α)
  | _, [] => .ok []
  | index, value :: rest => do
      let first ← below (.index index) (item value)
      let more ← items item (index + 1) rest
      pure (first :: more)

/-- An array. -/
def list {α : Type} (item : Form α) : Form (List α)
  | .array values => items item 0 values
  | value => mistyped value "a sequence"

/-- Null, or a value of a form. -/
def nullable {α : Type} (form : Form α) : Form (Option α)
  | .null => .ok none
  | value => some <$> form value

end Form

/-- How a record is read: its name, its fields in order and whether an array may leave them out,
the record before its first field, what a field adds, and what must be there in the end. Keys
without a field add nothing. -/
structure RecordForm (σ α : Type) where
  name : String
  fields : List (String × Bool)
  start : σ
  add : String → Json → σ → Except FormError σ
  complete : σ → Except FormError α

namespace RecordForm

variable {σ α : Type}

/-- The number of elements in words. -/
def elementCount (n : Nat) : String :=
  if n == 1 then "1 element" else toString n ++ " elements"

/-- Adds the entries of an object, in their order. -/
def addEntries (form : RecordForm σ α) : List (String × Json) → σ → Except FormError σ
  | [], record => .ok record
  | (key, value) :: rest, record => do
      let record ← Form.below (.key key) (form.add key value record)
      addEntries form rest record

/-- Adds the items of an array, which are the fields in order from an index on. -/
def addItems (form : RecordForm σ α) :
    Nat → List (String × Bool) → List Json → σ → Except FormError σ
  | index, (field, _) :: fields, value :: rest, record => do
      let record ← Form.below (.index index) (form.add field value record)
      addItems form (index + 1) fields rest record
  | index, (_, optional) :: fields, [], record =>
      if optional then addItems form (index + 1) fields [] record
      else
        Form.reject ("invalid length " ++ toString index ++ ", expected struct " ++ form.name ++
          " with " ++ elementCount form.fields.length)
  | _, [], _, record => .ok record

end RecordForm

/-- A record: an object, or an array of the fields in order. -/
def Form.record {σ α : Type} (form : RecordForm σ α) : Form α
  | .object entries => do
      let record ← form.addEntries entries form.start
      form.complete record
  | .array values => do
      let record ← form.addItems 0 form.fields values form.start
      if form.fields.length < values.length then
        Form.reject ("invalid length " ++ toString values.length ++
          ", expected fewer elements in array")
      else form.complete record
  | value => Form.mistyped value ("struct " ++ form.name)

/-- A field that must be there. -/
def Form.require {α : Type} (name : String) : Option α → Except FormError α
  | some value => .ok value
  | none => Form.reject ("missing field `" ++ name ++ "`")

end ElmClient.Json
