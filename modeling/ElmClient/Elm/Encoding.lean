/-
Module: ElmClient.Elm.Encoding
Purpose: Running the encoders of a module on Elm values.
Main exports: EncodeError, Value.encode, Module.encodeVariables
-/
import ElmClient.Elm.Module
import ElmClient.Elm.Value
import ElmClient.Json.Basic
import ElmClient.Text.Case

namespace ElmClient.Elm

/-- Why a value is not encoded. -/
inductive EncodeError where
  | mismatch (encoder : Encoder) (found : Value)
  | missingField (name : String)
  | unknownEncoder (input : String)
  | unknownOperation (name : String)
deriving BEq, Repr, Inhabited

/-- What an encoder takes. -/
def Encoder.expectation : Encoder → String
  | .scalar s => s.name
  | .enum _ => "an enum constructor"
  | .object _ => "a record"
  | .list _ => "List"
  | .optional _ => "Maybe"
  | .named _ => "a recursive input wrapper"

/-- What is said where a value is not encoded. -/
def EncodeError.message : EncodeError → String
  | .mismatch (.named input) found =>
      "cannot encode " ++ found.kind ++ " for " ++ input ++ " as " ++
        (Encoder.named input).expectation
  | .mismatch encoder found => "cannot encode " ++ found.kind ++ " as " ++ encoder.expectation
  | .missingField name => "record is missing field `" ++ name ++ "`"
  | .unknownEncoder input => "no encoder named '" ++ input ++ "'"
  | .unknownOperation name => "no operation named '" ++ name ++ "'"

/-- The result of an encoder. -/
abbrev Encoded (α : Type) := Except EncodeError α

/-- Encodes a constructor of an enumeration of a module. One that is not known becomes an empty
string. -/
def encodeTag (m : Module) (enum constructor : String) : Json :=
  match (m.enum enum).bind fun enum => enum.cases.find? (·.constructor == constructor) with
  | some enumCase => .string enumCase.wire
  | none => .string ""

/-- Encodes fields of a record, given how each of its fields is encoded. -/
def encodeFields (fields : List (EncodedField Encoder))
    (encoders : List (String × (Encoder → Encoded Json))) : Encoded (List (String × Json)) :=
  fields.mapM fun field =>
    match encoders.lookup field.name with
    | some encode => do
        let value ← encode field.encoder
        pure (field.wire, value)
    | none => .error (.missingField field.name)

/-- An object. A key that is repeated stands in its first place with its last value. -/
def jsonObject (entries : List (String × Json)) : Json := .object (Dictionary.ofList entries)

mutual

/-- Runs an encoder on a value. -/
def Value.encode (m : Module) : Value → Encoder → Encoded Json
  | .int n, .scalar .int => .ok (.number (.integer n))
  | .float x, .scalar .float =>
      if x.isFinite then .ok (.number (.float x))
      else .error (.mismatch (.scalar .float) (.float x))
  | .bool b, .scalar .bool => .ok (.bool b)
  | .string s, .scalar .string => .ok (.string s)
  | .posix milliseconds, .scalar .posix => .ok (.number (.integer milliseconds))
  | .tag constructor, .enum name => .ok (encodeTag m name constructor)
  | .record entries, .object fields =>
      jsonObject <$> encodeFields fields (Value.fieldEncoders m entries)
  | .list items, .list item => Json.array <$> Value.encodeItems m items item
  | .nothing, .optional _ => .ok .null
  | .just inner, .optional encoder => inner.encode m encoder
  | .variant constructor payload, .named input =>
      if constructor == Text.capitalize input then
        match m.encoder input with
        | some encoder => payload.encode m encoder
        | none => .error (.unknownEncoder input)
      else .error (.mismatch (.named input) (.variant constructor payload))
  | value, encoder => .error (.mismatch encoder value)
termination_by structural value => value

/-- Encodes the items of a list. -/
def Value.encodeItems (m : Module) : List Value → Encoder → Encoded (List Json)
  | [], _ => .ok []
  | item :: rest, encoder => do
      let first ← item.encode m encoder
      let others ← Value.encodeItems m rest encoder
      pure (first :: others)
termination_by structural items => items

/-- How each field of a record is encoded. -/
def Value.fieldEncoders (m : Module) :
    List (String × Value) → List (String × (Encoder → Encoded Json))
  | [] => []
  | (name, value) :: rest =>
      (name, fun encoder => value.encode m encoder) :: Value.fieldEncoders m rest
termination_by structural entries => entries

end

/-- Encodes the value of one parameter. -/
def encodeParameter (m : Module) (parameters : Value) (parameter : Parameter) :
    Encoded (String × Json) :=
  match parameters.get? parameter.name with
  | some value => do
      let encoded ← value.encode m parameter.encoder
      pure (parameter.wire, encoded)
  | none => .error (.missingField parameter.name)

/-- Encodes the variables of an operation. -/
def Module.encodeVariables (m : Module) (operation : String) (parameters : Value) :
    Encoded Json :=
  match m.request operation with
  | some request => jsonObject <$> request.parameters.mapM (encodeParameter m parameters)
  | none => .error (.unknownOperation operation)

end ElmClient.Elm
