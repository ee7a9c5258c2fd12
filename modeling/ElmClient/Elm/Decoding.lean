/-
Module: ElmClient.Elm.Decoding
Purpose: Running the decoders of a module on JSON values.
Main exports: Expectation, DecodeError, Number.toInt64?, Decoder.run, Module.decodeResponse
-/
import ElmClient.Elm.Module
import ElmClient.Elm.Value
import ElmClient.Json.Basic

namespace ElmClient

/-- The first number above the integers of 64 bits, a power of two. -/
def Number.signedLimit : Int := 0x8000000000000000

/-- The integer of 64 bits that a number is, however it is written. A double is one only strictly
inside the range. -/
def Number.toInt64? : Number → Option Int
  | .integer n => if -signedLimit ≤ n && n < signedLimit then some n else none
  | .float x => x.toInt?.filter fun n => -signedLimit < n && n < signedLimit

namespace Elm

/-- What a decoder expects to find. -/
inductive Expectation where
  | int
  | float
  | bool
  | string
  | object
  | list
deriving DecidableEq, Repr, Inhabited

/-- The words for what is expected. -/
def Expectation.text : Expectation → String
  | .int => "an INT"
  | .float => "a FLOAT"
  | .bool => "a BOOL"
  | .string => "a STRING"
  | .object => "an OBJECT"
  | .list => "a LIST"

/-- Why a value is not decoded, below the fields and indices that lead there. -/
inductive DecodeError where
  | expected (expectation : Expectation) (found : Json)
  | missingField (name : String)
  | unknownEnumValue (enum value : String)
  | unexpectedUnionType (tag : String)
  | unknownDecoder (name : String)
  | inField (name : String) (cause : DecodeError)
  | atIndex (index : Nat) (cause : DecodeError)
deriving BEq, Repr, Inhabited

namespace DecodeError

/-- What is said where a value is not decoded. -/
def message : DecodeError → String
  | .expected expectation found =>
      "Expecting " ++ expectation.text ++ " but found " ++ found.text
  | .missingField name => "Expecting an object with a field named `" ++ name ++ "`"
  | .unknownEnumValue enum value => "Unknown " ++ enum ++ ": " ++ value
  | .unexpectedUnionType tag => "Unexpected union type: " ++ tag
  | .unknownDecoder name => "no decoder named '" ++ name ++ "'"
  | .inField name cause => "at field `" ++ name ++ "`: " ++ cause.message
  | .atIndex index cause => "at index " ++ toString index ++ ": " ++ cause.message

end DecodeError

/-- The result of a decoder. -/
abbrev Decoded (α : Type) := Except DecodeError α

/-- The first and last second of the times that can be represented. -/
def posixSeconds : Int × Int := (-8334601228800, 8210266876799)

/-- Decodes a scalar. A time comes in seconds. -/
def Scalar.decode (scalar : Scalar) (value : Json) : Decoded Value :=
  let found? : Option Value :=
    match scalar, value with
    | .int, .number n => n.toInt64?.map .int
    | .float, .number n => some (.float n.toBinary64)
    | .bool, .bool b => some (.bool b)
    | .string, .string s => some (.string s)
    | .posix, .number n =>
        let seconds? := n.toInt64?.filter fun seconds =>
          posixSeconds.1 ≤ seconds && seconds ≤ posixSeconds.2
        seconds?.map fun seconds => .posix (seconds * 1000)
    | _, _ => none
  let expectation : Expectation :=
    match scalar with
    | .int | .posix => .int
    | .float => .float
    | .bool => .bool
    | .string => .string
  match found? with
  | some decoded => .ok decoded
  | none => .error (.expected expectation value)

/-- Decodes a value of an enumeration of a module. -/
def decodeEnum (m : Module) (enum : String) : Json → Decoded Value
  | .string wire =>
      match (m.enum enum).bind fun enum => enum.cases.find? (·.wire == wire) with
      | some enumCase => .ok (.tag enumCase.constructor)
      | none => .error (.unknownEnumValue enum wire)
  | value => .error (.expected .string value)

/-- Decodes what an object holds under a key. -/
def decodeField {α : Type} (wire : String) (decode : Json → Decoded α) : Json → Decoded α
  | .object entries =>
      match entries.lookup wire with
      | some value => (decode value).mapError (.inField wire)
      | none => .error (.missingField wire)
  | value => .error (.expected .object value)

/-- Decodes items from an index on. -/
def decodeItems {α : Type} (decode : Json → Decoded α) : Nat → List Json → Decoded (List α)
  | _, [] => .ok []
  | index, item :: rest => do
      let first ← (decode item).mapError (.atIndex index)
      let others ← decodeItems decode (index + 1) rest
      pure (first :: others)

/-- Decodes the items of an array. -/
def decodeList {α : Type} (decode : Json → Decoded α) : Json → Decoded (List α)
  | .array items => decodeItems decode 0 items
  | value => .error (.expected .list value)

/-- The name of its type that an object holds. -/
def decodeTypename : Json → Decoded String :=
  decodeField typenameKey fun value =>
    match value with
    | .string tag => .ok tag
    | _ => .error (.expected .string value)

/-- What a constructor makes of the decoded fields. -/
def Constructor.apply (constructor : Constructor) (fields : List (String × Value)) : Value :=
  match constructor with
  | .recordAlias _ | .anonymous => .ofFields fields
  | .tagged name => .variant name (.ofFields fields)

mutual

/-- Runs a decoder on a value. An optional decoder takes any failure for nothing. -/
def Decoder.run (m : Module) : Decoder → Json → Decoded Value
  | .scalar s, value => s.decode value
  | .enum name, value => decodeEnum m name value
  | .field wire decoder, value => decodeField wire (fun inner => decoder.run m inner) value
  | .optional inner, value =>
      match inner.run m value with
      | .ok decoded => .ok (.just decoded)
      | .error _ => .ok .nothing
  | .list item, value => Value.list <$> decodeList (fun inner => item.run m inner) value
  | .record r, value => Decoder.runRecord m r value
  | .union _ cases, value => do
      let tag ← decodeTypename value
      Decoder.runCases m tag cases value
termination_by structural decoder => decoder

/-- Runs a record decoder on a value, all of whose fields read the same value. -/
def Decoder.runRecord (m : Module) : RecordDecoder → Json → Decoded Value
  | ⟨constructor, fields⟩, value => do
      let decoded ← Decoder.runFields m fields value
      pure (constructor.apply decoded)
termination_by structural r => r

/-- Runs the decoders of fields in order. -/
def Decoder.runFields (m : Module) :
    List (String × Decoder) → Json → Decoded (List (String × Value))
  | [], _ => .ok []
  | (name, decoder) :: rest, value => do
      let first ← decoder.run m value
      let others ← Decoder.runFields m rest value
      pure ((name, first) :: others)
termination_by structural fields => fields

/-- Runs the first case of a tag. -/
def Decoder.runCases (m : Module) (tag : String) :
    List (String × RecordDecoder) → Json → Decoded Value
  | [], _ => .error (.unexpectedUnionType tag)
  | (name, r) :: rest, value =>
      if name == tag then Decoder.runRecord m r value else Decoder.runCases m tag rest value
termination_by structural cases => cases

end

/-- Decodes the data of a response to an operation. -/
def Module.decodeResponse (m : Module) (operation : String) (data : Json) : Decoded Value :=
  match (m.request operation).bind fun request => m.decoder request.decoderName with
  | some decoder => decoder.run m data
  | none => .error (.unknownDecoder operation)

end Elm

end ElmClient
