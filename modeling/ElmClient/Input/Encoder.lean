/-
Module: ElmClient.Input.Encoder
Purpose: The encoders of what a schema lets a client send. An encoder that would contain itself is
  cut where it comes again, and is then declared by the name of its type.
Main exports: InputEncoders, InputEncoders.encoderOf, InputEncoders.parameter
-/
import ElmClient.Elm.Encoder
import ElmClient.Name
import ElmClient.Schema.Basic

namespace ElmClient

open GraphQL Elm

/-- The object encoders that were written out so far, and the names at which an encoder was cut, in
the order in which that first happened. -/
structure InputEncoders where
  objects : List (String × Encoder) := []
  cycles : List String := []
deriving BEq, Repr, Inhabited

namespace InputEncoders

/-- The encoder of a type that was written out. -/
def object? (encoders : InputEncoders) (name : String) : Option Encoder :=
  encoders.objects.lookup name

/-- Notes that a type contains itself, once. -/
def addCycle (encoders : InputEncoders) (name : String) : InputEncoders :=
  if encoders.cycles.contains name then encoders
  else { encoders with cycles := encoders.cycles ++ [name] }

/-- Keeps the encoder of a type. -/
def keep (encoders : InputEncoders) (name : String) (object : Encoder) : InputEncoders :=
  { encoders with objects := encoders.objects ++ [(name, object)] }

/-- Finds the encoders of fields from left to right. -/
def encodeFields (encoderOf : TypeRef → InputEncoders → Encoder × InputEncoders) :
    List (String × TypeRef) → InputEncoders → List (EncodedField Encoder) × InputEncoders
  | [], encoders => ([], encoders)
  | (name, type) :: rest, encoders =>
      let (encoder, encoders) := encoderOf type encoders
      let (others, encoders) := encodeFields encoderOf rest encoders
      (⟨Name.safe name, name, encoder⟩ :: others, encoders)

/-- The encoder of a name without layers. `path` holds the types whose encoders are being written
out, and the depth exceeds the number of types that can still follow. Unions have no encoder of
their own and are taken for scalars. -/
def encoderOfName (schema : Schema) :
    (depth : Nat) → (path : List String) → String → InputEncoders → Encoder × InputEncoders
  | 0, _, name, encoders => (.named name, encoders)
  | depth + 1, path, name, encoders =>
      match schema.get? name with
      | none | some .scalar | some (.union _) => (.scalar (Scalar.ofName name), encoders)
      | some (.enum _) => (.enum name, encoders)
      | some (.object fields) | some (.interface fields) | some (.inputObject fields) =>
          match encoders.object? name with
          | some object => (object, encoders)
          | none =>
              if path.contains name then (.named name, encoders.addCycle name)
              else
                let fieldEncoder (type : TypeRef) (encoders : InputEncoders) :
                    Encoder × InputEncoders :=
                  let (inner, encoders) :=
                    encoderOfName schema depth (name :: path) type.name encoders
                  (Encoder.wrap type.layers inner, encoders)
                let (encoded, encoders) := encodeFields fieldEncoder fields encoders
                let object := Encoder.object encoded
                (object, encoders.keep name object)

/-- The encoder of a reference. -/
def encoderOf (schema : Schema) (type : TypeRef) (encoders : InputEncoders) :
    Encoder × InputEncoders :=
  let (inner, encoders) := encoderOfName schema (schema.types.length + 1) [] type.name encoders
  (Encoder.wrap type.layers inner, encoders)

/-- The parameter for a variable. -/
def parameter (schema : Schema) (definition : VariableDefinition) (encoders : InputEncoders) :
    Parameter × InputEncoders :=
  let (encoder, encoders) := encoderOf schema definition.type encoders
  ({ name := Name.safe definition.name
     wire := definition.name
     encoder := encoder
     defaulted := definition.default.isSome && !definition.type.isNonNull }, encoders)

end InputEncoders

end ElmClient
