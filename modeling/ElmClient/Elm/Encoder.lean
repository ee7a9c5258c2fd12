/-
Module: ElmClient.Elm.Encoder
Purpose: Encoders as trees, which the generated code spells out and which can be run.
Main exports: Elm.EncodedField, Elm.Encoder, Elm.Parameter
-/
import ElmClient.Elm.Type

namespace ElmClient.Elm

/-- A field of a record and the key under which an object holds it. -/
structure EncodedField (ε : Type) where
  name : String
  wire : String
  encoder : ε
deriving BEq, Repr, Inhabited

/-- An encoder. A named encoder is the one declared for a recursive input type, which it takes out
of its constructor. -/
inductive Encoder where
  | scalar (scalar : Scalar)
  | enum (name : String)
  | object (fields : List (EncodedField Encoder))
  | list (item : Encoder)
  | optional (inner : Encoder)
  | named (input : String)
deriving BEq, Repr, Inhabited

namespace Encoder

/-- Puts layers around an encoder. -/
def wrap (layers : List Layer) (inner : Encoder) : Encoder :=
  Layer.wrap .optional .list layers inner

end Encoder

/-- A variable of an operation as a field of the parameters. A nullable variable with a default
value is written out case by case where the request is made. -/
structure Parameter extends EncodedField Encoder where
  defaulted : Bool
deriving BEq, Repr, Inhabited

end ElmClient.Elm
