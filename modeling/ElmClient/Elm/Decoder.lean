/-
Module: ElmClient.Elm.Decoder
Purpose: Decoders as trees, which the generated code spells out and which can be run.
Main exports: Elm.Constructor, Elm.RecordOf, Elm.Decoder
-/
import ElmClient.Elm.Type

namespace ElmClient.Elm

/-- What a record decoder makes of the decoded fields: a value of an alias, whose constructor takes
them in order, a record written out, or a record inside a constructor of a union. -/
inductive Constructor where
  | recordAlias (name : String)
  | anonymous
  | tagged (name : String)
deriving DecidableEq, Repr, Inhabited

/-- A record decoder over decoders for its fields. -/
structure RecordOf (δ : Type) where
  constructor : Constructor
  fields : List (String × δ)
deriving BEq, Repr, Inhabited

/-- A decoder. A field decoder reads one key of an object. An optional decoder takes every failure
for nothing. A union decoder chooses the record decoder by the name of the type. -/
inductive Decoder where
  | scalar (scalar : Scalar)
  | enum (name : String)
  | field (wire : String) (decoder : Decoder)
  | optional (inner : Decoder)
  | list (item : Decoder)
  | record (record : RecordOf Decoder)
  | union (name : String) (cases : List (String × RecordOf Decoder))
deriving BEq, Repr, Inhabited

/-- A decoder of a record. -/
abbrev RecordDecoder := RecordOf Decoder

/-- The key of an object that holds the name of its type. -/
def typenameKey : String := "__typename"

namespace Decoder

/-- Puts layers around a decoder. -/
def wrap (layers : List Layer) (inner : Decoder) : Decoder :=
  Layer.wrap .optional .list layers inner

end Decoder

end ElmClient.Elm
