/-
Module: ElmClient.Elm.Shape
Purpose: What types, decoders and encoders have in common: which record, list, union or scalar a
  value is, without regard to how declarations spread it over aliases and fragments.
Main exports: Shape, Decoder.shape, Encoder.shape, Module.shape
-/
import ElmClient.Dictionary
import ElmClient.Elm.Module
import ElmClient.Text.Case

namespace ElmClient.Elm

/-- The shape of a value. Fields and variants are sorted by name; a variant without any field
carries nothing and is left out. A named shape is that of a declaration that is not expanded. -/
inductive Shape where
  | scalar (scalar : Scalar)
  | enum (name : String)
  | list (item : Shape)
  | optional (inner : Shape)
  | record (fields : List (String × Shape))
  | union (name : String) (variants : List (String × Shape))
  | named (name : String)
deriving BEq, Repr, Inhabited

namespace Shape

/-- Whether a shape is that of a record without fields. -/
def isEmptyRecord : Shape → Bool
  | .record [] => true
  | _ => false

/-- The shape of a record with the given fields. -/
def ofFields (fields : List (String × Shape)) : Shape := .record (Dictionary.sorted fields)

/-- The shape of a union with the given variants. -/
def ofVariants (name : String) (variants : List (String × Shape)) : Shape :=
  .union name (Dictionary.sorted (variants.filter fun entry => !entry.2.isEmptyRecord))

/-- The shape of a record in the open alias of a fragment: the fields of the fragment and then its
own. Where either is no record, the fragment adds nothing. -/
def extend (fragment : Option Shape) (base : Shape) : Shape :=
  match fragment, base with
  | some (.record fields), .record own => .record (Dictionary.extendSorted fields own)
  | _, base => base

end Shape

/-- The shapes of declared aliases and of declared fragments. -/
structure Resolution where
  aliasShape : String → Option Shape
  fragmentShape : String → Option Shape

mutual

/-- The shape of a type, given those of the names in it. -/
def TypeExpr.shapeIn (names : Resolution) : TypeExpr → Shape
  | .scalar s => .scalar s
  | .enum name => .enum name
  | .named name => (names.aliasShape name).getD (.named name)
  | .list item => .list (item.shapeIn names)
  | .optional inner => .optional (inner.shapeIn names)
  | .record fields _ => Shape.ofFields (TypeExpr.shapesIn names fields)
  | .union name arguments => Shape.ofVariants name (TypeExpr.shapesIn names arguments)
  | .extend fragment base =>
      Shape.extend (names.fragmentShape (Text.capitalize fragment)) (base.shapeIn names)
  | .app constructor _ => .named constructor
termination_by structural type => type

/-- The shapes of named types. -/
def TypeExpr.shapesIn (names : Resolution) : List (String × TypeExpr) → List (String × Shape)
  | [] => []
  | (name, type) :: rest => (name, type.shapeIn names) :: TypeExpr.shapesIn names rest
termination_by structural types => types

end

mutual

/-- The shape of what a decoder makes. Where it reads the value from does not matter. -/
def Decoder.shape : Decoder → Shape
  | .scalar s => .scalar s
  | .enum name => .enum name
  | .field _ decoder => decoder.shape
  | .optional inner => .optional inner.shape
  | .list item => .list item.shape
  | .record r => Decoder.recordShape r
  | .union name cases => Shape.ofVariants name (Decoder.caseShapes cases)
termination_by structural decoder => decoder

/-- The shape of what a record decoder makes. -/
def Decoder.recordShape : RecordDecoder → Shape
  | ⟨_, fields⟩ => Shape.ofFields (Decoder.fieldShapes fields)
termination_by structural r => r

/-- The shapes of the cases of a union. -/
def Decoder.caseShapes : List (String × RecordDecoder) → List (String × Shape)
  | [] => []
  | (tag, r) :: rest => (tag, Decoder.recordShape r) :: Decoder.caseShapes rest
termination_by structural cases => cases

/-- The shapes of the fields of a record. -/
def Decoder.fieldShapes : List (String × Decoder) → List (String × Shape)
  | [] => []
  | (name, decoder) :: rest => (name, decoder.shape) :: Decoder.fieldShapes rest
termination_by structural fields => fields

end

mutual

/-- The shape of what an encoder takes. -/
def Encoder.shape : Encoder → Shape
  | .scalar s => .scalar s
  | .enum name => .enum name
  | .object fields => Shape.ofFields (Encoder.fieldShapes fields)
  | .list item => .list item.shape
  | .optional inner => .optional inner.shape
  | .named input => .named (Text.capitalize input)
termination_by structural encoder => encoder

/-- The shapes of the fields of an object. -/
def Encoder.fieldShapes : List (EncodedField Encoder) → List (String × Shape)
  | [] => []
  | ⟨name, _, encoder⟩ :: rest => (name, encoder.shape) :: Encoder.fieldShapes rest
termination_by structural fields => fields

end

namespace Module

/-- The shapes of the declarations of a module, in which names are followed no deeper than the
count says. -/
def resolution (m : Module) : Nat → Resolution
  | 0 => ⟨fun _ => none, fun _ => none⟩
  | depth + 1 =>
      { aliasShape := fun name => (m.aliasType name).map (·.shapeIn (m.resolution depth))
        fragmentShape := fun name =>
          (m.fragment name).map (·.type.shapeIn (m.resolution depth)) }

/-- The shape of a type in a module. Names that do not lead back to themselves lead through every
declaration at most once. -/
def shape (m : Module) (type : TypeExpr) : Shape :=
  type.shapeIn (m.resolution m.declarations.length)

end Module

end ElmClient.Elm
