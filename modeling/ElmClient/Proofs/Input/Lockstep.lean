/-
Module: ElmClient.Proofs.Input.Lockstep
Purpose: One sequence of references, visited by both searches for input types. After every visit
  they have cut at the same names in the same order and have written out the same types. What they
  give for a reference from which no field leads to a union has one shape, whatever was visited
  before.
Main exports: InputTypes.after, InputEncoders.after, Aligned.after, inputs_lockstep
-/
import ElmClient.Proofs.Input.Agreement
import Mathlib.Data.List.Induction

namespace ElmClient

open GraphQL Elm

/-- What the search for types remembers after it has visited references one after another. -/
def InputTypes.after (schema : Schema) (refs : List TypeRef) : InputTypes :=
  refs.foldl (fun types ref => (types.typeOf schema ref).2) {}

/-- What the search for encoders remembers after it has visited references one after another. -/
def InputEncoders.after (schema : Schema) (refs : List TypeRef) : InputEncoders :=
  refs.foldl (fun encoders ref => (encoders.encoderOf schema ref).2) {}

/-- One more visit. -/
theorem InputTypes.after_concat (schema : Schema) (refs : List TypeRef) (ref : TypeRef) :
    after schema (refs ++ [ref]) = ((after schema refs).typeOf schema ref).2 := by
  simp [after]

theorem InputEncoders.after_concat (schema : Schema) (refs : List TypeRef) (ref : TypeRef) :
    after schema (refs ++ [ref]) = ((after schema refs).encoderOf schema ref).2 := by
  simp [after]

/-- Both searches are in step after every visit. -/
theorem Aligned.after (schema : Schema) (refs : List TypeRef) :
    Aligned schema [] (InputTypes.after schema refs) (InputEncoders.after schema refs) := by
  induction refs using List.reverseRecOn with
  | nil => exact .empty schema
  | append_singleton refs ref ih =>
      rw [InputTypes.after_concat, InputEncoders.after_concat]
      exact (ih.ofType ref).aligned

/-- What both searches give for a reference to a type without unions has one shape where no name is
declared. -/
theorem Aligned.shape_eq {schema : Schema} {types : InputTypes} {encoders : InputEncoders}
    (aligned : Aligned schema [] types encoders) {ref : TypeRef} (free : schema.UnionFree ref.name)
    {names : Resolution} (undeclared : ∀ name, names.aliasShape name = none) :
    (types.typeOf schema ref).1.shapeIn names = (encoders.encoderOf schema ref).1.shape := by
  have bare := (aligned.ofType ref).form.shape_eq (fun input _ => undeclared _) free
  rw [InputTypes.typeOf, InputEncoders.encoderOf, TypeExpr.shapeIn_wrap, Encoder.shape_wrap, bare]

/-- Two searches that are led through the same references stay in step: after every visit they have
cut at the same names, in the same order, and each has written out a type if and only if the other
has. The type and the encoder of the next reference have one shape, unless its fields lead to a
union. -/
theorem inputs_lockstep (schema : Schema) (refs : List TypeRef) :
    (InputEncoders.after schema refs).cycles = (InputTypes.after schema refs).cycles ∧
    (∀ name, ((InputEncoders.after schema refs).object? name).isSome =
      ((InputTypes.after schema refs).record? name).isSome) ∧
    ∀ ref, schema.UnionFree ref.name → ∀ m : Module, m.declarations = [] →
      ((InputEncoders.after schema refs).encoderOf schema ref).1.shape =
        m.shape ((InputTypes.after schema refs).typeOf schema ref).1 := by
  have aligned := Aligned.after schema refs
  refine ⟨aligned.cycles, fun name => ?_, fun ref free m bare => ?_⟩
  · rcases aligned.remembered name with ⟨fresh, fresh'⟩ | ⟨record, object, kept, kept', _⟩
    · rw [fresh, fresh']
      rfl
    · rw [kept, kept']
      rfl
  · rw [Module.shape, bare]
    exact (aligned.shape_eq free fun _ => rfl).symm

/-- A schema in which a person and a group contain each other, and a search contains itself. It
looks for one of the two and is made by a person. -/
def clubSchema : Schema where
  types := [("String", .scalar), ("Mood", .enum ["CALM", "LOUD"]),
    ("Hit", .union ["Person", "Group"]),
    ("Group", .inputObject [("owner", .named "Person"), ("mood", .named "Mood")]),
    ("Person", .inputObject [("groups", .list (.named "Group")), ("name", .named "String")]),
    ("Search", .inputObject [("within", .named "Search"), ("hit", .named "Hit"),
      ("by", .named "Person")])]
  roots := {}

/-- A person is first met in a search, and cut inside the group. What is then given for groups has
one shape. -/
theorem club_lockstep :
    (InputEncoders.after clubSchema [.named "Search"]).cycles = ["Search", "Person"] ∧
      ((InputEncoders.after clubSchema [.named "Search"]).object? "Group").isSome = true ∧
      ((InputEncoders.after clubSchema [.named "Search"]).encoderOf clubSchema
          (.list (.named "Group"))).1.shape =
        (⟨"Club", [], [], []⟩ : Module).shape
          ((InputTypes.after clubSchema [.named "Search"]).typeOf clubSchema
            (.list (.named "Group"))).1 := by
  obtain ⟨cycles, written, shapes⟩ := inputs_lockstep clubSchema [.named "Search"]
  have free : ∀ name ∈ ["Group", "Person", "Mood", "String"], clubSchema.UnionFree name :=
    fun _ member => .of_closed (by decide) member
  exact ⟨cycles.trans rfl, (written "Group").trans rfl,
    shapes (.list (.named "Group")) (free "Group" List.mem_cons_self) _ rfl⟩

end ElmClient
