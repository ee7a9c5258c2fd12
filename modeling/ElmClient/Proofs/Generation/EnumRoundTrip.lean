/-
Module: ElmClient.Proofs.Generation.EnumRoundTrip
Purpose: Values of an enumeration on their way from JSON to Elm and back. Constructors do not tell
  upper from lower case, so a value comes back as the first one of its enumeration that is the same
  but for case.
Main exports: Name.enumConstructor_eq_iff, Module.run_enum, Module.encode_tag,
  generate_enum_roundTrip
-/
import Mathlib.Data.List.TakeWhile
import ElmClient.Proofs.Generation.References

namespace ElmClient

open GraphQL Elm
open Text (capitalize lowercase)

/-- Two values of an enumeration have one constructor if they are the same but for case. -/
theorem Name.enumConstructor_eq_iff {enum first second : String} :
    Name.enumConstructor enum first = Name.enumConstructor enum second ↔
      capitalize (lowercase first) = capitalize (lowercase second) := by
  simp only [Name.enumConstructor]
  exact ⟨fun same => String.append_right_inj _ |>.mp same, congrArg _⟩

namespace Elm.Module

variable {m : Module} {name : String} {values : List String}

/-- A declared enumeration has a constructor for each of its values. -/
theorem run_enum (found : m.enum name = some (.ofValues name values)) {wire : String}
    (member : wire ∈ values) :
    (Decoder.enum name).run m (.string wire) = .ok (.tag (Name.enumConstructor name wire)) := by
  have first : values.find? (· == wire) = some wire := by
    rw [Dictionary.find?_eq_some_self_iff (p := (· == wire)) member (beq_self_eq_true wire)]
    exact fun earlier before => by simpa using List.mem_takeWhile_imp (p := (· != wire)) before
  have chosen : (EnumDeclaration.ofValues name values).cases.find? (·.wire == wire) =
      some ⟨wire, Name.enumConstructor name wire⟩ := by
    rw [EnumDeclaration.ofValues, List.find?_map]
    exact congrArg (Option.map _) first
  simp only [Decoder.run, decodeEnum, found, Option.bind_some, chosen]

/-- A constructor stands for the first value that has it, which is the same as any other but for
case. -/
theorem encode_tag (found : m.enum name = some (.ofValues name values)) {wire : String}
    (member : wire ∈ values) :
    ∃ first ∈ values, capitalize (lowercase first) = capitalize (lowercase wire) ∧
      (Value.tag (Name.enumConstructor name wire)).encode m (.enum name) = .ok (.string first) ∧
      (first = wire ↔ ∀ earlier ∈ values.takeWhile (· != wire),
        capitalize (lowercase earlier) ≠ capitalize (lowercase wire)) := by
  have passes := beq_self_eq_true (Name.enumConstructor name wire)
  obtain ⟨first, stops⟩ : ∃ first, values.find?
      (Name.enumConstructor name · == Name.enumConstructor name wire) = some first :=
    Option.isSome_iff_exists.mp (List.find?_isSome.mpr ⟨wire, member, passes⟩)
  have same : Name.enumConstructor name first = Name.enumConstructor name wire := by
    simpa using List.find?_some stops
  have chosen : (EnumDeclaration.ofValues name values).cases.find?
      (·.constructor == Name.enumConstructor name wire) =
        some ⟨first, Name.enumConstructor name first⟩ := by
    rw [EnumDeclaration.ofValues, List.find?_map]
    exact congrArg (Option.map _) stops
  refine ⟨first, List.mem_of_find?_eq_some stops, Name.enumConstructor_eq_iff.mp same, ?_, ?_⟩
  · simp only [Value.encode, encodeTag, found, Option.bind_some, chosen]
  · have self := Dictionary.find?_eq_some_self_iff
      (p := (Name.enumConstructor name · == Name.enumConstructor name wire)) member passes
    rw [stops, Option.some_inj] at self
    rw [self]
    refine forall₂_congr fun earlier _ => ?_
    rw [beq_eq_false_iff_ne, Ne, Name.enumConstructor_eq_iff]

end Elm.Module

/-- Every value of an enumeration that a module declares is decoded as its constructor. The
constructor is encoded as the first value that is the same but for case, so a value comes back
exactly if none before it is the same but for case. -/
theorem generate_enum_roundTrip {schema : Schema} {document : Document}
    {options : GenerationOptions} {m : Module}
    (generated : generate schema document options = .ok m) {enum : EnumDeclaration}
    (declared : enum ∈ m.enums) :
    ∃ values, schema.get? enum.name = some (.enum values) ∧ ∀ wire ∈ values,
      ∃ tag, (Decoder.enum enum.name).run m (.string wire) = .ok (.tag tag) ∧
        (∃ first ∈ values, capitalize (lowercase first) = capitalize (lowercase wire) ∧
          (Value.tag tag).encode m (.enum enum.name) = .ok (.string first)) ∧
        ((Value.tag tag).encode m (.enum enum.name) = .ok (.string wire) ↔
          ∀ earlier ∈ values.takeWhile (· != wire),
            capitalize (lowercase earlier) ≠ capitalize (lowercase wire)) := by
  obtain ⟨bound, inventory, plans, clients, shared, bind_ok, assembles⟩ :=
    generate_assembles generated
  obtain ⟨rfl, _, _⟩ := BoundDocument.bind_eq_ok bind_ok
  have enumsOf := (BoundDocument.inventory_sound assembles.collected).enumsOf
  have known : enum ∈ inventory.enums := assembles.declares.enums ▸ declared
  obtain ⟨values, body, same⟩ := enumsOf.ofSchema enum known
  have found : m.enum enum.name = some (.ofValues enum.name values) := by
    rw [← same]
    exact Module.enum_of_mem (assembles.declares.enums ▸ enumsOf.nodup) declared
  refine ⟨values, body, fun wire member => ⟨_, Module.run_enum found member, ?_⟩⟩
  obtain ⟨first, among, alike, encoded, self⟩ := Module.encode_tag found member
  refine ⟨⟨first, among, alike, encoded⟩, ?_⟩
  rw [← self, encoded]
  exact ⟨fun sent => Json.string.inj (Except.ok.inj sent), fun back => back ▸ rfl⟩

/-! ### An enumeration with values that are the same but for case -/

/-- A schema with an enumeration that has a value twice but for case. -/
def paintSchema : Schema where
  types := [("Query", .object [("color", .named "Color")]),
    ("Color", .enum ["RED", "DARK_RED", "Red"])]
  roots := { query := some "Query" }

/-- A document about the schema. -/
def paintText : String := "query Paint($old: Color) { color(old: $old) }"

theorem exists_paintModule : ∃ document m, Document.parse paintText = .ok document ∧
    generate paintSchema document zooOptions = .ok m ∧ ∃ enum ∈ m.enums, enum.name = "Color" := by
  have evaluated : (Document.parse paintText).toOption.any (fun document =>
      (generate paintSchema document zooOptions).toOption.any fun m =>
        m.enums.any (·.name == "Color")) = true := by decide +kernel
  obtain ⟨document, parsed, evaluated⟩ := Except.any_toOption.mp evaluated
  obtain ⟨m, generated, evaluated⟩ := Except.any_toOption.mp evaluated
  simp only [List.any_eq_true, beq_iff_eq] at evaluated
  exact ⟨document, m, parsed, generated, evaluated⟩

/-- One of the values comes back, and one comes back as another. -/
theorem paint_enum_roundTrip : ∃ document m, generate paintSchema document zooOptions = .ok m ∧
    (∃ tag, (Decoder.enum "Color").run m (.string "DARK_RED") = .ok (.tag tag) ∧
      (Value.tag tag).encode m (.enum "Color") = .ok (.string "DARK_RED")) ∧
    ∃ tag, (Decoder.enum "Color").run m (.string "Red") = .ok (.tag tag) ∧
      (Value.tag tag).encode m (.enum "Color") ≠ .ok (.string "Red") := by
  obtain ⟨document, m, _, generated, enum, declared, named⟩ := exists_paintModule
  obtain ⟨values, body, each⟩ := generate_enum_roundTrip generated declared
  rw [named] at body each
  obtain rfl : ["RED", "DARK_RED", "Red"] = values := by
    have known : paintSchema.get? "Color" = some (.enum ["RED", "DARK_RED", "Red"]) := by decide
    exact TypeBody.enum.inj (Option.some.inj (known.symm.trans body))
  obtain ⟨dark, decodedDark, _, darkBack⟩ := each "DARK_RED" (by decide)
  obtain ⟨red, decodedRed, _, redBack⟩ := each "Red" (by decide)
  exact ⟨document, m, generated, ⟨dark, decodedDark, darkBack.mpr (by decide +kernel)⟩,
    red, decodedRed, fun sent => redBack.mp sent "RED" (by decide) (by decide +kernel)⟩

end ElmClient
