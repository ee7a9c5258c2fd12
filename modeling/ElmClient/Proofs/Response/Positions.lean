/-
Module: ElmClient.Proofs.Response.Positions
Purpose: Where a decoder uses the constructor of a record alias, which takes its arguments by position,
  the fields of the declared record and those of the decoder are the same in the same order, so
  every decoded value lands in its own field.
Main exports: RecordPlan.type_of_no_spreads, Decoder.runFields_eq_mapM, TypeExpr.construct,
  RecordPlan.InStep, generate_recordAlias
-/
import ElmClient.Elm.DecoderCode
import ElmClient.Proofs.Generation.Declarations
import ElmClient.Proofs.Response.Shape

namespace ElmClient

open GraphQL Elm

/-! ### Plans without fragments -/

/-- Where no fragment is spread, every field is one of the selection set itself. -/
theorem RecordPlanOf.MergedFrom.isOwn_of_no_spreads {κ : Type}
    {sources : List (String × RecordPlanOf κ)} {plan : RecordPlanOf κ}
    (merged : RecordPlanOf.MergedFrom sources plan) (noSpreads : plan.spreads = [])
    {field : PlannedField κ} (member : field ∈ plan.fields) : field.isOwn = true := by
  by_contra spread
  obtain ⟨source, given, _⟩ := merged.exists_source member (Bool.eq_false_iff.mpr spread)
  have named : source.1 ∈ plan.spreads := merged.spreads ▸ List.mem_map_of_mem given
  rw [noSpreads] at named
  exact List.not_mem_nil named

/-- The type of a plan without fragments is a closed record of all fields of the plan. -/
theorem RecordPlan.type_of_no_spreads {plan : RecordPlan} (noSpreads : plan.spreads = [])
    (own : ∀ field ∈ plan.fields, field.isOwn = true) :
    RecordPlan.type none plan =
      .closed (plan.fields.map fun field => (field.name, FieldPlan.type field)) := by
  obtain ⟨fields, spreads⟩ := plan
  obtain rfl : spreads = [] := noSpreads
  rw [RecordPlan.type, FieldPlan.ownTypes_eq, List.filter_eq_self.mpr own]
  rfl

/-! ### Constructors that take their arguments by position -/

namespace Elm

/-- What the constructor of a record alias makes of arguments, which it takes in the order in which
the type has its fields. -/
def TypeExpr.construct : TypeExpr → List Value → Value
  | .record fields none, arguments => .record ((fields.map Prod.fst).zip arguments)
  | _, _ => .record []

/-- Fields are decoded one after another, each on its own; the names come to them afterwards. -/
theorem Decoder.runFields_eq_mapM (m : Module) (fields : List (String × Decoder)) (data : Json) :
    Decoder.runFields m fields data =
      (fields.map Prod.fst).zip <$> fields.mapM fun field => field.2.run m data := by
  induction fields with
  | nil => rfl
  | cons field rest ih =>
      obtain ⟨name, decoder⟩ := field
      rw [Decoder.runFields, ih, List.mapM_cons]
      cases decoder.run m data with
      | error cause => rfl
      | ok first => cases rest.mapM (fun field => field.2.run m data) <;> rfl

/-- The body of a declared decoder with the constructor of an alias: the constructor and then the
decoders of its arguments, in order. -/
theorem Decoder.text_topCode_recordAlias (name : String) (first : String × Decoder)
    (rest : List (String × Decoder)) :
    (Decoder.record ⟨.recordAlias name, first :: rest⟩).topCode.text =
      "map " ++ name ++ "\n        " ++ (first.2.code 8).text ++
        String.join (rest.map fun field => "\n        |> apply " ++ (field.2.code 8).text) := by
  have line (field : String × Decoder) :
      (newLine 8 ++ (Code.plain "|> apply " ++ field.2.code 8)).text =
        "\n        |> apply " ++ (field.2.code 8).text := by
    rw [Code.text_append, Code.text_append, ← String.append_assoc]
    rfl
  simp only [Decoder.topCode, Code.text_append, Code.text_concat, List.map_map, Function.comp_def,
    indentStep, Nat.reduceMul, line, ← String.append_assoc]
  rfl

end Elm

/-! ### The two sides of a constructor -/

/-- The fields of a record type and of a decoder that go through a plan in step: each field of the plan
gives, in the same place, a field of the type and a decoder, and no name repeats. -/
structure RecordPlan.InStep (plan : RecordPlan) (types : List (String × TypeExpr))
    (decoders : List (String × Decoder)) : Prop where
  types_eq : types = plan.fields.map fun field => (field.name, FieldPlan.type field)
  decoders_eq : decoders = plan.fields.map fun field => (field.name, FieldPlan.decoder field)
  distinct : (plan.fields.map (·.name)).Nodup

namespace RecordPlan.InStep

variable {plan : RecordPlan} {types : List (String × TypeExpr)} {decoders : List (String × Decoder)}

theorem names_eq (inStep : plan.InStep types decoders) :
    types.map Prod.fst = decoders.map Prod.fst := by
  rw [inStep.types_eq, inStep.decoders_eq, List.map_map, List.map_map]
  rfl

theorem names_nodup (inStep : plan.InStep types decoders) : (decoders.map Prod.fst).Nodup := by
  rw [inStep.decoders_eq, List.map_map]
  exact inStep.distinct

/-- Taking the decoded values by position comes to the same as taking them by name. -/
theorem run_eq (inStep : plan.InStep types decoders) (m : Module) (name : String) (data : Json) :
    (Decoder.record ⟨.recordAlias name, decoders⟩).run m data =
      (TypeExpr.closed types).construct <$> decoders.mapM fun field => field.2.run m data := by
  rw [Decoder.run, Decoder.runRecord, Decoder.runFields_eq_mapM]
  cases ran : decoders.mapM fun field => field.2.run m data with
  | error cause => rfl
  | ok arguments =>
      have enough := (Except.mapM_eq_ok.mp ran).length_eq
      have names : ((decoders.map Prod.fst).zip arguments).map Prod.fst = decoders.map Prod.fst :=
        List.map_fst_zip (by simp [enough])
      have same := Dictionary.ofList_eq_self (names ▸ inStep.names_nodup)
      show Except.ok (Value.record (Dictionary.ofList ((decoders.map Prod.fst).zip arguments))) =
        .ok (.record ((types.map Prod.fst).zip arguments))
      rw [same, inStep.names_eq]

end RecordPlan.InStep

/-- The plan of an operation without fragments is what its type and its decoder go through in step. -/
theorem BoundDocument.inStep_of_no_spreads {bound : BoundDocument} {inventory : Inventory}
    (collected : bound.inventory = .ok inventory) {operation : Operation}
    (among : operation ∈ bound.operations) {plan : RecordPlan}
    (planned : bound.operationPlan operation = .ok plan) (noSpreads : plan.spreads = []) :
    ∃ types, RecordPlan.type none plan = .closed types ∧
      plan.InStep types (FieldPlan.decoders plan.fields) := by
  cases operationPlan_coherent collected among planned with
  | mk sources merged =>
      have own : ∀ field ∈ plan.fields, field.isOwn = true :=
        fun _ member => merged.isOwn_of_no_spreads noSpreads member
      exact ⟨_, RecordPlan.type_of_no_spreads noSpreads own, rfl, FieldPlan.decoders_eq _,
        merged.names_nodup⟩

/-- Where the decoder of an operation uses the constructor of an alias, the alias is that of its result
and a closed record. Its fields and those of the decoder have the same names in the same order and
come, position by position, from the same fields of the plan. So it does not matter that the
constructor takes what is decoded by position, as it does in the code of the decoder: each value
becomes the field for which it was decoded. -/
theorem generate_recordAlias {schema : Schema} {document : Document} {options : GenerationOptions}
    {m : Module} (generated : generate schema document options = .ok m) :
    ∃ bound inventory plans clients, BoundDocument.bind schema document = .ok bound ∧
      bound.Declares m inventory plans clients ∧
      List.Forall₂ (fun operation client => ∃ plan, bound.operationPlan operation = .ok plan ∧
        ∀ name decoders, client.decoder = .record ⟨.recordAlias name, decoders⟩ →
          name = client.resultType ∧ (name, client.result) ∈ m.typeAliases ∧
          ∃ types, client.result = .closed types ∧ types.length = decoders.length ∧
            types.map Prod.fst = decoders.map Prod.fst ∧ plan.InStep types decoders ∧
            (∀ first rest, decoders = first :: rest → client.decoder.topCode.text =
              "map " ++ name ++ "\n        " ++ (first.2.code 8).text ++
                String.join (rest.map fun field =>
                  "\n        |> apply " ++ (field.2.code 8).text)) ∧
            ∀ data, client.decoder.run m data =
              client.result.construct <$> decoders.mapM fun field => field.2.run m data)
        bound.operations clients := by
  obtain ⟨bound, inventory, plans, clients, bind_ok, declares⟩ := generate_declares generated
  refine ⟨bound, inventory, plans, clients, bind_ok, declares, ?_⟩
  have made : List.Forall₂ (fun operation client => client ∈ clients ∧
      bound.ClientOf operation client) bound.operations clients :=
    (Forall₂.imp_of_mem declares.made.flip fun _ member _ made => And.intro member made).flip
  refine Forall₂.imp_of_mem made fun operation among client ⟨member, made⟩ => ?_
  obtain ⟨plan, planned, typed, decoded⟩ := made.planned
  refine ⟨plan, planned, fun name decoders record => ?_⟩
  have noSpreads : plan.spreads = [] ∧ name = client.resultType ∧
      decoders = FieldPlan.decoders plan.fields := by
    rw [decoded, RecordPlan.responseDecoder, RecordPlan.decoder_eq, Decoder.record.injEq,
      RecordOf.mk.injEq] at record
    obtain ⟨constructor, rfl⟩ := record
    split at constructor
    · next none => exact ⟨List.isEmpty_iff.mp none, by simp_all [made.resultType], rfl⟩
    · exact nomatch constructor
  obtain ⟨noSpreads, rfl, rfl⟩ := noSpreads
  obtain ⟨types, closed, inStep⟩ :=
    BoundDocument.inStep_of_no_spreads declares.collected among planned noSpreads
  have declared : (client.resultType, client.result) ∈ m.typeAliases := by
    rw [declares.typeAliases]
    exact List.mem_flatMap.mpr ⟨client, member, List.mem_cons_self⟩
  rw [← typed] at closed
  refine ⟨rfl, declared, types, closed, ?_, inStep.names_eq, inStep, ?_, ?_⟩
  · simpa using congrArg List.length inStep.names_eq
  · intro first rest fields
    rw [record, fields]
    exact Decoder.text_topCode_recordAlias _ first rest
  · intro data
    rw [record, closed]
    exact inStep.run_eq m _ data

/-! ### Two fields of one type -/

/-- A schema of the two coordinates of a point. -/
def planeSchema : Schema where
  types := [("Query", .object [("x", .named "Int"), ("y", .named "Int")]), ("Int", .scalar)]
  roots := { query := some "Query" }

/-- A document that asks for both numbers in another order than the schema has them. -/
def planeText : String := "query Point \x7b y x \x7d"

/-- The fields of a decoder that uses the constructor of an alias. -/
def Elm.Decoder.aliasFields : Decoder → List String
  | .record ⟨.recordAlias _, fields⟩ => fieldNames fields
  | _ => []

theorem exists_planeModule : ∃ document m, Document.parse planeText = .ok document ∧
    generate planeSchema document heroOptions = .ok m ∧
      ∃ entry ∈ m.decoders, entry.2.aliasFields = ["y", "x"] := by
  have evaluated : (Document.parse planeText).toOption.any (fun document =>
      (generate planeSchema document heroOptions).toOption.any fun m =>
        m.decoders.any fun entry => entry.2.aliasFields == ["y", "x"]) = true := by decide +kernel
  obtain ⟨document, parsed, evaluated⟩ := Except.any_toOption.mp evaluated
  obtain ⟨m, generated, evaluated⟩ := Except.any_toOption.mp evaluated
  obtain ⟨entry, member, same⟩ := List.any_eq_true.mp evaluated
  exact ⟨document, m, parsed, generated, entry, member, beq_iff_eq.mp same⟩

/-- The alias has its fields in the order of the document, as the decoder has. -/
theorem plane_recordAlias : ∃ document m, Document.parse planeText = .ok document ∧
    generate planeSchema document heroOptions = .ok m ∧
      ∃ name types, (name, TypeExpr.closed types) ∈ m.typeAliases ∧
        types.map Prod.fst = ["y", "x"] := by
  obtain ⟨document, m, parsed, generated, entry, member, fields⟩ := exists_planeModule
  obtain ⟨bound, _, _, clients, _, declares, inStep⟩ := generate_recordAlias generated
  rw [declares.decoders] at member
  obtain ⟨client, among, rfl⟩ := List.mem_map.mp member
  obtain ⟨operation, _, plan, _, positional⟩ := Forall₂.exists_left inStep among
  unfold Decoder.aliasFields at fields
  split at fields
  · next name decoders same =>
      obtain ⟨_, declared, types, closed, _, names, _⟩ := positional name decoders same
      rw [closed] at declared
      exact ⟨document, m, parsed, generated, name, types, declared, names.trans fields⟩
  · exact nomatch fields

end ElmClient
