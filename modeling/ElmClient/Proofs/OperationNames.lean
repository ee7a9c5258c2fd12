/-
Module: ElmClient.Proofs.OperationNames
Purpose: Operations are told apart by the names of what is declared for them. The names that the
  grammar admits start with an ASCII letter or an underscore, and on those the change of the first
  letter that leads to a decoder's name loses nothing but the first letter's case.
Main exports: GraphQL.isName, GraphQL.decidableForallLetters, Document.WellNamed, Reader.Yields,
  Document.operations_of_parse, Document.parse_wellNamed, capitalize_decapitalize,
  decoder_capitalize_injective
-/
import ElmClient.GraphQL.Parser.Document
import ElmClient.Name
import ElmClient.Proofs.Outcome
import ElmClient.Schema.Selectable

namespace ElmClient

/-- Whether a text is a name of the grammar. -/
def GraphQL.isName (text : String) : Bool :=
  match text.toList with
  | [] => false
  | c :: rest => Reader.startsName c && rest.all Reader.continuesName

/-- What is asked of all the letters of a text is tried on those letters, rather than on all the
characters there are. -/
instance GraphQL.decidableForallLetters (property : Char → Prop) [DecidablePred property]
    (letters : List Char) : Decidable (∀ c ∈ letters, property c) :=
  List.decidableBAll property letters

/-- The names of the operations of a document are those that the grammar admits. -/
def GraphQL.Document.WellNamed (document : Document) : Prop :=
  ∀ operation ∈ document.operations, ∀ name, operation.name = some name → isName name = true

/-! ### The grammar admits names only -/

namespace GraphQL

namespace Reader

variable {α β : Type}

/-- Whatever a reader reads satisfies a property. -/
def Yields (reader : Reader α) (property : α → Prop) : Prop :=
  ∀ cursor result after, reader.run cursor = some (result, after) → property result

theorem Yields.any (reader : Reader α) : Yields reader fun _ => True :=
  fun _ _ _ _ => trivial

theorem Yields.imp {reader : Reader α} {stronger weaker : α → Prop}
    (each : Yields reader stronger) (implies : ∀ value, stronger value → weaker value) :
    Yields reader weaker :=
  fun _ _ _ read => implies _ (each _ _ _ read)

theorem Yields.pure {property : α → Prop} {value : α} (holds : property value) :
    Yields (Pure.pure value) property := by
  intro cursor result after read
  obtain ⟨rfl, _⟩ := Prod.mk.inj (Option.some.inj read)
  exact holds

theorem Yields.bind {first : Reader α} {next : α → Reader β} {earlier : α → Prop}
    {property : β → Prop} (one : Yields first earlier)
    (two : ∀ value, earlier value → Yields (next value) property) :
    Yields (first >>= next) property := by
  intro cursor result after read
  rw [StateT.run_bind] at read
  obtain ⟨⟨value, middle⟩, started, finished⟩ := Option.bind_eq_some_iff.mp read
  exact two value (one _ _ _ started) _ _ _ finished

theorem Yields.andThen {first : Reader α} {next : α → Reader β} {property : β → Prop}
    (two : ∀ value, Yields (next value) property) : Yields (first >>= next) property :=
  (Yields.any first).bind fun value _ => two value

theorem Yields.map {first : Reader α} {f : α → β} {property : β → Prop}
    (one : Yields first fun value => property (f value)) : Yields (f <$> first) property := by
  rw [map_eq_pure_bind]
  exact one.bind fun _ holds => .pure holds

theorem Yields.orElse {first second : Reader α} {property : α → Prop}
    (one : Yields first property) (two : Yields second property) :
    Yields (first <|> second) property := by
  intro cursor result after read
  have choice : (first <|> second).run cursor = (first.run cursor <|> second.run cursor) := rfl
  rw [choice] at read
  cases started : first.run cursor with
  | none =>
      rw [started] at read
      exact two _ _ _ read
  | some read' =>
      rw [started] at read
      obtain rfl := Option.some.inj read
      exact one _ _ _ started

theorem Yields.upTo {reader : Reader α} {property : α → Prop} (each : Yields reader property)
    (count : Nat) : Yields (upTo reader count) fun values => ∀ value ∈ values, property value := by
  induction count with
  | zero => exact .pure (by simp)
  | succ count ih =>
      refine .orElse (each.bind fun first here => ih.bind fun more later => .pure ?_)
        (.pure (by simp))
      exact List.forall_mem_cons.mpr ⟨here, later⟩

theorem Yields.many {reader : Reader α} {property : α → Prop} (each : Yields reader property) :
    Yields (many reader) fun values => ∀ value ∈ values, property value :=
  .andThen fun _ => each.upTo _

theorem Yields.many1 {reader : Reader α} {property : α → Prop} (each : Yields reader property) :
    Yields (many1 reader) fun values => ∀ value ∈ values, property value := by
  refine each.bind fun first here => each.many.bind fun more later => ?_
  exact .pure (List.forall_mem_cons.mpr ⟨here, later⟩)

theorem Yields.optional {reader : Reader α} {property : α → Prop} (each : Yields reader property) :
    Yields (optional reader) fun found => ∀ value, found = some value → property value :=
  .orElse (.map (each.imp fun _ holds _ same => Option.some.inj same ▸ holds)) (.pure (by simp))

theorem Yields.orEmpty {reader : Reader (List α)} {property : α → Prop}
    (each : Yields reader fun values => ∀ value ∈ values, property value) :
    Yields (orEmpty reader) fun values => ∀ value ∈ values, property value :=
  .orElse each (.pure (by simp))

theorem Yields.fail {property : α → Prop} : Yields (failure : Reader α) property := by
  intro cursor result after read
  exact nomatch read

theorem Yields.of_run? {reader : Reader α} {property : α → Prop} (each : Yields reader property)
    {text : String} {result : α} (read : reader.run? text = .ok result) : property result := by
  have all : Yields (do let result ← reader; finish; Pure.pure result) property :=
    each.bind fun value holds => .andThen fun _ => .pure holds
  unfold run? at read
  split at read
  · simp at read
  · next value cursor started =>
      split at read
      · simp at read
      · obtain rfl := Except.ok.inj read
        exact all _ _ _ started

theorem nameHere_yields : Yields nameHere fun text => isName text = true := by
  refine .andThen fun cursor => ?_
  split
  · next c rest _ =>
      split
      · next starts =>
          refine .andThen fun _ => .pure ?_
          simp [isName, starts]
      · exact .fail
  · exact .fail

theorem name_yields : Yields name fun text => isName text = true :=
  .andThen fun _ => nameHere_yields

/-- An operation that is read has a name of the grammar or none. -/
theorem operation_yields :
    Yields operation fun operation => ∀ name, operation.name = some name → isName name = true := by
  refine .orElse ?_ ?_
  · refine .andThen fun _ => .andThen fun _ => name_yields.optional.bind fun _ holds => ?_
    exact .andThen fun _ => .andThen fun _ => .andThen fun _ => .pure holds
  · exact .andThen fun _ => .pure (by simp)

end Reader

namespace Document

/-- Adding a definition adds no operation but the one that is defined. -/
theorem add_operations {document result : Document} {definition : Operation ⊕ Fragment}
    (added : document.add definition = .ok result) {operation : Operation}
    (member : operation ∈ result.operations) :
    operation ∈ document.operations ∨ definition = .inl operation := by
  cases definition with
  | inr fragment =>
      simp only [add, addFragment] at added
      split at added
      · simp at added
      · obtain rfl := Except.ok.inj added
        exact Or.inl member
  | inl defined =>
      simp only [add, addOperation] at added
      split at added
      · split at added
        · obtain rfl := Except.ok.inj added
          exact Or.inr (congrArg Sum.inl (List.mem_singleton.mp member).symm)
        · simp at added
      · split at added
        · simp at added
        · split at added
          · simp at added
          · obtain rfl := Except.ok.inj added
            rcases List.mem_append.mp member with old | new
            · exact Or.inl old
            · exact Or.inr (congrArg Sum.inl (List.mem_singleton.mp new).symm)

theorem foldlM_add_operations {definitions : List (Operation ⊕ Fragment)}
    {document result : Document} (added : definitions.foldlM add document = .ok result)
    {operation : Operation} (member : operation ∈ result.operations) :
    operation ∈ document.operations ∨ .inl operation ∈ definitions := by
  induction definitions generalizing document with
  | nil =>
      obtain rfl := Except.pure_eq_ok.mp added
      exact Or.inl member
  | cons first rest ih =>
      obtain ⟨next, here, later⟩ := Except.foldlM_cons_eq_ok.mp added
      rcases ih later with old | new
      · rcases add_operations here old with older | rfl
        · exact Or.inl older
        · exact Or.inr List.mem_cons_self
      · exact Or.inr (List.mem_cons_of_mem _ new)

/-- What holds of every operation that can be read holds of the operations of a document. -/
theorem operations_of_parse {property : Operation → Prop}
    (each : Reader.Yields Reader.operation property) {text : String} {document : Document}
    (read : parse text = .ok document) : ∀ operation ∈ document.operations, property operation := by
  obtain ⟨definitions, parsed, gathered⟩ := Except.bind_eq_ok.mp read
  obtain ⟨gathered', folded, checked⟩ := Except.bind_eq_ok.mp gathered
  have same : gathered' = document := by
    split at checked
    · simp at checked
    · exact Except.ok.inj checked
  subst same
  have defined : Reader.Yields Reader.definition fun definition =>
      ∀ operation, definition = .inl operation → property operation :=
    .orElse (.map (each.imp fun _ holds _ equal => Sum.inl.inj equal ▸ holds))
      (.map ((Reader.Yields.any _).imp fun _ _ _ equal => nomatch equal))
  intro operation member
  rcases foldlM_add_operations folded member with none | there
  · exact absurd none List.not_mem_nil
  · exact defined.many1.of_run? parsed _ there operation rfl

/-- A document that is read from a text is well named. -/
theorem parse_wellNamed {text : String} {document : Document}
    (read : parse text = .ok document) : document.WellNamed :=
  operations_of_parse Reader.operation_yields read

end Document

/-! ### The letters of a name -/

namespace Reader

theorem letters_of_isName {name : String} (legal : isName name = true) :
    ∃ c more, name.toList = c :: more ∧ startsName c = true ∧
      ∀ d ∈ more, continuesName d = true := by
  unfold isName at legal
  cases letters : name.toList with
  | nil =>
      rw [letters] at legal
      exact absurd legal Bool.false_ne_true
  | cons c more =>
      rw [letters] at legal
      obtain ⟨starts, continues⟩ := Bool.and_eq_true_iff.mp legal
      exact ⟨c, more, rfl, starts, List.all_eq_true.mp continues⟩

theorem continuesName_of_startsName {c : Char} (starts : startsName c = true) :
    continuesName c = true := by
  rcases Bool.or_eq_true_iff.mp starts with letter | underscore
  · simp [continuesName, Char.isAlphanum, letter]
  · simp [continuesName, underscore]

theorem continuesName_of_isName {name : String} (legal : isName name = true) :
    ∀ c ∈ name.toList, continuesName c = true := by
  obtain ⟨c, more, letters, starts, continues⟩ := letters_of_isName legal
  rw [letters]
  exact List.forall_mem_cons.mpr ⟨continuesName_of_startsName starts, continues⟩

end Reader

end GraphQL

namespace Text

theorem toNat_of_startsName {c : Char} (starts : GraphQL.Reader.startsName c = true) :
    c.toNat < 128 := by
  have bounds : (decide (c.val ≥ 'A'.val ∧ c.val ≤ 'Z'.val) ||
      (decide (c.val ≥ 'a'.val) && decide (c.val ≤ 'z'.val)) || c == '_') = true := starts
  simp only [Bool.or_eq_true, Bool.and_eq_true, decide_eq_true_eq, ge_iff_le,
    UInt32.le_iff_toNat_le, beq_iff_eq] at bounds
  rcases bounds with (upper | lower) | rfl
  · exact Nat.lt_of_le_of_lt upper.2 (by decide)
  · exact Nat.lt_of_le_of_lt lower.2 (by decide)
  · decide

theorem toNat_of_continuesName {c : Char} (continues : GraphQL.Reader.continuesName c = true) :
    c.toNat < 128 := by
  rcases Bool.or_eq_true_iff.mp continues with letterOrDigit | underscore
  · rcases Bool.or_eq_true_iff.mp letterOrDigit with letter | digit
    · exact toNat_of_startsName (by simp [GraphQL.Reader.startsName, letter])
    · have bounds : (decide (c.val ≥ '0'.val) && decide (c.val ≤ '9'.val)) = true := digit
      simp only [Bool.and_eq_true, decide_eq_true_eq, UInt32.le_iff_toNat_le] at bounds
      exact Nat.lt_of_le_of_lt bounds.2 (by decide)
  · obtain rfl := eq_of_beq underscore
    decide

/-- What is asked of the characters that names go on with can be tried on ASCII. -/
theorem of_continuesName {property : Char → Prop}
    (each : ∀ n < 128, GraphQL.Reader.continuesName (Char.ofNat n) = true →
      property (Char.ofNat n)) (c : Char) (continues : GraphQL.Reader.continuesName c = true) :
    property c := by
  have here := each c.toNat (toNat_of_continuesName continues)
  rw [Char.ofNat_toNat] at here
  exact here continues

/-! ### The first letter -/

/-- Both cases of a letter of ASCII, and of every other character there, are single characters
that lead back to one another. -/
theorem upperChar_lowerChar_upperChar :
    ∀ n < 128, ∃ upper lower, upperChar (Char.ofNat n) = [upper] ∧ lowerChar upper = [lower] ∧
      upperChar lower = [upper] := by
  intro n small
  refine ⟨(Char.ofNat n).toUpper, (Char.ofNat n).toUpper.toLower, ?_⟩
  revert n
  decide

/-- What a name loses by the change to lower case, a change to upper case gives back. -/
theorem capitalize_decapitalize {name : String} (legal : GraphQL.isName name = true) :
    capitalize (decapitalize (capitalize name)) = capitalize name := by
  unfold GraphQL.isName at legal
  split at legal
  · simp at legal
  · next c rest letters =>
      have starts := (Bool.and_eq_true_iff.mp legal).1
      obtain ⟨upper, lower, raised, lowered, again⟩ :=
        upperChar_lowerChar_upperChar c.toNat (toNat_of_startsName starts)
      rw [Char.ofNat_toNat] at raised
      simp [capitalize, decapitalize, letters, raised, lowered, again]

end Text

/-- Operations whose result types have different names have decoders of different names. -/
theorem Name.decoder_capitalize_injective {first second : String}
    (legal : GraphQL.isName first = true) (legal' : GraphQL.isName second = true)
    (same : decoder (Text.capitalize first) = decoder (Text.capitalize second)) :
    Text.capitalize first = Text.capitalize second := by
  have lowered : Text.decapitalize (Text.capitalize first) =
      Text.decapitalize (Text.capitalize second) :=
    (String.append_left_inj "Decoder").mp same
  rw [← Text.capitalize_decapitalize legal, lowered, Text.capitalize_decapitalize legal']

theorem GraphQL.isName_title {operation : GraphQL.Operation}
    (named : ∀ name, operation.name = some name → isName name = true) :
    isName operation.title = true := by
  unfold Operation.title
  cases given : operation.name with
  | none => decide
  | some name => exact named name given

end ElmClient
