/-
Module: ElmClient.Proofs.QueryText.RoundTrip
Purpose: The text that is sent for an operation is a document again: that operation and the
  fragments that it reaches, as they were, and nothing else.
Main exports: BoundDocument.queryText_parses
-/
import ElmClient.Proofs.QueryText.Operations
import ElmClient.Proofs.QueryText.Fragments
import ElmClient.Proofs.Generation.Declarations

namespace ElmClient

namespace GraphQL

open Text (Settled Firm)

/-! ### Definitions -/

/-- An operation or a fragment as it is printed. -/
def definitionText : Operation ⊕ Fragment → String
  | .inl operation => operation.text
  | .inr fragment => fragment.text

/-- A definition of the grammar that can be read back: what is left out is not there, and what may
be misread neither. -/
inductive IsReadable : Operation ⊕ Fragment → Prop where
  | operation {operation : Operation} (legal : operation.Legal)
      (bare : ∀ definition ∈ operation.definitions, definition.directives = [])
      (legible : operation.isLegible = true) : IsReadable (.inl operation)
  | fragment {fragment : Fragment} (legal : fragment.Legal) (legible : fragment.isLegible = true) :
      IsReadable (.inr fragment)

/-- What is read for a definition is the definition, at other places. -/
inductive ReadsAs : Operation ⊕ Fragment → Operation ⊕ Fragment → Prop where
  | operation {operation read : Operation} (same : read.erased = operation.sent) :
      ReadsAs (.inl operation) (.inl read)
  | fragment {fragment read : Fragment} (same : read.erased = fragment.erased) :
      ReadsAs (.inr fragment) (.inr read)

theorem firm_definitionText {item : Operation ⊕ Fragment} (readable : IsReadable item) :
    Firm (definitionText item).toList := by
  cases readable with
  | operation legal _ legible => exact firm_operation legal legible
  | fragment legal legible => exact firm_fragment legal legible

/-- Definitions end in the brace of their selections. -/
theorem closes_definitionText (item : Operation ⊕ Fragment) :
    ['\x7d'] <:+ (definitionText item).toList := by
  have closes (selections : List Selection) :
      ['\x7d'] <:+ (selectionSetText selections).toList := by
    rw [toList_selectionSetText]
    exact ((List.suffix_cons ' ' _).trans (List.suffix_append _ _)).trans (List.suffix_cons _ _)
  cases item with
  | inl operation =>
      have inside := closes operation.selections
      cases bare : operation.isBare with
      | true => rwa [definitionText, toList_text_of_isBare bare]
      | false =>
          have spaced := inside.trans (List.suffix_cons ' ' _)
          rw [definitionText, toList_text_of_named bare]
          iterate 4 refine List.IsSuffix.trans ?_ (List.suffix_append _ _)
          exact spaced
  | inr fragment =>
      have spaced := (closes fragment.selections).trans (List.suffix_cons ' ' _)
      rw [definitionText, toList_fragmentText]
      refine List.IsSuffix.trans ?_ (List.suffix_append _ _)
      refine List.IsSuffix.trans ?_ (List.suffix_cons ' ' _)
      refine List.IsSuffix.trans ?_ (List.suffix_append _ _)
      refine List.IsSuffix.trans ?_ (List.suffix_cons ' ' _)
      iterate 3 refine List.IsSuffix.trans ?_ (List.suffix_append _ _)
      exact spaced

namespace Reader

variable {ahead rest : List Char}

/-- A definition starts with a brace or the first letter of its keyword. -/
theorem exists_definitionText (item : Operation ⊕ Fragment) :
    ∃ c more, (definitionText item).toList = c :: more ∧ isSolid c = true ∧
      Text.isBlank c = false := by
  cases item with
  | inl operation =>
      cases bare : operation.isBare with
      | true =>
          simp only [definitionText, toList_text_of_isBare bare, toList_selectionSetText]
          exact ⟨'\x7b', _, rfl, by decide, by decide⟩
      | false =>
          simp only [definitionText, toList_text_of_named bare]
          cases operation.kind with
          | query => exact ⟨'q', _, rfl, by decide, by decide⟩
          | mutation => exact ⟨'m', _, rfl, by decide, by decide⟩
          | subscription => exact ⟨'s', _, rfl, by decide, by decide⟩
  | inr fragment =>
      rw [definitionText, toList_fragmentText]
      exact ⟨'f', _, rfl, by decide, by decide⟩

theorem refuses_operation {c : Char} (first : (skipped ahead).head? = some c)
    (apart : c ∉ ['q', 'm', 's', '\x7b']) : Refuses Reader.operation ahead := by
  have noKeyword : Refuses operationKind (skipped ahead) := by
    refine refuses_operationKind (c := c) (by rw [skipped_skipped, first]) fun keyword => apart ?_
    exact List.mem_append_left ['\x7b'] keyword
  have noBrace : (skipped ahead).head? ≠ some '\x7b' := by
    rw [first]
    rintro ⟨⟩
    exact apart (by decide)
  exact (takes_here.refuses fun _ _ => noKeyword.bind _).both
    ((refuses_ownSelectionSet noBrace).bind _)

theorem definition_spelled {item : Operation ⊕ Fragment} (readable : IsReadable item) :
    Spells definition (definitionText item).toList (fun _ => True) (ReadsAs item) where
  filled := by
    obtain ⟨c, more, letters, _⟩ := exists_definitionText item
    rw [letters]
    exact List.cons_ne_nil c more
  solid rest := by
    obtain ⟨c, more, letters, solid, _⟩ := exists_definitionText item
    rw [letters]
    exact skipped_of_isSolid solid _
  takes {ahead rest} _ here := by
    cases readable with
    | @operation operation legal bare legible =>
        refine Takes.orElse (Takes.map ?_) _
        cases isBare : operation.isBare with
        | true =>
            exact (takes_operation_of_isBare isBare legal legible here).imp fun _ => .operation
        | false =>
            exact (takes_operation_of_named isBare legal bare legible here).imp fun _ => .operation
    | @fragment fragment legal legible =>
        have first : (skipped ahead).head? = some 'f' := by
          rw [here, definitionText, toList_fragmentText]
          rfl
        refine ((refuses_operation first (by decide)).map _).orElse (Takes.map ?_)
        exact (takes_fragmentDefinition legal legible here).imp fun _ => .fragment

/-- No definition stands at the end of a text. -/
theorem refuses_definition_nil : Refuses definition [] := by
  have noOperation : Refuses Reader.operation [] := by
    refine Refuses.both (takes_here.refuses fun _ _ => Refuses.bind ?_ _) ?_
    · exact ((refuses_token rfl).bind _).both (((refuses_token rfl).bind _).both
        ((refuses_token rfl).bind _))
    · exact (refuses_ownSelectionSet (by simp)).bind _
  have noFragment : Refuses fragmentDefinition [] :=
    takes_here.refuses fun _ _ => (refuses_exactly rfl).bind _
  exact (noOperation.map _).both (noFragment.map _)

/-- A reader that takes a whole text reads it. -/
theorem run?_of_takes {α : Type} {reader : Reader α} {text : String} {property : α → Prop}
    (takes : Takes reader text.toList [] property) :
    ∃ value, reader.run? text = .ok value ∧ property value := by
  have ends : Takes finish [] [] fun _ => True := by
    refine takes_skip.andThen fun _ => takes_get.bind fun cursor here => ?_
    rw [here]
    exact .pure trivial
  have whole : Takes (do let result ← reader; finish; Pure.pure result) text.toList [] property :=
    takes.bind fun value holds => ends.andThen fun _ => .pure holds
  obtain ⟨value, position, read, holds⟩ := whole .start none
  refine ⟨value, ?_, holds⟩
  simp only [run?, Cursor.ofText, read]

end Reader

/-! ### Query texts -/

/-- The definitions of a query text: fragments, and then the operation. -/
def sentDefinitions (operation : Operation) (used : List Fragment) : List (Operation ⊕ Fragment) :=
  used.map Sum.inr ++ [Sum.inl operation]

/-- The text of definitions before blanks are cleared up, with a space between any two. -/
def sentText (operation : Operation) (used : List Fragment) : String :=
  String.join (used.map fun fragment => fragment.text ++ " ") ++ operation.text

theorem toList_sentText (operation : Operation) (used : List Fragment) :
    (sentText operation used).toList =
      [' '].intercalate
        ((sentDefinitions operation used).map fun item => (definitionText item).toList) := by
  induction used with
  | nil => simp [sentText, sentDefinitions, definitionText]
  | cons fragment others ih =>
      have later : (sentDefinitions operation others).map
          (fun item => (definitionText item).toList) ≠ [] := by
        simp [sentDefinitions]
      have here : (sentText operation (fragment :: others)).toList =
          fragment.text.toList ++ [' '] ++ (sentText operation others).toList := by
        simp [sentText]
      rw [here, ih]
      exact (List.intercalate_cons_of_ne_nil later).symm

section

variable {operation : Operation} {used : List Fragment}

/-- The text that is sent ends with the brace that closes the operation. -/
theorem closes_sentText (operation : Operation) (used : List Fragment) :
    ∃ front, (sentText operation used).toList = front ++ ['\x7d'] := by
  obtain ⟨front, ends⟩ := closes_definitionText (.inl operation)
  refine ⟨(String.join (used.map fun fragment => fragment.text ++ " ")).toList ++ front, ?_⟩
  rw [sentText, String.toList_append, List.append_assoc]
  exact congrArg _ ends.symm

/-- Clearing up blanks leaves the text of readable definitions as it is. -/
theorem squeezeBlank_sentText
    (readable : ∀ item ∈ sentDefinitions operation used, IsReadable item) :
    Text.squeezeBlank (sentText operation used) = sentText operation used := by
  have firm : Firm (sentText operation used).toList := by
    rw [toList_sentText]
    cases definitions : sentDefinitions operation used with
    | nil => exact absurd definitions (by simp [sentDefinitions])
    | cons first others =>
        rw [definitions] at readable
        obtain ⟨here, later⟩ := List.forall_mem_cons.mp readable
        rw [List.map_cons, Reader.intercalate_cons, List.flatMap_map]
        exact (firm_definitionText here).append
          (.flatMap fun item member => (firm_definitionText (later item member)).space)
  obtain ⟨front, ends⟩ := closes_sentText operation used
  exact Text.squeezeBlank_eq_self firm ends (by decide)

/-- The definitions of a text are read one after another. -/
theorem run?_sentText (readable : ∀ item ∈ sentDefinitions operation used, IsReadable item) :
    ∃ reads, (Reader.many1 Reader.definition).run? (sentText operation used) = .ok reads ∧
      List.Forall₂ ReadsAs (sentDefinitions operation used) reads := by
  have chain : Reader.Chain Reader.definition ReadsAs (sentDefinitions operation used)
      ([' '].intercalate
        ((sentDefinitions operation used).map fun item => (definitionText item).toList) ++ []) [] :=
    .of_intercalated (fun item member => Reader.definition_spelled (readable item member))
      (by simp) (fun _ _ _ => trivial) trivial Reader.refuses_definition_nil
  rw [List.append_nil, ← toList_sentText] at chain
  refine Reader.run?_of_takes ?_
  cases definitions : sentDefinitions operation used with
  | nil => exact absurd definitions (by simp [sentDefinitions])
  | cons first others =>
      rw [definitions] at chain
      exact Reader.Takes.many1 chain

/-- What is read for the definitions of a query text is fragments, and then an operation. -/
theorem exists_of_readsAs {items : List (Operation ⊕ Fragment)}
    (each : List.Forall₂ ReadsAs (sentDefinitions operation used) items) :
    ∃ read reads, items = sentDefinitions read reads ∧ read.erased = operation.sent ∧
      reads.map Fragment.erased = used.map Fragment.erased := by
  induction used generalizing items with
  | nil =>
      cases each with
      | cons here later =>
          cases later
          cases here with
          | @operation _ read same => exact ⟨read, [], rfl, same, rfl⟩
  | cons fragment others ih =>
      cases each with
      | cons here later =>
          obtain ⟨read, reads, rfl, same, same'⟩ := ih later
          cases here with
          | @fragment _ first sameHere =>
              refine ⟨read, first :: reads, rfl, same, ?_⟩
              rw [List.map_cons, List.map_cons, sameHere, same']

end

namespace Document

/-- Fragments of distinct names are added one after another. -/
theorem foldlM_add_fragments {known fragments : List Fragment}
    (distinct : ((known ++ fragments).map (·.name)).Nodup) :
    (fragments.map Sum.inr).foldlM add ⟨[], known⟩ = .ok ⟨[], known ++ fragments⟩ := by
  induction fragments generalizing known with
  | nil =>
      rw [List.append_nil]
      rfl
  | cons first others ih =>
      have fresh : known.any (·.name == first.name) = false := by
        refine List.any_eq_false.mpr fun other member same => ?_
        rw [List.map_append, List.map_cons] at distinct
        exact (List.nodup_append.mp distinct).2.2 _ (List.mem_map_of_mem member) _
          List.mem_cons_self (beq_iff_eq.mp same)
      rw [List.append_cons] at distinct ⊢
      refine Except.foldlM_cons_eq_ok.mpr ⟨⟨[], known ++ [first]⟩, ?_, ih distinct⟩
      simp only [add, addFragment, fresh, Bool.false_eq_true, if_false]

/-- One operation and fragments of distinct names are a document. -/
theorem ofDefinitions_sent (operation : Operation) {fragments : List Fragment}
    (distinct : (fragments.map (·.name)).Nodup) :
    ofDefinitions (sentDefinitions operation fragments) = .ok ⟨[operation], fragments⟩ := by
  have added : (sentDefinitions operation fragments).foldlM add ⟨[], []⟩ =
      .ok ⟨[operation], fragments⟩ := by
    rw [sentDefinitions, List.foldlM_append]
    refine Except.bind_eq_ok.mpr ⟨⟨[], fragments⟩, foldlM_add_fragments distinct, ?_⟩
    refine Except.foldlM_cons_eq_ok.mpr ⟨⟨[operation], fragments⟩, ?_, rfl⟩
    cases named : operation.name with
    | none => simp [add, addOperation, named]
    | some name => simp [add, addOperation, named]
  exact Except.bind_eq_ok.mpr ⟨_, added, rfl⟩

end Document

/-- The text of readable definitions is read as a document that has them, at other places. -/
theorem parse_sentText {operation : Operation} {used : List Fragment}
    (readable : ∀ item ∈ sentDefinitions operation used, IsReadable item)
    (distinct : (used.map (·.name)).Nodup) :
    ∃ read reads, Document.parse (sentText operation used) = .ok ⟨[read], reads⟩ ∧
      read.erased = operation.sent ∧ reads.map Fragment.erased = used.map Fragment.erased := by
  obtain ⟨items, parsed, each⟩ := run?_sentText readable
  obtain ⟨read, reads, rfl, same, same'⟩ := exists_of_readsAs each
  have names : reads.map (·.name) = used.map (·.name) := by
    have named := congrArg (List.map Fragment.name) same'
    rwa [List.map_map, List.map_map] at named
  refine ⟨read, reads, Except.bind_eq_ok.mpr ⟨_, parsed, ?_⟩, same, same'⟩
  exact Document.ofDefinitions_sent read (names ▸ distinct)

end GraphQL

namespace BoundDocument

open GraphQL

section

variable {schema : Schema} {document : Document} {bound : BoundDocument}

/-- A bound document has the fragments of the document. -/
theorem mem_fragments_iff (bind_ok : bind schema document = .ok bound) {fragment : Fragment} :
    fragment ∈ bound.fragments ↔ fragment ∈ document.fragments := by
  rw [(bind_eq_ok bind_ok).2.2]
  exact (sortByPosition_perm _ _).mem_iff

/-- The fragments before an operation are those of the document that the operation reaches. -/
theorem mem_usedFragments (bind_ok : bind schema document = .ok bound)
    (distinct : (document.fragments.map (·.name)).Nodup) {operation : Operation}
    {used : List Fragment} (collected : bound.usedFragments operation = .ok used)
    {fragment : Fragment} :
    fragment ∈ used ↔ fragment ∈ document.fragments ∧ bound.Reached operation fragment.name := by
  obtain ⟨follows, _⟩ := usedFragments_follows collected
  have known {other : Fragment} (member : other ∈ used) : other ∈ document.fragments :=
    (mem_fragments_iff bind_ok).mp (mem_of_fragment? (follows.found other member))
  constructor
  · intro member
    exact ⟨known member, follows.reached fragment member⟩
  · rintro ⟨member, reached⟩
    obtain ⟨other, among, same⟩ := List.mem_map.mp ((mem_usedFragments_iff collected).mpr reached)
    obtain rfl := List.inj_on_of_nodup_map distinct (known among) member same
    exact among

/-- The text that is sent for an operation reads back: as the operation without its name if it is
anonymous, and as the fragments that the operation reaches, each of them once. -/
theorem queryText_parses {source : String} (parsed : Document.parse source = .ok document)
    (bind_ok : bind schema document = .ok bound) {operation : Operation}
    (member : operation ∈ document.operations)
    (bare : ∀ definition ∈ operation.definitions, definition.directives = [])
    (legible : operation.isLegible = true)
    (legibleFragments : ∀ fragment ∈ document.fragments,
      bound.Reached operation fragment.name → fragment.isLegible = true)
    {text : String} (printed : bound.queryText operation = .ok text) :
    ∃ read reads, Document.parse text = .ok ⟨[read], reads⟩ ∧ read.erased = operation.sent ∧
      ∃ used : List Fragment, reads.map Fragment.erased = used.map Fragment.erased ∧
        (used.map (·.name)).Nodup ∧
          ∀ fragment, fragment ∈ used ↔
            fragment ∈ document.fragments ∧ bound.Reached operation fragment.name := by
  obtain ⟨used, collected, printed'⟩ := Except.bind_eq_ok.mp printed
  have legal := Document.legal_of_parse parsed
  have exact_used {fragment : Fragment} : fragment ∈ used ↔
      fragment ∈ document.fragments ∧ bound.Reached operation fragment.name :=
    mem_usedFragments bind_ok legal.distinct collected
  have readable : ∀ item ∈ sentDefinitions operation used, IsReadable item := by
    intro item among
    rcases List.mem_append.mp among with inFragments | isOperation
    · obtain ⟨fragment, there, rfl⟩ := List.mem_map.mp inFragments
      obtain ⟨known, reached⟩ := exact_used.mp there
      exact .fragment (legal.fragments fragment known) (legibleFragments fragment known reached)
    · obtain rfl := List.mem_singleton.mp isOperation
      exact .operation (legal.operations operation member) bare legible
  have distinct := (usedFragments_follows collected).1.distinct
  have same : text = sentText operation used := by
    rw [← Except.pure_eq_ok.mp printed']
    exact squeezeBlank_sentText readable
  obtain ⟨read, reads, reparsed, sameOperation, sameFragments⟩ := parse_sentText readable distinct
  exact ⟨read, reads, same ▸ reparsed, sameOperation, used, sameFragments, distinct,
    fun _ => exact_used⟩

end

end BoundDocument

open GraphQL

/-! ### A document with most of what the grammar has

The text that is sent for it has every kind of node that can be printed. -/

/-- A document with a value of each kind, with directives at most places where they can stand and
with fragments in one another. -/
def guideText : String :=
  "query Guide($id: ID = \"a \\\"b\\\"\", $at: [Int!]! = [1, -2]) @live \x7b" ++
    " top: hero(id: $id, in: \x7bbox: [1.5, null, true], kind: RED\x7d) @include(if: true) \x7b" ++
    " name ... on Hero \x7b id \x7d ... @skip(if: false) \x7b id \x7d ...Friends @deep(to: 2) \x7d \x7d" ++
    " fragment Friends on Hero @cached \x7b friends \x7b name ...Key \x7d \x7d" ++
    " fragment Key on Hero \x7b id \x7d fragment Unused on Hero \x7b name \x7d"

/-- A schema for the document; texts do not depend on it. -/
def guideSchema : Schema := ⟨[], { query := some "Query" }⟩

theorem exists_guide : ∃ document bound operation text, Document.parse guideText = .ok document ∧
    BoundDocument.bind guideSchema document = .ok bound ∧ operation ∈ document.operations ∧
      (∀ definition ∈ operation.definitions, definition.directives = []) ∧
      operation.isLegible = true ∧
      (∀ fragment ∈ document.fragments, fragment.isLegible = true) ∧
      bound.queryText operation = .ok text := by
  have evaluated : (Document.parse guideText).toOption.any (fun document =>
      (BoundDocument.bind guideSchema document).toOption.any fun bound =>
        document.operations.any (fun operation =>
          operation.definitions.all (·.directives.isEmpty) && operation.isLegible &&
            (bound.queryText operation).toOption.any fun _ => true) &&
          document.fragments.all (·.isLegible)) = true := by decide +kernel
  obtain ⟨document, parsed, evaluated⟩ := Except.any_toOption.mp evaluated
  obtain ⟨bound, bind_ok, evaluated⟩ := Except.any_toOption.mp evaluated
  simp only [Bool.and_eq_true, List.any_eq_true, List.all_eq_true, List.isEmpty_iff,
    Except.any_toOption] at evaluated
  obtain ⟨⟨operation, member, ⟨bare, legible⟩, text, printed, _⟩, fragments⟩ := evaluated
  exact ⟨document, bound, operation, text, parsed, bind_ok, member, bare, legible, fragments,
    printed⟩

theorem guide_queryText_parses : ∃ document bound operation text,
    Document.parse guideText = .ok document ∧
    BoundDocument.bind guideSchema document = .ok bound ∧ operation ∈ document.operations ∧
      bound.queryText operation = .ok text ∧
      ∃ read reads, Document.parse text = .ok ⟨[read], reads⟩ ∧ read.erased = operation.sent ∧
        ∃ used : List Fragment, reads.map Fragment.erased = used.map Fragment.erased ∧
          (used.map (·.name)).Nodup ∧
            ∀ fragment, fragment ∈ used ↔
              fragment ∈ document.fragments ∧ bound.Reached operation fragment.name := by
  obtain ⟨document, bound, operation, text, parsed, bind_ok, member, bare, legible, fragments,
    printed⟩ := exists_guide
  exact ⟨document, bound, operation, text, parsed, bind_ok, member, printed,
    BoundDocument.queryText_parses parsed bind_ok member bare legible
      (fun fragment among _ => fragments fragment among) printed⟩

end ElmClient
