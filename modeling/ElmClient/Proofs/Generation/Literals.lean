/-
Module: ElmClient.Proofs.Generation.Literals
Purpose: Every string literal in the source of a generated module reads back as the string it was
  made from. For the texts of queries, which stand in three quotes with only their backslashes
  escaped, this rests on what can be printed: strings in them are escaped and nothing else has a
  quote, so no three quotes follow one another, and the text ends with a brace.
Main exports: GraphQL.Written.quotesBelowThree, BoundDocument.queryText_literal,
  generateFromText_literals
-/
import ElmClient.Proofs.Elm.Literals
import ElmClient.Proofs.QueryText.Strings

namespace ElmClient

open GraphQL Elm

/-! ### Texts on one line -/

namespace Text

theorem mem_squeezeRuns_visible {inRun : Bool} {text : List Char} {c : Char}
    (member : c ∈ squeezeRuns inRun text) : c = ' ' ∨ isBlank c = false := by
  induction text generalizing inRun with
  | nil => exact absurd member List.not_mem_nil
  | cons d rest ih =>
      rw [squeezeRuns] at member
      grind

/-- A visible character at the end stays there. -/
theorem exists_squeezeRuns_concat {c : Char} (visible : isBlank c = false) (inRun : Bool)
    (front : List Char) : ∃ before, squeezeRuns inRun (front ++ [c]) = before ++ [c] := by
  induction front generalizing inRun with
  | nil => exact ⟨[], by simp [squeezeRuns, visible]⟩
  | cons d rest ih =>
      rw [List.cons_append, squeezeRuns]
      split
      · split
        · exact ih true
        · obtain ⟨before, same⟩ := ih true
          exact ⟨' ' :: before, by rw [same, List.cons_append]⟩
      · obtain ⟨before, same⟩ := ih false
        exact ⟨d :: before, by rw [same, List.cons_append]⟩

end Text

/-! ### Quotes in printed texts -/

namespace GraphQL

/-- Of all characters, only a quote is printed with a quote. -/
theorem quote_notMem_escapeChar {c : Char} (plain : c ≠ '"') : '"' ∉ Value.escapeChar c := by
  unfold Value.escapeChar
  split
  · decide
  split
  · decide
  split
  · decide
  split
  · next quote => exact absurd (beq_iff_eq.mp quote) plain
  split
  · decide
  split
  · have digits : '"' ∉ Nat.toDigits 10 c.toNat := fun member =>
      absurd (Nat.isDigit_of_mem_toDigits (by decide) (by decide) member) (by decide)
    simp [digits]
  · simpa using Ne.symm plain

/-- At most one quote is left at the end of a printed character. -/
theorem quotesBelowThree_escapeChar (c : Char) {before : Nat} {rest : List Char}
    (below : quotesBelowThree 1 rest = true) :
    quotesBelowThree before (Value.escapeChar c ++ rest) = true := by
  by_cases plain : c = '"'
  · subst plain
    exact below
  · obtain ⟨d, more, letters, _⟩ := Reader.exists_escapeChar c
    rw [quotesBelowThree_append_of_plain (by simp [letters]) (quote_notMem_escapeChar plain)]
    exact quotesBelowThree_mono (Nat.zero_le 1) below

theorem quotesBelowThree_escaped_append (chars : List Char) {before : Nat} (few : before ≤ 1)
    {rest : List Char} (apart : rest.head? ≠ some '"') (below : quotesBelowThree 0 rest = true) :
    quotesBelowThree before (chars.flatMap Value.escapeChar ++ '"' :: rest) = true := by
  induction chars generalizing before with
  | nil =>
      rw [List.flatMap_nil, List.nil_append, quotesBelowThree_quote, Bool.and_eq_true,
        decide_eq_true_eq]
      refine ⟨by omega, ?_⟩
      cases rest with
      | nil => rfl
      | cons c more =>
          rwa [quotesBelowThree_plain (ne_quote_of_head? apart)] at below ⊢
  | cons c more ih =>
      rw [List.flatMap_cons, List.append_assoc]
      exact quotesBelowThree_escapeChar c (ih (Nat.le_refl 1))

/-- In a text in which strings are printed and all else is plain, no three quotes follow one
another. -/
theorem Written.quotesBelowThree {strings : List String} {text : List Char}
    (written : Written strings text) : Elm.quotesBelowThree 0 text = true := by
  induction written with
  | nil => rfl
  | @plain _ _ c plain _ ih =>
      have noQuote : c ≠ '"' := by
        rintro rfl
        exact absurd plain (by decide)
      rwa [quotesBelowThree_plain noQuote]
  | @string _ text s apart _ ih =>
      have letters : (Value.stringText s).toList ++ text =
          '"' :: (s.toList.flatMap Value.escapeChar ++ '"' :: text) := by
        simp [Value.stringText]
      rw [letters, quotesBelowThree_quote]
      exact quotesBelowThree_escaped_append s.toList (Nat.le_refl 1) apart ih

end GraphQL

/-! ### The text of a query as a literal -/

/-- The text of a query has no new line and does not close the literal that it stands in. -/
theorem BoundDocument.queryText_literal {bound : BoundDocument} {operation : Operation}
    (legal : operation.Legal) {used : List Fragment}
    (legalFragments : ∀ fragment ∈ used, fragment.Legal)
    (collected : bound.usedFragments operation = .ok used) {text : String}
    (printed : bound.queryText operation = .ok text) :
    '\n' ∉ text.toList ∧ (Literal.long text).StaysOpen := by
  have squeezed := BoundDocument.toList_queryText collected printed
  constructor
  · intro newLine
    rw [squeezed] at newLine
    rcases Text.mem_squeezeRuns_visible newLine with space | visible
    · exact absurd space (by decide)
    · exact absurd visible (by decide)
  · have below := (BoundDocument.written_queryText legal legalFragments collected
      printed).quotesBelowThree
    obtain ⟨front, ends⟩ := closes_sentText operation used
    obtain ⟨before, same⟩ := Text.exists_squeezeRuns_concat (c := '\x7d') (by decide) false front
    rw [squeezed, ends, same, quotesBelowThree_append (by decide)] at below
    have whole : quotesBelowThree 0 (text.toList.flatMap escapeLongChar ++ ['"', '"']) = true := by
      rw [quotesBelowThree_escaped, squeezed, ends, same, List.append_assoc, List.singleton_append,
        quotesBelowThree_append (by decide), (Bool.and_eq_true_iff.mp below).1]
      rfl
    exact not_infix_of_quotesBelowThree whole

/-- The texts of the queries of a module may stand in three quotes. -/
theorem generateFromText_queryText {schema : Schema} {text : String} {options : GenerationOptions}
    {m : Module} (generated : generateFromText schema text options = .ok m) {request : Request}
    (requested : request ∈ m.requests) :
    '\n' ∉ request.queryText.toList ∧ (Literal.long request.queryText).StaysOpen := by
  obtain ⟨document, parsed, _, generated⟩ := generateFromText_eq_ok generated
  obtain ⟨bound, inventory, plans, clients, shared, bind_ok, assembles⟩ :=
    generate_assembles generated
  have legal := Document.legal_of_parse parsed
  have permuted := BoundDocument.operations_perm bind_ok
  rw [assembles.declares.requests] at requested
  obtain ⟨client, member, rfl⟩ := List.mem_map.mp requested
  obtain ⟨operation, among, made⟩ := Forall₂.exists_left assembles.declares.made member
  obtain ⟨used, collected, _⟩ := Except.bind_eq_ok.mp made.printed
  have legalFragments : ∀ fragment ∈ used, fragment.Legal := fun fragment inside =>
    legal.fragments fragment
      ((BoundDocument.mem_usedFragments bind_ok legal.distinct collected).mp inside).1
  exact BoundDocument.queryText_literal
    (legal.operations operation (permuted.mem_iff.mp among)) legalFragments collected made.printed

/-- The string literals in the source of a generated module are those of its declarations, in order:
that of the endpoint is one of them, and the texts of queries are those in three quotes. Each stands
in the source so that Elm reads it back as the string it was made from, and has no new line in it;
in the text of a query, no three quotes follow one another before the closing ones. -/
theorem generateFromText_literals {schema : Schema} {text : String} {options : GenerationOptions}
    {m : Module} (generated : generateFromText schema text options = .ok m) :
    (m.sourceCode.occurrences []).map Prod.fst = m.literals ∧
      .short options.endpoint ∈ m.literals ∧
      (∀ value, .long value ∈ m.literals ↔ ∃ request ∈ m.requests, request.queryText = value) ∧
      ∀ literal after, (literal, after) ∈ m.sourceCode.occurrences [] →
        literal.text.toList ++ after <:+ m.source.toList ∧
          readLiteral (literal.text.toList ++ after) = some (literal.value.toList, after) ∧
          '\n' ∉ literal.text.toList ∧
          ∀ value, literal = .long value → ∃ inner,
            literal.text.toList = Quotes.three.chars ++ inner ++ Quotes.three.chars ∧
              ¬Quotes.three.chars <:+: inner ++ ['"', '"'] := by
  obtain ⟨listed, stands⟩ := m.occurrences_sourceCode
  refine ⟨listed, ?_, fun _ => Module.long_mem_literals_iff, fun literal after member => ?_⟩
  · obtain ⟨_, _, _, generated⟩ := generateFromText_eq_ok generated
    obtain ⟨_, _, _, _, _, _, assembles⟩ := generate_assembles generated
    refine List.mem_flatMap.mpr ⟨.constant "endpointUrl" (.scalar .string) options.endpoint, ?_,
      List.mem_singleton_self _⟩
    rw [assembles.declarations]
    simp
  · have fits : ∀ value, literal = .long value →
        '\n' ∉ value.toList ∧ (Literal.long value).StaysOpen := by
      rintro value rfl
      have named : .long value ∈ m.literals := listed ▸ List.mem_map_of_mem (f := Prod.fst) member
      obtain ⟨request, requested, rfl⟩ := Module.long_mem_literals_iff.mp named
      exact generateFromText_queryText generated requested
    have opened : literal.StaysOpen := by
      cases literal with
      | short => trivial
      | long value => exact (fits value rfl).2
    obtain ⟨stands, apart⟩ := stands literal after member
    refine ⟨stands, Literal.readLiteral_text opened apart,
      Literal.newLine_notMem_text fun value long => (fits value long).1, ?_⟩
    rintro value rfl
    exact ⟨_, by simp [Literal.text, longStringLiteral, Quotes.chars], opened⟩

/-! ### A query with quotes and backslashes -/

/-- A document with a string of a quote and a backslash before an empty string. -/
def quotedText : String := "query Note \x7b note(x: \"\\\"\\\\\", y: \"\") \x7d"

theorem exists_quotedModule : ∃ m, generateFromText noteSchema quotedText zooOptions = .ok m ∧
    ∃ request ∈ m.requests, request.queryText = quotedText := by
  have evaluated : (generateFromText noteSchema quotedText zooOptions).toOption.any
      (fun m => m.requests.any (·.queryText == quotedText)) = true := by decide +kernel
  obtain ⟨m, generated, evaluated⟩ := Except.any_toOption.mp evaluated
  obtain ⟨request, member, same⟩ := List.any_eq_true.mp evaluated
  exact ⟨m, generated, request, member, beq_iff_eq.mp same⟩

/-- The document is read back from the source. -/
theorem quoted_literals : ∃ m after, generateFromText noteSchema quotedText zooOptions = .ok m ∧
    (Literal.long quotedText).text.toList ++ after <:+ m.source.toList ∧
      readLiteral ((Literal.long quotedText).text.toList ++ after) =
        some (quotedText.toList, after) := by
  obtain ⟨m, generated, request, requested, same⟩ := exists_quotedModule
  obtain ⟨listed, _, long, stands⟩ := generateFromText_literals generated
  have among := (long quotedText).mpr ⟨request, requested, same⟩
  rw [← listed] at among
  obtain ⟨⟨literal, after⟩, member, rfl⟩ := List.mem_map.mp among
  obtain ⟨there, reads, _⟩ := stands _ after member
  exact ⟨m, after, generated, there, reads⟩

end ElmClient
