/-
Module: ElmClient.Proofs.Elm.StringReading
Purpose: String literals of Elm read back under the escapes of Elm. A literal in one quote does so for
  every value; one in three quotes, where only the backslash is escaped, does so if no three quotes
  follow one another before its end.
Main exports: Elm.Literal, Elm.escape?, Elm.Quotes.read, Elm.readLiteral, Elm.quotesBelowThree,
  Elm.Literal.readLiteral_text
-/
import ElmClient.Elm.Code
import ElmClient.Json.Parser

namespace ElmClient.Elm

/-! ### Literals -/

/-- A string literal in code, with the value that it was made from. -/
inductive Literal where
  | short (value : String)
  | long (value : String)
deriving DecidableEq, Repr, Inhabited

namespace Literal

/-- The string that a literal was made from. -/
def value : Literal → String
  | .short value | .long value => value

/-- The text of a literal. -/
def text : Literal → String
  | .short value => stringLiteral value
  | .long value => longStringLiteral value

end Literal

/-! ### How Elm reads literals -/

/-- The character that four to six hexadecimal digits before a closing brace stand for, and the text
after the brace. -/
def codePoint? (text : List Char) : Option (Char × List Char) :=
  let isDigit (c : Char) : Bool := (Json.hexValue? c).isSome
  let digits := text.takeWhile isDigit
  let n := digits.foldl (fun n c => n * 16 + (Json.hexValue? c).getD 0) 0
  match text.dropWhile isDigit with
  | '\x7d' :: rest =>
      if 4 ≤ digits.length ∧ digits.length ≤ 6 ∧ n.isValidChar then some (Char.ofNat n, rest)
      else none
  | _ => none

/-- The character that is written after a backslash, and the text after it. -/
def escape? : List Char → Option (Char × List Char)
  | 'n' :: rest => some ('\n', rest)
  | 'r' :: rest => some ('\r', rest)
  | 't' :: rest => some ('\t', rest)
  | '"' :: rest => some ('"', rest)
  | '\x27' :: rest => some ('\x27', rest)
  | '\\' :: rest => some ('\\', rest)
  | 'u' :: '\x7b' :: rest => codePoint? rest
  | _ => none

theorem codePoint?_shorter {text rest : List Char} {c : Char}
    (found : codePoint? text = some (c, rest)) : rest.length < text.length := by
  simp only [codePoint?] at found
  split at found
  · next after =>
      have suffix := (List.dropWhile_suffix (l := text)
        fun c => (Json.hexValue? c).isSome).length_le
      rw [after, List.length_cons] at suffix
      split at found
      · obtain ⟨_, rfl⟩ := Prod.mk.inj (Option.some.inj found)
        exact suffix
      · cases found
  · cases found

theorem escape?_shorter {text rest : List Char} {c : Char} (found : escape? text = some (c, rest)) :
    rest.length < text.length := by
  unfold escape? at found
  split at found
  case h_7 =>
      have shorter := codePoint?_shorter found
      simp only [List.length_cons]
      omega
  case h_8 => cases found
  all_goals
    obtain ⟨_, rfl⟩ := Prod.mk.inj (Option.some.inj found)
    exact Nat.lt_succ_self _

/-- The quotes that a literal stands in. -/
inductive Quotes where
  | one
  | three
deriving DecidableEq, Repr

namespace Quotes

/-- The quotes as text. -/
def chars : Quotes → List Char
  | .one => ['"']
  | .three => ['"', '"', '"']

/-- Puts a character in front of a value that was read. -/
def push (c : Char) (read : List Char × List Char) : List Char × List Char := (c :: read.1, read.2)

/-- Reads the value of a literal up to its closing quotes, and gives the text after them. Only a
literal in three quotes may go over several lines. -/
def read (quotes : Quotes) (text : List Char) : Option (List Char × List Char) :=
  if quotes.chars <+: text then some ([], text.drop quotes.chars.length)
  else
    match text with
    | [] => none
    | c :: rest =>
        if c == '\\' then
          match _ : escape? rest with
          | none => none
          | some (d, more) => (quotes.read more).map (push d)
        else if c == '\n' && quotes == .one then none
        else (quotes.read rest).map (push c)
termination_by text.length
decreasing_by
  · have shorter := escape?_shorter ‹escape? rest = _›
    simp only [List.length_cons]
    omega
  · exact Nat.lt_succ_self _

end Quotes

/-- Reads a literal: two quotes that no third one follows are an empty one. -/
def readLiteral : List Char → Option (List Char × List Char)
  | '"' :: '"' :: '"' :: rest => Quotes.three.read rest
  | '"' :: '"' :: rest => some ([], rest)
  | '"' :: rest => Quotes.one.read rest
  | _ => none

namespace Quotes

variable {quotes : Quotes} {c : Char} {rest : List Char}

theorem read_close (quotes : Quotes) (rest : List Char) :
    quotes.read (quotes.chars ++ rest) = some ([], rest) := by
  rw [read.eq_def, if_pos (List.prefix_append _ _), List.drop_left]

theorem read_escape {d : Char} {more : List Char} (found : escape? rest = some (d, more)) :
    quotes.read ('\\' :: rest) = (quotes.read more).map (push d) := by
  have goesOn : ¬quotes.chars <+: '\\' :: rest := by cases quotes <;> simp [chars]
  rw [read, if_neg goesOn]
  simp only [beq_self_eq_true, if_true]
  split
  · next none => rw [found] at none; cases none
  · next found' =>
      rw [found] at found'
      cases found'
      rfl

theorem read_plain (goesOn : ¬quotes.chars <+: c :: rest) (plain : c ≠ '\\')
    (line : c = '\n' → quotes = .three) :
    quotes.read (c :: rest) = (quotes.read rest).map (push c) := by
  rw [read, if_neg goesOn]
  have sameLine : (c == '\n' && quotes == .one) = false := by
    rw [Bool.and_eq_false_iff, beq_eq_false_iff_ne, beq_eq_false_iff_ne]
    by_cases newLine : c = '\n'
    · exact .inr (by rw [line newLine]; decide)
    · exact .inl newLine
  simp [plain, sameLine]

end Quotes

/-! ### Literals in one quote -/

theorem Quotes.read_escapeChar (c : Char) (rest : List Char) :
    Quotes.one.read (escapeChar c ++ rest) = (Quotes.one.read rest).map (push c) := by
  unfold escapeChar
  split
  · next quote =>
      obtain rfl := beq_iff_eq.mp quote
      exact read_escape rfl
  split
  · next backslash =>
      obtain rfl := beq_iff_eq.mp backslash
      exact read_escape rfl
  split
  · next newLine =>
      obtain rfl := beq_iff_eq.mp newLine
      exact read_escape rfl
  split
  · next tab =>
      obtain rfl := beq_iff_eq.mp tab
      exact read_escape rfl
  · next quote backslash newLine _ =>
      refine read_plain (fun closed => ?_) (by simpa using backslash)
        fun same => absurd same (by simpa using newLine)
      obtain ⟨more, same⟩ := closed
      exact quote (beq_iff_eq.mpr (List.cons.inj same).1.symm)

/-- The body of a literal in one quote reads back, whatever the value. -/
theorem Quotes.read_short (value rest : List Char) :
    Quotes.one.read (value.flatMap escapeChar ++ '"' :: rest) = some (value, rest) := by
  induction value with
  | nil => exact read_close .one rest
  | cons c more ih =>
      rw [List.flatMap_cons, List.append_assoc, read_escapeChar, ih]
      rfl

/-- No new line is written into a literal in one quote. -/
theorem newLine_notMem_escapeChar (c : Char) : '\n' ∉ escapeChar c := by
  by_cases newLine : c = '\n'
  · subst newLine
    decide
  · unfold escapeChar
    repeat' split
    all_goals simp [Ne.symm newLine]

/-- Quotes are written after a backslash. -/
theorem escapeChar_eq_cons (c : Char) : ∃ d more, escapeChar c = d :: more ∧ d ≠ '"' := by
  unfold escapeChar
  repeat' split
  all_goals exact ⟨_, _, rfl, by simp_all⟩

theorem ne_quote_of_head? {c : Char} {rest : List Char} (apart : (c :: rest).head? ≠ some '"') :
    c ≠ '"' :=
  fun same => apart (congrArg some same)

/-- One quote that no other one follows opens a literal in one quote. -/
theorem readLiteral_quote {text : List Char} (apart : text.head? ≠ some '"') :
    readLiteral ('"' :: text) = Quotes.one.read text := by
  cases text with
  | nil => rfl
  | cons c rest =>
      simp [readLiteral, ne_quote_of_head? apart]

/-- A literal in one quote reads back before anything but a quote. -/
theorem readLiteral_short (value : List Char) {rest : List Char} (apart : rest.head? ≠ some '"') :
    readLiteral ('"' :: (value.flatMap escapeChar ++ '"' :: rest)) = some (value, rest) := by
  cases value with
  | nil =>
      cases rest with
      | nil => rfl
      | cons d more =>
          simp [readLiteral, ne_quote_of_head? apart]
  | cons c more =>
      obtain ⟨d, others, letters, plain⟩ := escapeChar_eq_cons c
      rw [readLiteral_quote, Quotes.read_short]
      simpa [letters] using plain

/-! ### Literals in three quotes -/

/-- Whether fewer than three quotes follow one another in a text, with the quotes right before it
counted. -/
def quotesBelowThree (before : Nat) : List Char → Bool
  | [] => true
  | c :: rest =>
      if c == '"' then before + 1 < 3 && quotesBelowThree (before + 1) rest
      else quotesBelowThree 0 rest

section Long

variable {before : Nat} {c : Char} {text rest : List Char}

theorem quotesBelowThree_quote :
    quotesBelowThree before ('"' :: rest) =
      (decide (before + 1 < 3) && quotesBelowThree (before + 1) rest) := rfl

theorem quotesBelowThree_plain (plain : c ≠ '"') :
    quotesBelowThree before (c :: rest) = quotesBelowThree 0 rest := by
  simp [quotesBelowThree, plain]

/-- Text without quotes parts those before it from those after it. -/
theorem quotesBelowThree_append_of_plain (filled : text ≠ []) (plain : '"' ∉ text) :
    quotesBelowThree before (text ++ rest) = quotesBelowThree 0 rest := by
  induction text generalizing before with
  | nil => exact absurd rfl filled
  | cons c more ih =>
      obtain ⟨here, later⟩ := not_or.mp (mt List.mem_cons.mpr plain)
      rw [List.cons_append, quotesBelowThree_plain (Ne.symm here)]
      cases more with
      | nil => rfl
      | cons d more => exact ih (List.cons_ne_nil _ _) later

/-- Fewer quotes before a text do no harm. -/
theorem quotesBelowThree_mono {fewer : Nat} (le : fewer ≤ before)
    (below : quotesBelowThree before text = true) : quotesBelowThree fewer text = true := by
  induction text generalizing before fewer with
  | nil => rfl
  | cons c rest ih =>
      rw [quotesBelowThree] at below ⊢
      split at below
      · next quote =>
          rw [Bool.and_eq_true, decide_eq_true_eq] at below
          rw [if_pos quote, Bool.and_eq_true, decide_eq_true_eq]
          exact ⟨by omega, ih (Nat.succ_le_succ le) below.2⟩
      · next plain =>
          rw [if_neg plain]
          exact below

/-- Such a text has no run of three quotes. -/
theorem not_infix_of_quotesBelowThree (below : quotesBelowThree before text = true) :
    ¬Quotes.three.chars <:+: text := by
  induction text generalizing before with
  | nil => simp [Quotes.chars]
  | cons c rest ih =>
      intro inside
      rcases List.infix_cons_iff.mp inside with ⟨more, here⟩ | later
      · obtain ⟨rfl, rfl⟩ := List.cons.inj here
        simp [quotesBelowThree] at below
        omega
      · rw [quotesBelowThree] at below
        split at below
        · exact ih (Bool.and_eq_true _ _ ▸ below).2 later
        · exact ih below later

/-- A text is taken apart at a character that is no quote. -/
theorem quotesBelowThree_append (plain : c ≠ '"') :
    quotesBelowThree before (text ++ c :: rest) =
      (quotesBelowThree before text && quotesBelowThree 0 rest) := by
  induction text generalizing before with
  | nil => simp [quotesBelowThree, plain]
  | cons d more ih =>
      rw [List.cons_append, quotesBelowThree, quotesBelowThree]
      split
      · rw [ih, Bool.and_assoc]
      · exact ih

/-- Escapes of backslashes neither join quotes nor part them. -/
theorem quotesBelowThree_escaped (text rest : List Char) (before : Nat) :
    quotesBelowThree before (text.flatMap escapeLongChar ++ rest) =
      quotesBelowThree before (text ++ rest) := by
  induction text generalizing before with
  | nil => rfl
  | cons c more ih =>
      rw [List.flatMap_cons, escapeLongChar]
      split
      · next backslash =>
          obtain rfl := beq_iff_eq.mp backslash
          exact ih 0
      · rw [List.singleton_append, List.cons_append, List.cons_append, quotesBelowThree,
          quotesBelowThree, ih, ih]

end Long

/-- What is taken for the closing quotes before the end of a text is a run of three quotes in it, with
two of the closing quotes counted. -/
theorem infix_of_closes {inner rest : List Char} (filled : inner ≠ [])
    (closes : Quotes.three.chars <+: inner ++ (Quotes.three.chars ++ rest)) :
    Quotes.three.chars <:+: inner ++ ['"', '"'] := by
  have regrouped : inner ++ (Quotes.three.chars ++ rest) = (inner ++ ['"', '"']) ++ '"' :: rest := by
    simp [Quotes.chars]
  rw [regrouped] at closes
  -- The run starts inside the text, so it does not reach the last of the closing quotes.
  have long : Quotes.three.chars.length ≤ (inner ++ ['"', '"']).length := by
    have := List.length_pos_iff.mpr filled
    simp only [Quotes.chars, List.length_append, List.length_cons, List.length_nil]
    omega
  exact (List.prefix_of_prefix_length_le closes (List.prefix_append _ _) long).isInfix

/-- The body of a literal in three quotes reads back if nothing in it closes it. -/
theorem Quotes.read_long {value : List Char} (rest : List Char)
    (opened : ¬Quotes.three.chars <:+: value.flatMap escapeLongChar ++ ['"', '"']) :
    Quotes.three.read (value.flatMap escapeLongChar ++ (Quotes.three.chars ++ rest)) =
      some (value, rest) := by
  induction value with
  | nil => exact read_close .three rest
  | cons c more ih =>
      have later : ¬Quotes.three.chars <:+: more.flatMap escapeLongChar ++ ['"', '"'] := by
        intro inside
        rw [List.flatMap_cons, List.append_assoc] at opened
        exact opened (inside.trans (List.suffix_append _ _).isInfix)
      rw [List.flatMap_cons, escapeLongChar] at opened ⊢
      split
      · next backslash =>
          obtain rfl := beq_iff_eq.mp backslash
          rw [List.append_assoc]
          refine (read_escape rfl).trans ?_
          exact congrArg (Option.map (push '\\')) (ih later)
      · next backslash =>
          rw [if_neg backslash] at opened
          have goesOn : ¬Quotes.three.chars <+:
              c :: more.flatMap escapeLongChar ++ (Quotes.three.chars ++ rest) :=
            fun closes => opened (infix_of_closes (List.cons_ne_nil _ _) closes)
          rw [List.append_assoc]
          refine (read_plain goesOn (by simpa using backslash) fun _ => rfl).trans ?_
          exact congrArg (Option.map (push c)) (ih later)

/-! ### Reading literals back -/

namespace Literal

/-- Nothing in a literal closes it before its end. -/
def StaysOpen : Literal → Prop
  | .short _ => True
  | .long value => ¬Quotes.three.chars <:+: value.toList.flatMap escapeLongChar ++ ['"', '"']

/-- A literal reads back as its value, unless a quote comes right after it. -/
theorem readLiteral_text {literal : Literal} {rest : List Char} (opened : literal.StaysOpen)
    (apart : rest.head? ≠ some '"') :
    readLiteral (literal.text.toList ++ rest) = some (literal.value.toList, rest) := by
  cases literal with
  | short value =>
      have letters : (Literal.short value).text.toList ++ rest =
          '"' :: (value.toList.flatMap escapeChar ++ '"' :: rest) := by
        simp [text, stringLiteral]
      rw [letters]
      exact readLiteral_short value.toList apart
  | long value =>
      have letters : (Literal.long value).text.toList ++ rest = '"' :: '"' :: '"' ::
          (value.toList.flatMap escapeLongChar ++ (Quotes.three.chars ++ rest)) := by
        simp [text, longStringLiteral, Quotes.chars]
      rw [letters]
      exact Quotes.read_long rest opened

/-- No new line is written into a literal, unless one in three quotes has it in its value. -/
theorem newLine_notMem_text {literal : Literal}
    (line : ∀ value, literal = .long value → '\n' ∉ value.toList) : '\n' ∉ literal.text.toList := by
  cases literal with
  | short value =>
      have letters : (Literal.short value).text.toList =
          '"' :: (value.toList.flatMap escapeChar ++ ['"']) := by simp [text, stringLiteral]
      rw [letters]
      simp [newLine_notMem_escapeChar]
  | long value =>
      have letters : (Literal.long value).text.toList =
          Quotes.three.chars ++ value.toList.flatMap escapeLongChar ++ Quotes.three.chars := by
        simp [text, longStringLiteral, Quotes.chars]
      have each (c : Char) (member : c ∈ value.toList) : '\n' ∉ escapeLongChar c := by
        have plain : c ≠ '\n' := fun same => line value rfl (same ▸ member)
        unfold escapeLongChar
        split <;> simp [Ne.symm plain]
      rw [letters]
      simpa [Quotes.chars] using each

end Literal

end ElmClient.Elm
