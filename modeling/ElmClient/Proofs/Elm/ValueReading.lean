/-
Module: ElmClient.Proofs.Elm.ValueReading
Purpose: The text of a value tells which value it is. What a value starts with tells its kind, and
  what may stand after a value never goes on with it, so two values whose texts are followed by
  anything are the same if the whole texts are.
Main exports: Text.toDigits_inj, Text.quote_unique, Text.IsPlainName, Value.Legible, FollowsValue,
  Value.Tells, Value.Legible.tells, Value.eq_of_text_eq
-/
import ElmClient.Elm.Value
import ElmClient.Proofs.Elm.Identifiers
import ElmClient.Proofs.QueryText.Reading

namespace ElmClient

namespace Text

/-! ### Numbers -/

theorem digitChar_inj {m n : Nat} (small : m < 16) (small' : n < 16)
    (same : m.digitChar = n.digitChar) : m = n := by
  have table : ∀ i < 16, ∀ j < 16, i.digitChar = j.digitChar → i = j := by decide
  exact table m small n small' same

/-- A number has its own digits, in every base that has a character for each digit. -/
theorem toDigits_inj {b m n : Nat} (base : 1 < b) (few : b ≤ 16)
    (same : Nat.toDigits b m = Nat.toDigits b n) : m = n := by
  induction m using Nat.strongRecOn generalizing n with
  | ind m ih =>
      rcases Nat.lt_or_ge m b with small | large <;> rcases Nat.lt_or_ge n b with small' | large'
      · rw [Nat.toDigits_of_lt_base small, Nat.toDigits_of_lt_base small'] at same
        exact digitChar_inj (by omega) (by omega) (List.singleton_inj.mp same)
      · rw [Nat.toDigits_of_lt_base small, Nat.toDigits_of_base_le base large'] at same
        exact absurd (List.append_eq_singleton_iff.mp same.symm) (by simp)
      · rw [Nat.toDigits_of_base_le base large, Nat.toDigits_of_lt_base small'] at same
        exact absurd (List.append_eq_singleton_iff.mp same) (by simp)
      · rw [Nat.toDigits_of_base_le base large, Nat.toDigits_of_base_le base large'] at same
        obtain ⟨front, last⟩ := List.append_inj' same rfl
        have quotients := ih (m / b) (Nat.div_lt_self (by omega) base) front
        have remainders := digitChar_inj (Nat.lt_of_lt_of_le (Nat.mod_lt _ (by omega)) few)
          (Nat.lt_of_lt_of_le (Nat.mod_lt _ (by omega)) few) (List.singleton_inj.mp last)
        rw [← Nat.div_add_mod m b, ← Nat.div_add_mod n b, quotients, remainders]

theorem exists_digitChar_of_mem_toDigits {b n : Nat} {c : Char} (base : 1 < b)
    (member : c ∈ Nat.toDigits b n) : ∃ digit : Nat, c = digit.digitChar := by
  induction n using Nat.strongRecOn with
  | ind n ih =>
      rcases Nat.lt_or_ge n b with small | large
      · rw [Nat.toDigits_of_lt_base small] at member
        exact ⟨n, List.mem_singleton.mp member⟩
      · rw [Nat.toDigits_of_base_le base large] at member
        rcases List.mem_append.mp member with front | last
        · exact ih (n / b) (Nat.div_lt_self (by omega) base) front
        · exact ⟨n % b, List.mem_singleton.mp last⟩

/-! ### Parts of texts -/

/-- Where two texts start with letters that pass a test and go on with one that does not, letters
and rests are the same. -/
theorem span_unique {test : Char → Bool} {first second rest rest' : List Char}
    (passes : ∀ c ∈ first, test c = true) (passes' : ∀ c ∈ second, test c = true)
    (ends : ∀ c ∈ rest.head?, test c = false) (ends' : ∀ c ∈ rest'.head?, test c = false)
    (same : first ++ rest = second ++ rest') : first = second ∧ rest = rest' := by
  have stops {text : List Char} (ends : ∀ c ∈ text.head?, test c = false) :
      text.takeWhile test = [] := by
    cases text with
    | nil => rfl
    | cons c more => exact List.takeWhile_cons_of_neg (by simp [ends c rfl])
  have letters := congrArg (List.takeWhile test) same
  rw [List.takeWhile_append_of_pos passes, List.takeWhile_append_of_pos passes', stops ends,
    stops ends', List.append_nil, List.append_nil] at letters
  subst letters
  exact ⟨rfl, List.append_cancel_left same⟩

/-! ### Quoted texts -/

/-- The characters that are written as a backslash with a letter. -/
def shortEscapes : List (Char × Char) :=
  [('"', '"'), ('\\', '\\'), ('\n', 'n'), ('\r', 'r'), ('\t', 't'), ('\x00', '0')]

/-- The three ways in which a character is quoted. -/
inductive QuotedAs (c : Char) : List Char → Prop where
  | short {letter} (listed : (c, letter) ∈ shortEscapes) : QuotedAs c ['\\', letter]
  | plain (noQuote : c ≠ '"') (noBackslash : c ≠ '\\') : QuotedAs c [c]
  | number : QuotedAs c ('\\' :: 'u' :: '\x7b' :: (hexDigits c.toNat ++ ['\x7d']))

theorem quotedAs_quoteChar (c : Char) : QuotedAs c (quoteChar c) := by
  unfold quoteChar
  split
  · next quote =>
      obtain rfl := beq_iff_eq.mp quote
      exact .short (by decide)
  split
  · next backslash =>
      obtain rfl := beq_iff_eq.mp backslash
      exact .short (by decide)
  split
  · next newLine =>
      obtain rfl := beq_iff_eq.mp newLine
      exact .short (by decide)
  split
  · next back =>
      obtain rfl := beq_iff_eq.mp back
      exact .short (by decide)
  split
  · next tab =>
      obtain rfl := beq_iff_eq.mp tab
      exact .short (by decide)
  split
  · next zero =>
      obtain rfl : c = '\x00' := Char.toNat_inj.mp (beq_iff_eq.mp zero)
      exact .short (by decide)
  split
  · next noQuote noBackslash _ _ _ _ _ =>
      exact .plain (by simpa using noQuote) (by simpa using noBackslash)
  · exact .number

variable {c d : Char} {text text' rest rest' : List Char}

theorem QuotedAs.exists_cons (quoted : QuotedAs c text) :
    ∃ first more, text = first :: more ∧ first ≠ '"' := by
  cases quoted with
  | short | number => exact ⟨_, _, rfl, by decide⟩
  | plain noQuote _ => exact ⟨_, _, rfl, noQuote⟩

/-- The number of a character ends before its brace. -/
theorem hexDigits_unique {m n : Nat}
    (same : hexDigits m ++ '\x7d' :: rest = hexDigits n ++ '\x7d' :: rest') :
    m = n ∧ rest = rest' := by
  have noBrace (i : Nat) : ∀ digit ∈ hexDigits i, (digit != '\x7d') = true := by
    intro digit member
    obtain ⟨j, rfl⟩ := exists_digitChar_of_mem_toDigits (by decide) member
    exact bne_iff_ne.mpr (Nat.digitChar_ne _ (by decide))
  obtain ⟨digits, rests⟩ := span_unique (noBrace m) (noBrace n) (by simp) (by simp) same
  exact ⟨toDigits_inj (by decide) (by decide) digits, (List.cons.inj rests).2⟩

/-- A quoted character ends where the next one starts. -/
theorem QuotedAs.unique (quoted : QuotedAs c text) (quoted' : QuotedAs d text')
    (same : text ++ rest = text' ++ rest') : c = d ∧ rest = rest' := by
  have distinct : ∀ one ∈ shortEscapes, ∀ other ∈ shortEscapes, one.2 = other.2 → one = other := by
    decide
  have noNumber : ∀ entry ∈ shortEscapes, entry.2 ≠ 'u' := by decide
  cases quoted with
  | short listed =>
      cases quoted' with
      | short listed' =>
          obtain ⟨letters, rests⟩ := List.cons.inj (List.cons.inj same).2
          exact ⟨congrArg Prod.fst (distinct _ listed _ listed' letters), rests⟩
      | plain _ noBackslash => exact absurd (List.cons.inj same).1.symm noBackslash
      | number =>
          exact absurd (List.cons.inj (List.cons.inj same).2).1 (noNumber _ listed)
  | plain _ noBackslash =>
      cases quoted' with
      | plain => exact List.cons.inj same
      | short | number => exact absurd (List.cons.inj same).1 noBackslash
  | number =>
      cases quoted' with
      | short listed' =>
          exact absurd (List.cons.inj (List.cons.inj same).2).1.symm (noNumber _ listed')
      | plain _ noBackslash => exact absurd (List.cons.inj same).1.symm noBackslash
      | number =>
          have digits : hexDigits c.toNat ++ '\x7d' :: rest =
              hexDigits d.toNat ++ '\x7d' :: rest' := by simpa using same
          obtain ⟨codes, rests⟩ := hexDigits_unique digits
          exact ⟨Char.toNat_inj.mp codes, rests⟩

theorem flatMap_quoteChar_unique {chars chars' : List Char}
    (same : chars.flatMap quoteChar ++ '"' :: rest = chars'.flatMap quoteChar ++ '"' :: rest') :
    chars = chars' ∧ rest = rest' := by
  induction chars generalizing chars' with
  | nil =>
      cases chars' with
      | nil => exact ⟨rfl, (List.cons.inj same).2⟩
      | cons d more =>
          obtain ⟨first, _, split, noQuote⟩ := (quotedAs_quoteChar d).exists_cons
          rw [List.flatMap_cons, split] at same
          exact absurd (List.cons.inj same).1.symm noQuote
  | cons c more ih =>
      cases chars' with
      | nil =>
          obtain ⟨first, _, split, noQuote⟩ := (quotedAs_quoteChar c).exists_cons
          rw [List.flatMap_cons, split] at same
          exact absurd (List.cons.inj same).1 noQuote
      | cons d more' =>
          rw [List.flatMap_cons, List.flatMap_cons, List.append_assoc, List.append_assoc] at same
          obtain ⟨rfl, later⟩ := (quotedAs_quoteChar c).unique (quotedAs_quoteChar d) same
          obtain ⟨rfl, rests⟩ := ih later
          exact ⟨rfl, rests⟩

/-- A text in quotes ends where the text after it starts. -/
theorem quote_unique {value value' : String}
    (same : (quote value).toList ++ rest = (quote value').toList ++ rest') :
    value = value' ∧ rest = rest' := by
  have inside : value.toList.flatMap quoteChar ++ '"' :: rest =
      value'.toList.flatMap quoteChar ++ '"' :: rest' := by
    simpa [quote] using same
  obtain ⟨chars, rests⟩ := flatMap_quoteChar_unique inside
  exact ⟨String.toList_injective chars, rests⟩

/-! ### Names in values -/

/-- The characters of values that stand between names and numbers, or before them. -/
def valueMarks : List Char :=
  [' ', ',', '.', '-', '"', '(', ')', '[', ']', '\x7b', '\x7d']

/-- Whether a character goes on a name or a number. -/
def goesOn (c : Char) : Bool := c ∉ valueMarks

/-- A name that does not start like a number and has none of the marks of values in it. -/
structure IsPlainName (name : String) : Prop where
  starts : startsWith (fun c => !c.isDigit) name = true
  goesOn : ∀ c ∈ name.toList, goesOn c = true

instance (name : String) : Decidable (IsPlainName name) :=
  decidable_of_iff
    (startsWith (fun c => !c.isDigit) name = true ∧ ∀ c ∈ name.toList, Text.goesOn c = true)
    ⟨fun ⟨starts, goesOn⟩ => ⟨starts, goesOn⟩, fun ⟨starts, goesOn⟩ => ⟨starts, goesOn⟩⟩

theorem goesOn_of_continuesName {c : Char} (continues : GraphQL.Reader.continuesName c = true) :
    goesOn c = true := by
  apply of_continuesName (by decide) c continues

/-- Identifiers are plain names, whether they are capitalized or not. -/
theorem isPlainName_of_isWord {name : String} (first : startsWith Char.isAlpha name = true)
    (word : IsWord name) : IsPlainName name where
  starts := by
    have noDigit {c : Char} (continues : GraphQL.Reader.continuesName c = true) :
        c.isAlpha = true → c.isDigit = false := by
      apply of_continuesName (by decide) c continues
    unfold startsWith at first ⊢
    cases letters : name.toList with
    | nil => simp [letters] at first
    | cons c rest =>
        have alpha : c.isAlpha = true := by simpa [letters] using first
        simp [noDigit (word c (by simp [letters])) alpha]
  goesOn c member := goesOn_of_continuesName (word c member)

/-- A text that goes on with no name and no number. -/
def Stops (rest : List Char) : Prop := ∀ c ∈ rest.head?, goesOn c = false

theorem Stops.nil : Stops [] := by simp [Stops]

theorem Stops.cons {c : Char} {rest : List Char} (mark : goesOn c = false) : Stops (c :: rest) := by
  simpa [Stops] using mark

variable {rest rest' : List Char}

/-- A name ends at the first mark after it. -/
theorem IsPlainName.unique {name name' : String} (plain : IsPlainName name)
    (plain' : IsPlainName name') (stops : Stops rest) (stops' : Stops rest')
    (same : name.toList ++ rest = name'.toList ++ rest') : name = name' ∧ rest = rest' := by
  obtain ⟨letters, rests⟩ := span_unique plain.goesOn plain'.goesOn stops stops' same
  exact ⟨String.toList_injective letters, rests⟩

theorem goesOn_of_mem_toDigits {n : Nat} {c : Char} (member : c ∈ Nat.toDigits 10 n) :
    goesOn c = true := by
  have digit := Nat.isDigit_of_mem_toDigits (by decide) (by decide) member
  exact goesOn_of_continuesName
    (by simp [GraphQL.Reader.continuesName, Char.isAlphanum, digit])

theorem toDigits_unique {m n : Nat} (stops : Stops rest) (stops' : Stops rest')
    (same : Nat.toDigits 10 m ++ rest = Nat.toDigits 10 n ++ rest') : m = n ∧ rest = rest' := by
  obtain ⟨digits, rests⟩ := span_unique (fun _ => goesOn_of_mem_toDigits)
    (fun _ => goesOn_of_mem_toDigits) stops stops' same
  exact ⟨toDigits_inj (by decide) (by decide) digits, rests⟩

theorem exists_toDigits_cons (n : Nat) :
    ∃ c more, Nat.toDigits 10 n = c :: more ∧ c.isDigit = true := by
  obtain ⟨c, more, digits⟩ := List.exists_cons_of_ne_nil (Nat.toDigits_ne_nil (b := 10) (n := n))
  exact ⟨c, more, digits, Nat.isDigit_of_mem_toDigits (by decide) (by decide)
    (digits ▸ List.mem_cons_self)⟩

/-- Only a negative number has a sign. -/
theorem toDigits_append_ne_minus {m : Nat} : Nat.toDigits 10 m ++ rest ≠ '-' :: rest' := by
  obtain ⟨c, more, digits, digit⟩ := exists_toDigits_cons m
  rw [digits]
  intro same
  obtain rfl := (List.cons.inj same).1
  exact absurd digit (by decide)

theorem toList_toString_ofNat (n : Nat) : (toString (Int.ofNat n)).toList = Nat.toDigits 10 n := by
  simp [Int.repr]

theorem toList_toString_negSucc (n : Nat) :
    (toString (Int.negSucc n)).toList = '-' :: Nat.toDigits 10 (n + 1) := by
  simp [Int.repr]

/-- A number ends at the first mark after it. -/
theorem toString_int_unique {m n : Int} (stops : Stops rest) (stops' : Stops rest')
    (same : (toString m).toList ++ rest = (toString n).toList ++ rest') :
    m = n ∧ rest = rest' := by
  cases m with
  | ofNat m =>
      rw [toList_toString_ofNat] at same
      cases n with
      | ofNat n =>
          rw [toList_toString_ofNat] at same
          obtain ⟨rfl, rests⟩ := toDigits_unique stops stops' same
          exact ⟨rfl, rests⟩
      | negSucc n =>
          rw [toList_toString_negSucc] at same
          exact absurd same toDigits_append_ne_minus
  | negSucc m =>
      rw [toList_toString_negSucc] at same
      cases n with
      | ofNat n =>
          rw [toList_toString_ofNat] at same
          exact absurd same.symm toDigits_append_ne_minus
      | negSucc n =>
          rw [toList_toString_negSucc] at same
          obtain ⟨digits, rests⟩ := toDigits_unique stops stops' (List.cons.inj same).2
          obtain rfl := Nat.succ.inj digits
          exact ⟨rfl, rests⟩

theorem exists_toString_int_cons (n : Int) :
    ∃ c more, (toString n).toList = c :: more ∧ (c.isDigit = true ∨ c = '-') := by
  cases n with
  | ofNat n =>
      obtain ⟨c, more, digits, digit⟩ := exists_toDigits_cons n
      exact ⟨c, more, (toList_toString_ofNat n).trans digits, .inl digit⟩
  | negSucc n => exact ⟨_, _, toList_toString_negSucc n, .inr rfl⟩

end Text

namespace Elm

open Text (IsPlainName Stops)

/-! ### Parts of values -/

namespace Value

/-- The values right inside a value. -/
def parts : Value → List Value
  | .just inner => [inner]
  | .list items => items
  | .record fields => fields.map (·.2)
  | .variant _ payload => [payload]
  | _ => []

/-- The constructors that are no names of tags or of variants. -/
def builtIn : List String := ["Just", "Nothing", "True", "False"]

/-- What can be told from a text of a value itself, beside the values in it: it is no float, and its
names are plain and not taken by other values. -/
def OwnLegible : Value → Prop
  | .float _ => False
  | .tag name => IsPlainName name ∧ name ∉ builtIn
  | .variant constructor _ => IsPlainName constructor ∧ constructor ∉ builtIn
  | .record fields => ∀ field ∈ fields, IsPlainName field.1
  | _ => True

instance : (value : Value) → Decidable value.OwnLegible
  | .float _ => .isFalse id
  | .tag name => inferInstanceAs (Decidable (IsPlainName name ∧ name ∉ builtIn))
  | .variant constructor _ =>
      inferInstanceAs (Decidable (IsPlainName constructor ∧ constructor ∉ builtIn))
  | .record fields => inferInstanceAs (Decidable (∀ field ∈ fields, IsPlainName field.1))
  | .int _ | .bool _ | .string _ | .posix _ | .nothing | .just _ | .list _ => .isTrue trivial

/-- No float stands in a value, and all of its names are legible. -/
inductive Legible : Value → Prop where
  | intro {value : Value} (own : value.OwnLegible) (parts : ∀ part ∈ value.parts, part.Legible) :
      Legible value

theorem Legible.own {value : Value} : value.Legible → value.OwnLegible
  | .intro own _ => own

theorem Legible.part {value part : Value} (among : part ∈ value.parts) :
    value.Legible → part.Legible
  | .intro _ parts => parts part among

/-! ### Texts as characters -/

theorem itemTexts_eq_map (items : List Value) : itemTexts items = items.map text := by
  induction items with
  | nil => rfl
  | cons first rest ih => rw [itemTexts, ih, List.map_cons]

/-- The characters of a field of a record. -/
def fieldChars (field : String × Value) : List Char :=
  field.1.toList ++ ([' ', '=', ' '] ++ field.2.text.toList)

theorem map_toList_fieldTexts (fields : List (String × Value)) :
    (fieldTexts fields).map String.toList = fields.map fieldChars := by
  induction fields with
  | nil => rfl
  | cons first rest ih =>
      rw [fieldTexts, List.map_cons, ih, List.map_cons, fieldChars, String.toList_append,
        String.toList_append, List.append_assoc]
      rfl

theorem toList_text_string (s : String) :
    (string s).text.toList = '"' :: (s.toList.flatMap Text.quoteChar ++ ['"']) :=
  String.toList_ofList

theorem toList_text_list (items : List Value) : (list items).text.toList =
    '[' :: ([','].intercalate (items.map (·.text.toList)) ++ [']']) := by
  have texts : (itemTexts items).map String.toList = items.map (·.text.toList) := by
    rw [itemTexts_eq_map, List.map_map]
    rfl
  change ("[" ++ ",".intercalate (itemTexts items) ++ "]").toList = _
  rw [String.toList_append, String.toList_append, String.toList_intercalate, texts]
  rfl

theorem toList_text_record (first : String × Value) (others : List (String × Value)) :
    (record (first :: others)).text.toList =
      '\x7b' :: ' ' :: ([',', ' '].intercalate ((first :: others).map fieldChars) ++
        [' ', '\x7d']) := by
  change ("\x7b " ++ ", ".intercalate (fieldTexts (first :: others)) ++ " \x7d").toList = _
  rw [String.toList_append, String.toList_append, String.toList_intercalate,
    map_toList_fieldTexts]
  rfl

end Value

/-! ### What values start with -/

/-- The kinds of values, by their first character. -/
inductive Opening where
  | number
  | quote
  | bracket
  | brace
  | word
  | mark
deriving DecidableEq, Repr

/-- The kind of values that start with a character. No value starts with a mark. -/
def opening (c : Char) : Opening :=
  if c.isDigit || c == '-' then .number
  else if c == '"' then .quote
  else if c == '[' then .bracket
  else if c == '\x7b' then .brace
  else if Text.goesOn c then .word
  else .mark

theorem opening_of_plain {c : Char} (noDigit : c.isDigit = false) (goesOn : Text.goesOn c = true) :
    opening c = .word := by
  have noMark : ∀ mark ∈ Text.valueMarks, c ≠ mark := by
    rintro mark member rfl
    simp [Text.goesOn, member] at goesOn
  simp [opening, noDigit, goesOn, noMark '-' (by decide), noMark '"' (by decide),
    noMark '[' (by decide), noMark '\x7b' (by decide)]

namespace Value

/-- What a value starts with. -/
def opening : Value → Opening
  | .int _ | .float _ => .number
  | .string _ => .quote
  | .list _ => .bracket
  | .record _ => .brace
  | .bool _ | .posix _ | .tag _ | .nothing | .just _ | .variant _ _ => .word

/-- What follows the word that a value starts with: nothing, the milliseconds of a time, or an
argument. -/
inductive Complement where
  | nothing
  | time (milliseconds : Int)
  | argument (value : Value)

/-- The text that follows a word. -/
def Complement.text : Complement → String
  | .nothing => ""
  | .time milliseconds => ".millisToPosix " ++ toString milliseconds
  | .argument value => " " ++ asArgument value value.text

/-- The values in a complement. -/
def Complement.arguments : Complement → List Value
  | .argument value => [value]
  | _ => []

/-- A value is a word with what follows it. -/
inductive Phrased : Value → String → Complement → Prop where
  | bool (b : Bool) : Phrased (.bool b) (if b then "True" else "False") .nothing
  | posix (milliseconds : Int) : Phrased (.posix milliseconds) "Time" (.time milliseconds)
  | tag (name : String) : Phrased (.tag name) name .nothing
  | nothing : Phrased .nothing "Nothing" .nothing
  | just (inner : Value) : Phrased (.just inner) "Just" (.argument inner)
  | variant (constructor : String) (payload : Value) :
      Phrased (.variant constructor payload) constructor (.argument payload)

variable {v w : Value} {word : String} {complement : Complement}

theorem exists_phrased (opens : v.opening = .word) :
    ∃ word complement, v.Phrased word complement := by
  cases v with
  | bool => exact ⟨_, _, .bool _⟩
  | posix => exact ⟨_, _, .posix _⟩
  | tag => exact ⟨_, _, .tag _⟩
  | nothing => exact ⟨_, _, .nothing⟩
  | just => exact ⟨_, _, .just _⟩
  | variant => exact ⟨_, _, .variant _ _⟩
  | _ => cases opens

theorem Phrased.text_eq (phrased : v.Phrased word complement) :
    v.text = word ++ complement.text := by
  cases phrased with
  | bool b =>
      rw [Complement.text, String.append_empty]
      cases b <;> rfl
  | tag | nothing => exact String.append_empty.symm
  | posix | just | variant =>
      rw [Complement.text, ← String.append_assoc]
      rfl

/-- The value of a word and what follows it. -/
def ofPhrase (word : String) : Complement → Value
  | .nothing =>
      if word = "True" then .bool true
      else if word = "False" then .bool false
      else if word = "Nothing" then .nothing
      else .tag word
  | .time milliseconds => .posix milliseconds
  | .argument value => if word = "Just" then .just value else .variant word value

theorem Phrased.ofPhrase_eq (phrased : v.Phrased word complement) (legible : v.OwnLegible) :
    ofPhrase word complement = v := by
  cases phrased with
  | bool b => cases b <;> rfl
  | posix | nothing | just => rfl
  | tag | variant =>
      obtain ⟨_, free⟩ := legible
      simp only [builtIn, List.mem_cons, List.not_mem_nil, or_false, not_or] at free
      simp [ofPhrase, free]

theorem Phrased.isPlainName (phrased : v.Phrased word complement) (legible : v.OwnLegible) :
    IsPlainName word := by
  cases phrased with
  | bool b => cases b <;> decide
  | posix | nothing | just => decide
  | tag | variant => exact legible.1

theorem Phrased.arguments_eq (phrased : v.Phrased word complement) :
    complement.arguments = v.parts := by
  cases phrased <;> rfl

theorem exists_opening_of_word (legible : v.OwnLegible) (opens : v.opening = .word) :
    ∃ c more, v.text.toList = c :: more ∧ Elm.opening c = .word := by
  obtain ⟨word, complement, phrased⟩ := exists_phrased opens
  obtain ⟨starts, goesOn⟩ := phrased.isPlainName legible
  cases letters : word.toList with
  | nil => simp [Text.startsWith, letters] at starts
  | cons c more =>
      refine ⟨c, more ++ complement.text.toList, ?_, opening_of_plain ?_ (goesOn c ?_)⟩
      · rw [phrased.text_eq, String.toList_append, letters, List.cons_append]
      · simpa [Text.startsWith, letters] using starts
      · exact letters ▸ List.mem_cons_self

/-- The first character of a value tells its kind. -/
theorem exists_opening (legible : v.OwnLegible) :
    ∃ c more, v.text.toList = c :: more ∧ Elm.opening c = v.opening := by
  cases v with
  | int n =>
      obtain ⟨c, more, split, digit | rfl⟩ := Text.exists_toString_int_cons n
      · exact ⟨c, more, split, by simp [Elm.opening, digit, opening]⟩
      · exact ⟨_, more, split, rfl⟩
  | float => exact legible.elim
  | string s => exact ⟨_, _, toList_text_string s, rfl⟩
  | list items => exact ⟨_, _, toList_text_list items, rfl⟩
  | record fields =>
      cases fields with
      | nil => exact ⟨'\x7b', ['\x7d'], rfl, rfl⟩
      | cons first others => exact ⟨_, _, toList_text_record first others, rfl⟩
  | bool | posix | tag | nothing | just | variant => exact exists_opening_of_word legible rfl

end Value

/-! ### What stands after values -/

/-- A text that may stand after a value: it ends here, or an item, an argument, a list or a record
does. -/
inductive FollowsValue : List Char → Prop where
  | nil : FollowsValue []
  | mark {c rest} (closes : c ∈ [',', ')', ']']) : FollowsValue (c :: rest)
  | brace {rest} : FollowsValue (' ' :: '\x7d' :: rest)

theorem FollowsValue.stops {rest : List Char} (follows : FollowsValue rest) : Stops rest := by
  cases follows with
  | nil => exact .nil
  | mark closes => exact .cons ((by decide : ∀ c ∈ [',', ')', ']'], Text.goesOn c = false) _ closes)
  | brace => exact .cons (by decide)

/-- Where texts start that are put in a row, each is told from its own text and what may stand after
it. -/
def IsTold {α : Type} (chars : α → List Char) (item other : α) : Prop :=
  ∀ {rest rest' : List Char}, FollowsValue rest → FollowsValue rest' →
    chars item ++ rest = chars other ++ rest' → item = other ∧ rest = rest'

/-- Between the items of a row stands a gap, and after the last one something else. -/
structure Separates (gap close : List Char) : Prop where
  apart : ∀ {rest rest'}, gap ++ rest ≠ close ++ rest'
  gap_follows : ∀ rest, FollowsValue (gap ++ rest)
  close_follows : ∀ rest, FollowsValue (close ++ rest)

section Rows

variable {α : Type} {chars : α → List Char} {gap close rest rest' : List Char}

theorem Separates.follows (separates : Separates gap close) (items : List α) :
    FollowsValue (items.flatMap (gap ++ chars ·) ++ (close ++ rest)) := by
  cases items with
  | nil => exact separates.close_follows _
  | cons item items =>
      rw [List.flatMap_cons, List.append_assoc, List.append_assoc]
      exact separates.gap_follows _

/-- Rows whose items are told are told themselves. -/
theorem Separates.flatMap_unique (separates : Separates gap close) {items others : List α}
    (told : ∀ item ∈ items, ∀ other ∈ others, IsTold chars item other)
    (same : items.flatMap (gap ++ chars ·) ++ (close ++ rest) =
      others.flatMap (gap ++ chars ·) ++ (close ++ rest')) : items = others ∧ rest = rest' := by
  induction items generalizing others with
  | nil =>
      cases others with
      | nil => exact ⟨rfl, List.append_cancel_left same⟩
      | cons other others =>
          rw [List.flatMap_cons, List.append_assoc, List.append_assoc] at same
          exact absurd same.symm separates.apart
  | cons item items ih =>
      cases others with
      | nil =>
          rw [List.flatMap_cons, List.append_assoc, List.append_assoc] at same
          exact absurd same separates.apart
      | cons other others =>
          simp only [List.flatMap_cons, List.append_assoc, List.append_cancel_left_eq] at same
          obtain ⟨rfl, later⟩ := told item List.mem_cons_self other List.mem_cons_self
            (separates.follows items) (separates.follows others) same
          obtain ⟨rfl, rests⟩ := ih (fun item member other member' =>
            told item (.tail _ member) other (.tail _ member')) later
          exact ⟨rfl, rests⟩

theorem Separates.intercalate_unique (separates : Separates gap close) {first first' : α}
    {items others : List α}
    (told : ∀ item ∈ first :: items, ∀ other ∈ first' :: others, IsTold chars item other)
    (same : gap.intercalate ((first :: items).map chars) ++ (close ++ rest) =
      gap.intercalate ((first' :: others).map chars) ++ (close ++ rest')) :
    first :: items = first' :: others ∧ rest = rest' := by
  simp only [List.map_cons, GraphQL.Reader.intercalate_cons, List.flatMap_map, List.append_assoc]
    at same
  obtain ⟨rfl, later⟩ := told first List.mem_cons_self first' List.mem_cons_self
    (separates.follows items) (separates.follows others) same
  obtain ⟨rfl, rests⟩ := separates.flatMap_unique (fun item member other member' =>
    told item (.tail _ member) other (.tail _ member')) later
  exact ⟨rfl, rests⟩

end Rows

theorem separates_items : Separates [','] [']'] where
  apart := by simp
  gap_follows _ := .mark (by decide)
  close_follows _ := .mark (by decide)

theorem separates_fields : Separates [',', ' '] [' ', '\x7d'] where
  apart := by simp
  gap_follows _ := .mark (by decide)
  close_follows _ := .brace

namespace Value

/-- A value is told from every legible value by its text and what may stand after it. -/
def Tells (v : Value) : Prop := ∀ w : Value, w.Legible → IsTold (·.text.toList) v w

variable {v w : Value} {word : String} {complement : Complement} {rest rest' : List Char}

theorem opening_eq (legible : v.OwnLegible) (legible' : w.OwnLegible)
    (same : v.text.toList ++ rest = w.text.toList ++ rest') : v.opening = w.opening := by
  obtain ⟨c, more, split, opens⟩ := exists_opening legible
  obtain ⟨d, more', split', opens'⟩ := exists_opening legible'
  rw [split, split'] at same
  rw [← opens, ← opens', (List.cons.inj same).1]

/-- No value starts with a mark. -/
theorem toList_text_append_ne {c : Char} (legible : v.OwnLegible) (mark : Elm.opening c = .mark) :
    v.text.toList ++ rest ≠ c :: rest' := by
  obtain ⟨d, more, split, opens⟩ := exists_opening legible
  rw [split]
  intro same
  obtain rfl := (List.cons.inj same).1
  rw [mark] at opens
  cases v <;> cases opens

theorem toList_asArgument (v : Value) : (asArgument v v.text).toList =
    if v.isAtomic then v.text.toList else '(' :: (v.text.toList ++ [')']) := by
  unfold asArgument
  split
  · rfl
  · rw [String.toList_append, String.toList_append]
    rfl

/-- A value that is told is told as an argument too, where it may stand in parentheses. -/
theorem Tells.argument (tells : v.Tells) (legible : v.Legible) (legible' : w.Legible) :
    IsTold (fun value : Value => (asArgument value value.text).toList) v w := by
  intro rest rest' follows follows' same
  simp only [toList_asArgument] at same
  by_cases atomic : v.isAtomic <;> by_cases atomic' : w.isAtomic <;>
    simp only [atomic, atomic', if_true, Bool.false_eq_true, if_false] at same
  · exact tells w legible' follows follows' same
  · exact absurd same (toList_text_append_ne legible.own rfl)
  · exact absurd same.symm (toList_text_append_ne legible'.own rfl)
  · have closes (rest : List Char) : FollowsValue (')' :: rest) := .mark (by decide)
    obtain ⟨rfl, closed⟩ := tells w legible' (closes rest) (closes rest') (by simpa using same)
    exact ⟨rfl, (List.cons.inj closed).2⟩

/-- No argument is a closing brace. -/
theorem toList_asArgument_append_ne (legible : v.OwnLegible) :
    (asArgument v v.text).toList ++ rest ≠ '\x7d' :: rest' := by
  rw [toList_asArgument]
  split
  · exact toList_text_append_ne legible rfl
  · simp

theorem Complement.stops (complement : Complement) (follows : FollowsValue rest) :
    Stops (complement.text.toList ++ rest) := by
  cases complement with
  | nothing => exact follows.stops
  | time | argument =>
      rw [text, String.toList_append]
      exact .cons (by decide)

/-- Where nothing but what may stand after a value follows a word, it has no complement. -/
theorem Complement.eq_nothing {complement : Complement}
    (legible : ∀ v ∈ complement.arguments, v.Legible) (follows : FollowsValue rest)
    (same : rest = complement.text.toList ++ rest') : complement = .nothing := by
  subst same
  cases complement with
  | nothing => rfl
  | time milliseconds =>
      rw [text, String.toList_append] at follows
      cases follows with
      | mark closes => exact absurd closes (by decide)
  | argument value =>
      rw [text, String.toList_append] at follows
      have value_legible := legible value List.mem_cons_self
      generalize inside : (asArgument value value.text).toList ++ rest' = chars
      have follows : FollowsValue (' ' :: chars) := by simpa [← inside] using follows
      cases follows with
      | mark closes => exact absurd closes (by decide)
      | brace => exact absurd inside (toList_asArgument_append_ne value_legible.own)

/-- What follows a word is told by its text and what may stand after it. -/
theorem Complement.isTold {complement complement' : Complement}
    (legible : ∀ v ∈ complement.arguments, v.Legible)
    (legible' : ∀ w ∈ complement'.arguments, w.Legible)
    (tells : ∀ v ∈ complement.arguments, v.Tells) :
    IsTold (·.text.toList) complement complement' := by
  intro rest rest' follows follows' same
  cases complement with
  | nothing =>
      obtain rfl := Complement.eq_nothing legible' follows same
      exact ⟨rfl, same⟩
  | time milliseconds =>
      cases complement' with
      | nothing => exact nomatch Complement.eq_nothing legible follows' same.symm
      | time milliseconds' =>
          simp only [text, String.toList_append, List.append_assoc] at same
          obtain ⟨rfl, rests⟩ := Text.toString_int_unique follows.stops follows'.stops
            (List.append_cancel_left same)
          exact ⟨rfl, rests⟩
      | argument =>
          simp only [text, String.toList_append, List.append_assoc] at same
          exact absurd (List.cons.inj same).1 (by decide)
  | argument value =>
      cases complement' with
      | nothing => exact nomatch Complement.eq_nothing legible follows' same.symm
      | time =>
          simp only [text, String.toList_append, List.append_assoc] at same
          exact absurd (List.cons.inj same).1 (by decide)
      | argument value' =>
          simp only [text, String.toList_append, List.append_assoc] at same
          obtain ⟨rfl, rests⟩ := (tells value List.mem_cons_self).argument
            (legible value List.mem_cons_self) (legible' value' List.mem_cons_self)
            follows follows' (List.append_cancel_left same)
          exact ⟨rfl, rests⟩

/-- A value that starts with a word is told if its argument is. -/
theorem Legible.tells_of_phrased (legible : v.Legible) (phrased : v.Phrased word complement)
    (below : ∀ part ∈ v.parts, part.Tells) : v.Tells := by
  intro w legible' rest rest' follows follows' same
  have opens : w.opening = .word := by
    rw [← opening_eq legible.own legible'.own same]
    cases phrased <;> rfl
  obtain ⟨word', complement', phrased'⟩ := exists_phrased opens
  simp only [phrased.text_eq, phrased'.text_eq, String.toList_append, List.append_assoc] at same
  obtain ⟨rfl, later⟩ := (phrased.isPlainName legible.own).unique
    (phrased'.isPlainName legible'.own) (complement.stops follows) (complement'.stops follows') same
  rw [← phrased.arguments_eq] at below
  obtain ⟨rfl, rests⟩ := Complement.isTold
    (fun _ among => legible.part (phrased.arguments_eq ▸ among))
    (fun _ among => legible'.part (phrased'.arguments_eq ▸ among)) below follows follows' later
  exact ⟨(phrased.ofPhrase_eq legible.own).symm.trans (phrased'.ofPhrase_eq legible'.own), rests⟩

/-- A list is told if its items are. -/
theorem list_unique {items others : List Value}
    (told : ∀ item ∈ items, item.Legible ∧ item.Tells) (legible' : ∀ other ∈ others, other.Legible)
    (same : (list items).text.toList ++ rest = (list others).text.toList ++ rest') :
    items = others ∧ rest = rest' := by
  simp only [toList_text_list, List.cons_append, List.append_assoc, List.cons.injEq, true_and]
    at same
  cases items with
  | nil =>
      cases others with
      | nil => exact ⟨rfl, (List.cons.inj same).2⟩
      | cons other others =>
          rw [List.map_cons, GraphQL.Reader.intercalate_cons, List.append_assoc] at same
          have other_legible := legible' other List.mem_cons_self
          exact absurd same.symm (toList_text_append_ne other_legible.own rfl)
  | cons item items =>
      cases others with
      | nil =>
          rw [List.map_cons, GraphQL.Reader.intercalate_cons, List.append_assoc] at same
          have item_legible := (told item List.mem_cons_self).1
          exact absurd same (toList_text_append_ne item_legible.own rfl)
      | cons other others =>
          exact separates_items.intercalate_unique (fun item member other member' =>
            (told item member).2 other (legible' other member')) same

/-- A field is told by its name and its value. -/
theorem Tells.field {field other : String × Value} (tells : field.2.Tells)
    (plain : IsPlainName field.1) (plain' : IsPlainName other.1) (legible' : other.2.Legible) :
    IsTold fieldChars field other := by
  intro rest rest' follows follows' same
  simp only [fieldChars, List.append_assoc] at same
  obtain ⟨name, later⟩ := plain.unique plain' (.cons (by decide)) (.cons (by decide)) same
  have values : field.2.text.toList ++ rest = other.2.text.toList ++ rest' := by simpa using later
  obtain ⟨value, rests⟩ := tells other.2 legible' follows follows' values
  exact ⟨Prod.ext name value, rests⟩

/-- A record is told if its fields are. -/
theorem record_unique {fields others : List (String × Value)}
    (told : ∀ field ∈ fields, ∀ other ∈ others, IsTold fieldChars field other)
    (same : (record fields).text.toList ++ rest = (record others).text.toList ++ rest') :
    fields = others ∧ rest = rest' := by
  cases fields with
  | nil =>
      cases others with
      | nil => exact ⟨rfl, List.append_cancel_left same⟩
      | cons other others =>
          rw [toList_text_record] at same
          exact absurd (List.cons.inj (List.cons.inj same).2).1 (by decide)
  | cons field fields =>
      cases others with
      | nil =>
          rw [toList_text_record] at same
          exact absurd (List.cons.inj (List.cons.inj same).2).1 (by decide)
      | cons other others =>
          simp only [toList_text_record, List.cons_append, List.append_assoc, List.cons.injEq,
            true_and] at same
          exact separates_fields.intercalate_unique told same

/-- Every legible value is told. -/
theorem Legible.tells (legible : v.Legible) : v.Tells := by
  induction legible with
  | @intro v own parts ih =>
  have legible : v.Legible := .intro own parts
  cases v with
  | int n =>
      intro w legible' rest rest' follows follows' same
      have opens := opening_eq own legible'.own same
      cases w with
      | int n' =>
          obtain ⟨rfl, rests⟩ := Text.toString_int_unique follows.stops follows'.stops same
          exact ⟨rfl, rests⟩
      | float => exact legible'.own.elim
      | _ => cases opens
  | float => exact own.elim
  | string s =>
      intro w legible' rest rest' follows follows' same
      have opens := opening_eq own legible'.own same
      cases w with
      | string s' =>
          obtain ⟨rfl, rests⟩ := Text.quote_unique same
          exact ⟨rfl, rests⟩
      | _ => cases opens
  | list items =>
      intro w legible' rest rest' follows follows' same
      have opens := opening_eq own legible'.own same
      cases w with
      | list items' =>
          obtain ⟨rfl, rests⟩ := list_unique (fun item among => ⟨parts item among, ih item among⟩)
            (fun item among => legible'.part among) same
          exact ⟨rfl, rests⟩
      | _ => cases opens
  | record fields =>
      intro w legible' rest rest' follows follows' same
      have opens := opening_eq own legible'.own same
      cases w with
      | record fields' =>
          have told : ∀ field ∈ fields, ∀ other ∈ fields', IsTold fieldChars field other :=
            fun field among other among' =>
              (ih field.2 (List.mem_map_of_mem among)).field (own field among)
                (legible'.own other among') (legible'.part (List.mem_map_of_mem among'))
          obtain ⟨rfl, rests⟩ := record_unique told same
          exact ⟨rfl, rests⟩
      | _ => cases opens
  | bool => exact legible.tells_of_phrased (.bool _) ih
  | posix => exact legible.tells_of_phrased (.posix _) ih
  | tag => exact legible.tells_of_phrased (.tag _) ih
  | nothing => exact legible.tells_of_phrased .nothing ih
  | just => exact legible.tells_of_phrased (.just _) ih
  | variant => exact legible.tells_of_phrased (.variant _ _) ih

/-- Values are told apart by their texts: values without floats, whose names are plain and not those
of built-in constructors, are the same if their texts are. -/
theorem eq_of_text_eq (legible : v.Legible) (legible' : w.Legible) (same : v.text = w.text) :
    v = w :=
  (legible.tells w legible' .nil .nil (congrArg (·.toList ++ []) same)).1

/-! ### A record with a quoted string -/

-- A tag with the name of a built-in constructor is not legible.
example : (Value.tag "Nothing").text = Value.nothing.text ∧ ¬(Value.tag "Nothing").OwnLegible := by
  decide

/-- A pet whose name has marks of values in it. -/
def petValue : Value :=
  .variant "Pet_Dog" (.record [("name", .just (.string "Rex, \"the\" ] \x7d")),
    ("born", .just (.posix (-1000))), ("ages", .list [.int (-1), .tag "Unknown"])])

/-- The same pet, made of fields of which one is given twice. -/
def petValueOfFields : Value :=
  .variant "Pet_Dog" (ofFields [("name", .just (.string "Rex, \"the\" ] \x7d")),
    ("born", .nothing), ("ages", .list [.int (-1), .tag "Unknown"]),
    ("born", .just (.posix (-1000)))])

theorem petValue_legible : petValue.Legible := by
  have leaf {value : Value} (own : value.OwnLegible) (alone : value.parts = []) : value.Legible :=
    .intro own (by simp [alone])
  have name : (Value.just (.string "Rex, \"the\" ] \x7d")).Legible :=
    .intro trivial (List.forall_mem_singleton.mpr (leaf trivial rfl))
  have born : (Value.just (.posix (-1000))).Legible :=
    .intro trivial (List.forall_mem_singleton.mpr (leaf trivial rfl))
  have ages : (Value.list [.int (-1), .tag "Unknown"]).Legible :=
    .intro trivial (List.forall_mem_cons.mpr ⟨leaf trivial rfl,
      List.forall_mem_singleton.mpr (leaf (by decide) rfl)⟩)
  have fields : (Value.record [("name", .just (.string "Rex, \"the\" ] \x7d")),
      ("born", .just (.posix (-1000))), ("ages", .list [.int (-1), .tag "Unknown"])]).Legible :=
    .intro (by decide) (by simpa [parts] using ⟨name, born, ages⟩)
  exact .intro ⟨Text.isPlainName_of_isWord (by decide) (by decide), by decide⟩
    (List.forall_mem_singleton.mpr fields)

theorem pet_eq_of_text_eq : petValue.Legible ∧ petValueOfFields.Legible ∧
    petValue.text = petValueOfFields.text ∧ petValue = petValueOfFields := by
  have legible : petValueOfFields.Legible := petValue_legible
  have same : petValue.text = petValueOfFields.text := by decide +kernel
  exact ⟨petValue_legible, legible, same, eq_of_text_eq petValue_legible legible same⟩

end Value

end Elm

end ElmClient
