/-
Module: ElmClient.Proofs.QueryText.Literals
Purpose: Numbers and strings read back. An integer of 64 bits and a string without control
  characters are read from the text that is printed for them; for a double that is a condition,
  which can be computed.
Main exports: Number.readsBack, Number.inRange, Number.readsBack_integer, NumberLiteral.scan_append,
  Value.isPrintable, Reader.takes_number, Reader.takes_string
-/
import ElmClient.Proofs.QueryText.Reading

namespace ElmClient

open GraphQL.Reader (Ends)

/-! ### Number literals end where nothing goes on with them -/

namespace NumberLiteral

variable {text rest : List Char}

theorem spanDigits_append (ends : Ends rest) (text : List Char) :
    spanDigits (text ++ rest) = ((spanDigits text).1, (spanDigits text).2 ++ rest) := by
  induction text with
  | nil =>
      cases rest with
      | nil => rfl
      | cons c more =>
          have noDigit : c.isDigit = false := ends.not Char.isDigit (by decide) rfl
          simp [spanDigits, noDigit]
  | cons c more ih =>
      obtain ⟨digits, left⟩ := Prod.mk.inj ih
      by_cases digit : c.isDigit = true
      · simp [spanDigits, digit, digits, left]
      · simp [spanDigits, digit]

theorem scanFraction_cons {c : Char} (noPoint : (c == '.') = false) (more : List Char) :
    scanFraction (c :: more) = none := by
  have noPoint' : c ≠ '.' := by simpa using noPoint
  simp [scanFraction, noPoint']

theorem scanFraction_append (ends : Ends rest) (text : List Char) :
    scanFraction (text ++ rest) =
      (scanFraction text).map fun found => (found.1, found.2 ++ rest) := by
  cases text with
  | nil =>
      cases rest with
      | nil => rfl
      | cons c more =>
          exact scanFraction_cons (ends.not (· == '.') (by decide) rfl) more
  | cons c more =>
      by_cases point : c = '.'
      · subst point
        simp only [List.cons_append, scanFraction, spanDigits_append ends]
        rcases spanDigits more with ⟨_ | ⟨d, digits⟩, left⟩ <;> rfl
      · have noPoint : (c == '.') = false := by simpa using point
        rw [List.cons_append, scanFraction_cons noPoint, scanFraction_cons noPoint]
        rfl

theorem scanSign_cons {c : Char} (noMinus : (c == '-') = false) (noPlus : (c == '+') = false)
    (more : List Char) : scanSign (c :: more) = (false, c :: more) := by
  have noMinus' : c ≠ '-' := by simpa using noMinus
  have noPlus' : c ≠ '+' := by simpa using noPlus
  simp [scanSign, noMinus', noPlus']

theorem scanSign_append (ends : Ends rest) (text : List Char) :
    scanSign (text ++ rest) = ((scanSign text).1, (scanSign text).2 ++ rest) := by
  cases text with
  | nil =>
      cases rest with
      | nil => rfl
      | cons c more =>
          have noMinus : (c == '-') = false := ends.not (· == '-') (by decide) rfl
          have noPlus : (c == '+') = false := ends.not (· == '+') (by decide) rfl
          exact scanSign_cons noMinus noPlus more
  | cons c more =>
      by_cases minus : c = '-'
      · subst minus
        rfl
      · by_cases plus : c = '+'
        · subst plus
          rfl
        · have noMinus : (c == '-') = false := by simpa using minus
          have noPlus : (c == '+') = false := by simpa using plus
          rw [List.cons_append, scanSign_cons noMinus noPlus, scanSign_cons noMinus noPlus]
          rfl

theorem scanExponent_append (ends : Ends rest) (text : List Char) :
    scanExponent (text ++ rest) =
      (scanExponent text).map fun found => (found.1, found.2 ++ rest) := by
  cases text with
  | nil =>
      cases rest with
      | nil => rfl
      | cons c more =>
          have noMark : (c == 'e' || c == 'E') = false :=
            ends.not (fun c => c == 'e' || c == 'E') (by decide) rfl
          simp [scanExponent, noMark]
  | cons c more =>
      by_cases mark : (c == 'e' || c == 'E') = true
      · simp only [List.cons_append, scanExponent, mark, if_true, scanSign_append ends,
          spanDigits_append ends]
        rcases spanDigits (scanSign more).2 with ⟨_ | ⟨d, digits⟩, left⟩ <;> rfl
      · simp [scanExponent, mark]

theorem scanWhole_append (ends : Ends rest) (text : List Char) :
    scanWhole (text ++ rest) =
      (scanWhole text).map fun found => (found.1, found.2 ++ rest) := by
  have spans {text : List Char} (zero : ∀ more, text ≠ '0' :: more) :
      scanWhole text =
        if (spanDigits text).1.isEmpty then none
        else some ((spanDigits text).1, (spanDigits text).2) := by
    unfold scanWhole
    split
    · next more => exact absurd rfl (zero more)
    · rcases spanDigits text with ⟨_ | ⟨d, digits⟩, left⟩ <;> rfl
  cases text with
  | nil =>
      have noZero : ∀ more, rest ≠ '0' :: more := by
        rintro more rfl
        exact absurd (ends '0' rfl) (by decide)
      have spanned := spanDigits_append ends []
      rw [List.nil_append] at spanned ⊢
      rw [spans noZero, spanned]
      rfl
  | cons c more =>
      by_cases zero : c = '0'
      · subst zero
        rfl
      · have noZero (tail : List Char) : ∀ more, c :: tail ≠ '0' :: more := by
          rintro more same
          exact zero (List.cons.inj same).1
        rw [List.cons_append, spans (noZero _), spans (noZero _), ← List.cons_append,
          spanDigits_append ends]
        split <;> rfl

/-- Splits off a minus; the result says whether there was one. -/
def splitMinus (text : List Char) : Bool × List Char :=
  match text with
  | '-' :: rest => (true, rest)
  | _ => (false, text)

/-- Reads a literal after its sign, which is given. -/
def scanUnsigned (negative : Bool) (unsigned : List Char) : Option (NumberLiteral × List Char) :=
  match scanWhole unsigned with
  | none => none
  | some (whole, rest) =>
      let (fraction, rest) :=
        match scanFraction rest with
        | some (digits, rest) => (some digits, rest)
        | none => (none, rest)
      let (exponent, rest) :=
        match scanExponent rest with
        | some (n, rest) => (some n, rest)
        | none => (none, rest)
      some (⟨negative, whole, fraction, exponent⟩, rest)

theorem scan_eq (text : List Char) :
    scan text = scanUnsigned (splitMinus text).1 (splitMinus text).2 := rfl

theorem splitMinus_append (ends : Ends rest) (text : List Char) :
    splitMinus (text ++ rest) = ((splitMinus text).1, (splitMinus text).2 ++ rest) := by
  have other {c : Char} (noMinus : (c == '-') = false) (more : List Char) :
      splitMinus (c :: more) = (false, c :: more) := by
    have noMinus' : c ≠ '-' := by simpa using noMinus
    simp [splitMinus, noMinus']
  cases text with
  | nil =>
      cases rest with
      | nil => rfl
      | cons c more => exact other (ends.not (· == '-') (by decide) rfl) more
  | cons c more =>
      by_cases minus : c = '-'
      · subst minus
        rfl
      · have noMinus : (c == '-') = false := by simpa using minus
        rw [List.cons_append, other noMinus, other noMinus]
        rfl

theorem scanUnsigned_append (ends : Ends rest) (negative : Bool) (unsigned : List Char) :
    scanUnsigned negative (unsigned ++ rest) =
      (scanUnsigned negative unsigned).map fun found => (found.1, found.2 ++ rest) := by
  simp only [scanUnsigned, scanWhole_append ends]
  rcases scanWhole unsigned with _ | ⟨whole, left⟩
  · rfl
  · simp only [Option.map_some, scanFraction_append ends]
    rcases scanFraction left with _ | ⟨digits, left'⟩
    · simp only [Option.map_none, scanExponent_append ends]
      rcases scanExponent left with _ | ⟨n, left''⟩ <;> rfl
    · simp only [Option.map_some, scanExponent_append ends]
      rcases scanExponent left' with _ | ⟨n, left''⟩ <;> rfl

/-- A text with which no literal goes on does not change the literal before it. -/
theorem scan_append (ends : Ends rest) (text : List Char) :
    scan (text ++ rest) = (scan text).map fun found => (found.1, found.2 ++ rest) := by
  rw [scan_eq, scan_eq, splitMinus_append ends, scanUnsigned_append ends]

/-! ### The characters of a literal -/

/-- Whether a number literal may have a character. -/
def isNumeral (c : Char) : Bool :=
  c.isDigit || c == '.' || c == 'e' || c == 'E' || c == '+' || c == '-'

theorem mem_spanDigits {text : List Char} {c : Char} (member : c ∈ text) :
    isNumeral c = true ∨ c ∈ (spanDigits text).2 := by
  have whole : (spanDigits text).1 ++ (spanDigits text).2 = text := List.takeWhile_append_dropWhile
  rw [← whole] at member
  rcases List.mem_append.mp member with digit | left
  · have isDigit : c.isDigit = true := List.all_eq_true.mp List.all_takeWhile c digit
    exact Or.inl (by simp [isNumeral, isDigit])
  · exact Or.inr left

theorem mem_scanFraction {text left digits : List Char}
    (read : scanFraction text = some (digits, left)) {c : Char} (member : c ∈ text) :
    isNumeral c = true ∨ c ∈ left := by
  unfold scanFraction at read
  split at read
  · next more =>
      have after : c ∈ more → isNumeral c = true ∨ c ∈ (spanDigits more).2 := mem_spanDigits
      split at read
      · simp at read
      · next spanned =>
          obtain ⟨rfl, rfl⟩ := Prod.mk.inj (Option.some.inj read)
          rw [spanned] at after
          rcases List.mem_cons.mp member with rfl | later
          · exact Or.inl (by decide)
          · exact after later
  · simp at read

theorem mem_scanSign {text : List Char} {c : Char} (member : c ∈ text) :
    isNumeral c = true ∨ c ∈ (scanSign text).2 := by
  unfold scanSign
  split
  · rcases List.mem_cons.mp member with rfl | later
    · exact Or.inl (by decide)
    · exact Or.inr later
  · rcases List.mem_cons.mp member with rfl | later
    · exact Or.inl (by decide)
    · exact Or.inr later
  · exact Or.inr member

theorem mem_scanExponent {text left : List Char} {n : Int}
    (read : scanExponent text = some (n, left)) {c : Char} (member : c ∈ text) :
    isNumeral c = true ∨ c ∈ left := by
  unfold scanExponent at read
  split at read
  · next mark more =>
      split at read
      · next isMark =>
          have afterSign : c ∈ more → isNumeral c = true ∨ c ∈ (scanSign more).2 := mem_scanSign
          have afterDigits : c ∈ (scanSign more).2 →
              isNumeral c = true ∨ c ∈ (spanDigits (scanSign more).2).2 :=
            mem_spanDigits
          dsimp only at read
          split at read
          · simp at read
          · next spanned =>
              obtain ⟨_, rfl⟩ := Prod.mk.inj (Option.some.inj read)
              rw [spanned] at afterDigits
              rcases List.mem_cons.mp member with rfl | later
              · refine Or.inl ?_
                rcases Bool.or_eq_true_iff.mp isMark with lower | upper
                · simp [isNumeral, lower]
                · simp [isNumeral, upper]
              · exact (afterSign later).elim Or.inl afterDigits
      · simp at read
  · simp at read

theorem mem_scanWhole {text left digits : List Char}
    (read : scanWhole text = some (digits, left)) {c : Char} (member : c ∈ text) :
    isNumeral c = true ∨ c ∈ left := by
  unfold scanWhole at read
  split at read
  · obtain ⟨_, rfl⟩ := Prod.mk.inj (Option.some.inj read)
    rcases List.mem_cons.mp member with rfl | later
    · exact Or.inl (by decide)
    · exact Or.inr later
  · have after := mem_spanDigits member
    split at read
    · simp at read
    · next spanned =>
        obtain ⟨_, rfl⟩ := Prod.mk.inj (Option.some.inj read)
        rw [spanned] at after
        exact after

theorem mem_scanUnsigned {text left : List Char} {negative : Bool} {literal : NumberLiteral}
    (read : scanUnsigned negative text = some (literal, left)) {c : Char} (member : c ∈ text) :
    isNumeral c = true ∨ c ∈ left := by
  rcases whole : scanWhole text with _ | ⟨digits, afterWhole⟩
  · simp [scanUnsigned, whole] at read
  · refine (mem_scanWhole whole member).elim Or.inl fun member => ?_
    rcases fraction : scanFraction afterWhole with _ | ⟨digits', afterFraction⟩
    · rcases exponent : scanExponent afterWhole with _ | ⟨n, afterExponent⟩
      · simp only [scanUnsigned, whole, fraction, exponent] at read
        obtain ⟨_, rfl⟩ := Prod.mk.inj (Option.some.inj read)
        exact Or.inr member
      · simp only [scanUnsigned, whole, fraction, exponent] at read
        obtain ⟨_, rfl⟩ := Prod.mk.inj (Option.some.inj read)
        exact mem_scanExponent exponent member
    · refine (mem_scanFraction fraction member).elim Or.inl fun member => ?_
      rcases exponent : scanExponent afterFraction with _ | ⟨n, afterExponent⟩
      · simp only [scanUnsigned, whole, fraction, exponent] at read
        obtain ⟨_, rfl⟩ := Prod.mk.inj (Option.some.inj read)
        exact Or.inr member
      · simp only [scanUnsigned, whole, fraction, exponent] at read
        obtain ⟨_, rfl⟩ := Prod.mk.inj (Option.some.inj read)
        exact mem_scanExponent exponent member

/-- Whatever is read as a number is written in the characters of numbers. -/
theorem isNumeral_of_scan {text : List Char} {literal : NumberLiteral}
    (read : scan text = some (literal, [])) {c : Char} (member : c ∈ text) :
    isNumeral c = true := by
  have unsigned : isNumeral c = true ∨ c ∈ (splitMinus text).2 := by
    unfold splitMinus
    split
    · rcases List.mem_cons.mp member with rfl | later
      · exact Or.inl (by decide)
      · exact Or.inr later
    · exact Or.inr member
  rw [scan_eq] at read
  rcases unsigned with numeral | later
  · exact numeral
  · exact (mem_scanUnsigned read later).resolve_right List.not_mem_nil

/-- A text that does not start like a number has no number. -/
theorem scan_eq_none {text : List Char}
    (apart : ∀ c ∈ text.head?, c.isDigit = false ∧ c ≠ '-') : scan text = none := by
  cases text with
  | nil => rfl
  | cons c more =>
      obtain ⟨noDigit, noMinus⟩ := apart c rfl
      have noZero : c ≠ '0' := by
        rintro rfl
        exact absurd noDigit (by decide)
      simp [scan_eq, splitMinus, noMinus, scanUnsigned, scanWhole, noZero, spanDigits, noDigit]

end NumberLiteral

/-! ### Integers -/

namespace NumberLiteral

theorem spanDigits_of_digits {digits : List Char} (all : ∀ c ∈ digits, c.isDigit = true) :
    spanDigits digits = (digits, []) := by
  induction digits with
  | nil => rfl
  | cons c more ih =>
      obtain ⟨digit, later⟩ := List.forall_mem_cons.mp all
      obtain ⟨taken, left⟩ := Prod.mk.inj (ih later)
      simp [spanDigits, digit, taken, left]

/-- The digits of a positive number do not start with a zero. -/
theorem head?_toDigits {n : Nat} (positive : 0 < n) : (Nat.toDigits 10 n).head? ≠ some '0' := by
  induction n using Nat.strongRecOn with
  | ind n ih =>
      by_cases small : n < 10
      · have each : ∀ n < 10, 0 < n → [n.digitChar].head? ≠ some '0' := by decide
        rw [Nat.toDigits_of_lt_base small]
        exact each n small positive
      · have large : 10 ≤ n := Nat.le_of_not_lt small
        have before := ih (n / 10) (by omega) (by omega)
        rw [Nat.toDigits_of_base_le (by decide) large,
          List.head?_append_of_ne_nil _ Nat.toDigits_ne_nil]
        exact before

theorem scanWhole_toDigits (n : Nat) :
    scanWhole (Nat.toDigits 10 n) = some (Nat.toDigits 10 n, []) := by
  rcases Nat.eq_zero_or_pos n with rfl | positive
  · rfl
  · have digits : ∀ c ∈ Nat.toDigits 10 n, c.isDigit = true :=
      fun c member => Nat.isDigit_of_mem_toDigits (by decide) (by decide) member
    have noZero := head?_toDigits positive
    have filled : Nat.toDigits 10 n ≠ [] := Nat.toDigits_ne_nil
    unfold scanWhole
    split
    · next start => exact absurd (by rw [start]; rfl) noZero
    · rw [spanDigits_of_digits digits]
      cases listed : Nat.toDigits 10 n with
      | nil => exact absurd listed filled
      | cons c more => rfl

/-- The digits of a natural number are a literal, with or without a minus in front. -/
theorem scanUnsigned_toDigits (negative : Bool) (n : Nat) :
    scanUnsigned negative (Nat.toDigits 10 n) =
      some (⟨negative, Nat.toDigits 10 n, none, none⟩, []) := by
  simp only [scanUnsigned, scanWhole_toDigits]
  rfl

theorem scan_toDigits (n : Nat) :
    scan (Nat.toDigits 10 n) = some (⟨false, Nat.toDigits 10 n, none, none⟩, []) := by
  have unsigned : splitMinus (Nat.toDigits 10 n) = (false, Nat.toDigits 10 n) := by
    unfold splitMinus
    split
    · next start =>
        have digit : '-'.isDigit = true :=
          Nat.isDigit_of_mem_toDigits (b := 10) (by decide) (by decide)
            (by rw [start]; exact List.mem_cons_self)
        exact absurd digit (by decide)
    · rfl
  rw [scan_eq, unsigned]
  exact scanUnsigned_toDigits false n

theorem le_ofDigitChars (digits : List Char) (start : Nat) :
    start ≤ Nat.ofDigitChars 10 digits start := by
  rw [Nat.ofDigitChars_eq_ofDigitChars_zero]
  have : 1 * start ≤ 10 ^ digits.length * start :=
    Nat.mul_le_mul_right start (Nat.one_le_pow _ _ (by decide))
  omega

/-- Digits that stand for a number of 64 bits are absorbed without loss. -/
theorem absorb_of_lt {digits : List Char} {significand : Nat}
    (fits : Nat.ofDigitChars 10 digits significand < Nat.pow 2 64) :
    absorb significand digits = (Nat.ofDigitChars 10 digits significand, 0) := by
  induction digits generalizing significand with
  | nil => rfl
  | cons c more ih =>
      rw [Nat.ofDigitChars_cons] at fits ⊢
      have next : 10 * significand + digitValue c < Nat.pow 2 64 :=
        Nat.lt_of_le_of_lt (le_ofDigitChars more _) fits
      simp only [absorb, if_pos next]
      exact ih fits

theorem absorb_lt (digits : List Char) {significand : Nat} (fits : significand < Nat.pow 2 64) :
    (absorb significand digits).1 < Nat.pow 2 64 := by
  induction digits generalizing significand with
  | nil => exact fits
  | cons c more ih =>
      simp only [absorb]
      split
      · next next => exact ih next
      · exact fits

theorem absorb_toDigits {n : Nat} (fits : n < Nat.pow 2 64) :
    absorb 0 (Nat.toDigits 10 n) = (n, 0) := by
  have value : Nat.ofDigitChars 10 (Nat.toDigits 10 n) 0 = n := Nat.ofDigitChars_ten_toDigits
  rw [absorb_of_lt (by rwa [value]), value]

end NumberLiteral

namespace Number

/-- Whether a number is read from the text that is printed for it. -/
def readsBack (n : Number) : Bool :=
  match NumberLiteral.scan n.text.toList with
  | some (literal, []) => literal.value? == some n
  | _ => false

/-- Whether a number is no integer outside the range of 64 bits. -/
def inRange : Number → Bool
  | .integer n => -Nat.pow 2 63 ≤ n && n < Nat.pow 2 64
  | .float _ => true

theorem readsBack_iff {n : Number} :
    n.readsBack = true ↔ ∃ literal, NumberLiteral.scan n.text.toList = some (literal, []) ∧
      literal.value? = some n := by
  constructor
  · intro reads
    unfold readsBack at reads
    split at reads
    · next literal scanned => exact ⟨literal, scanned, by simpa using reads⟩
    · simp at reads
  · rintro ⟨literal, scanned, value⟩
    simp [readsBack, scanned, value]

theorem inRange_of_value? {literal : NumberLiteral} {n : Number}
    (value : literal.value? = some n) : n.inRange = true := by
  have fits : (NumberLiteral.absorb 0 literal.whole).1 < Nat.pow 2 64 :=
    NumberLiteral.absorb_lt _ (by decide)
  unfold NumberLiteral.value? at value
  dsimp only at value
  split at value
  · split at value
    · obtain rfl := Option.some.inj value
      simp only [inRange, Bool.and_eq_true, decide_eq_true_eq]
      omega
    · split at value
      · next small =>
          obtain rfl := Option.some.inj value
          simp only [Bool.and_eq_true, decide_eq_true_eq] at small
          simp only [inRange, Bool.and_eq_true, decide_eq_true_eq]
          have := small.2
          omega
      · obtain ⟨x, _, rfl⟩ := Option.map_eq_some_iff.mp value
        rfl
  · obtain ⟨x, _, rfl⟩ := Option.map_eq_some_iff.mp value
    rfl

theorem toList_text_ofNat (n : Nat) :
    (Number.integer (.ofNat n)).text.toList = Nat.toDigits 10 n :=
  String.toList_ofList

theorem toList_text_negSucc (n : Nat) :
    (Number.integer (.negSucc n)).text.toList = '-' :: Nat.toDigits 10 (n + 1) := by
  show ("-" ++ String.ofList (Nat.toDigits 10 (n + 1))).toList = _
  rw [String.toList_append]
  exact congrArg ('-' :: ·) String.toList_ofList

/-- An integer of 64 bits reads back. -/
theorem readsBack_integer {n : Int} (range : (Number.integer n).inRange = true) :
    (Number.integer n).readsBack = true := by
  simp only [inRange, Bool.and_eq_true, decide_eq_true_eq] at range
  rw [readsBack_iff]
  cases n with
  | ofNat n =>
      have fits : n < Nat.pow 2 64 := Int.ofNat_lt.mp range.2
      refine ⟨_, by rw [toList_text_ofNat, NumberLiteral.scan_toDigits], ?_⟩
      simp [NumberLiteral.value?, NumberLiteral.absorb_toDigits fits]
  | negSucc n =>
      have fits : n + 1 ≤ Nat.pow 2 63 := by
        have := range.1
        omega
      have fits' : n + 1 < Nat.pow 2 64 := Nat.lt_of_le_of_lt fits (by decide)
      refine ⟨_, by
        rw [toList_text_negSucc]
        exact NumberLiteral.scanUnsigned_toDigits true (n + 1), ?_⟩
      have least : n + 1 ≤ 9223372036854775808 := fits
      simp [NumberLiteral.value?, NumberLiteral.absorb_toDigits fits', least, Int.negSucc_eq]

end Number

/-! ### Numbers -/

namespace GraphQL.Reader

variable {ahead rest : List Char}

theorem isNumeral_of_readsBack {n : Number} (reads : n.readsBack = true) :
    ∀ c ∈ n.text.toList, NumberLiteral.isNumeral c = true := by
  obtain ⟨literal, scanned, _⟩ := Number.readsBack_iff.mp reads
  exact fun c member => NumberLiteral.isNumeral_of_scan scanned member

theorem text_ne_nil_of_readsBack {n : Number} (reads : n.readsBack = true) :
    n.text.toList ≠ [] := by
  obtain ⟨literal, scanned, _⟩ := Number.readsBack_iff.mp reads
  intro none
  rw [none] at scanned
  exact Option.some_ne_none _ scanned.symm

theorem takes_number {n : Number} (reads : n.readsBack = true) (ends : Ends rest)
    (starts : skipped ahead = n.text.toList ++ rest) :
    Takes number ahead rest fun read => read = n := by
  obtain ⟨literal, scanned, value⟩ := Number.readsBack_iff.mp reads
  have scanned' : NumberLiteral.scan (n.text.toList ++ rest) = some (literal, rest) := by
    rw [NumberLiteral.scan_append ends, scanned]
    rfl
  have apart : rest.head?.any startsName = false := by
    cases rest with
    | nil => rfl
    | cons c more => exact ends.not startsName (by decide) rfl
  refine takes_skip.andThen fun _ => ?_
  rw [starts]
  refine takes_state fun position fault => ?_
  simp only [scanned', apart, value, Bool.false_eq_true, if_false]
  exact ⟨n, _, rfl, rfl⟩

theorem refuses_number (apart : ∀ c ∈ (skipped ahead).head?, c.isDigit = false ∧ c ≠ '-') :
    Refuses number ahead := by
  refine takes_skip.refuses fun _ _ => takes_get.refuses fun cursor here => ?_
  rw [here, NumberLiteral.scan_eq_none apart]
  exact refuses_failure
end GraphQL.Reader

/-! ### Strings -/

namespace GraphQL

/-- A string without control characters. -/
def Value.isPrintable (s : String) : Bool := s.toList.all fun c => !Value.isControl c

namespace StringLiteral

/-- The decimal digits of a small number, padded to four, are hexadecimal digits of a character. -/
theorem hexValue4?_padded : ∀ n < 0xA0,
    (match List.replicate (4 - (Nat.toDigits 10 n).length) '0' ++ Nat.toDigits 10 n with
      | [a, b, c, d] => (Json.hexValue4? a b c d).any fun code =>
          !(Json.isLeadSurrogate code || Json.isTrailSurrogate code)
      | _ => false) = true := by decide +kernel

/-- A printed character is scanned, as itself unless it is a control character. -/
theorem scanQuoted_escapeChar (c : Char) (text : List Char) : ∃ value,
    (Value.isControl c = false → value = [c]) ∧
      scanQuoted (Value.escapeChar c ++ text) =
        (scanQuoted text).map (·.push (Value.escapeChar c) value) := by
  unfold Value.escapeChar
  split
  · exact ⟨['\r'], by simp_all, by simp [scanQuoted, Json.simpleEscape?]⟩
  split
  · exact ⟨['\n'], by simp_all, by simp [scanQuoted, Json.simpleEscape?]⟩
  split
  · exact ⟨['\t'], by simp_all, by simp [scanQuoted, Json.simpleEscape?]⟩
  split
  · exact ⟨['"'], by simp_all, by simp [scanQuoted, Json.simpleEscape?]⟩
  split
  · exact ⟨['\\'], by simp_all, by simp [scanQuoted, Json.simpleEscape?]⟩
  split
  · next control =>
      have small : c.toNat < 0xA0 := by
        simp only [Value.isControl, Bool.or_eq_true, Bool.and_eq_true, decide_eq_true_eq] at control
        omega
      have padded := hexValue4?_padded c.toNat small
      split at padded
      · next first second third fourth digits =>
          obtain ⟨code, read, whole⟩ := (Option.any_eq_true _ _).mp padded
          refine ⟨[Char.ofNat code], fun other => absurd control (by simp [other]), ?_⟩
          simp only [digits, List.cons_append, List.nil_append, scanQuoted, read]
          rw [if_neg (by simpa using whole)]
      · exact nomatch padded
  · next noReturn noFeed noTab quote backslash _ =>
      refine ⟨[c], fun _ => rfl, ?_⟩
      simp_all [scanQuoted]

/-- A printed string is scanned up to its closing quote, as itself unless it has control
characters. -/
theorem scanQuoted_escaped (chars rest : List Char) : ∃ value,
    ((∀ c ∈ chars, Value.isControl c = false) → value = chars) ∧
      scanQuoted (chars.flatMap Value.escapeChar ++ '"' :: rest) =
        some ⟨chars.flatMap Value.escapeChar ++ ['"'], value, rest⟩ := by
  induction chars with
  | nil => exact ⟨[], fun _ => rfl, rfl⟩
  | cons c more ih =>
      obtain ⟨value, same, scanned⟩ := ih
      obtain ⟨first, same', scanned'⟩ :=
        scanQuoted_escapeChar c (more.flatMap Value.escapeChar ++ '"' :: rest)
      refine ⟨first ++ value, fun printable => ?_, ?_⟩
      · obtain ⟨here, later⟩ := List.forall_mem_cons.mp printable
        rw [same' here, same later]
        rfl
      · rw [List.flatMap_cons, List.append_assoc, scanned', scanned]
        simp [Scanned.push]

end StringLiteral

namespace Reader

variable {ahead rest : List Char}

/-- No character is printed with a quote in front. -/
theorem exists_escapeChar (c : Char) : ∃ d more, Value.escapeChar c = d :: more ∧ d ≠ '"' := by
  unfold Value.escapeChar
  split
  · exact ⟨_, _, rfl, by decide⟩
  split
  · exact ⟨_, _, rfl, by decide⟩
  split
  · exact ⟨_, _, rfl, by decide⟩
  split
  · exact ⟨_, _, rfl, by decide⟩
  split
  · exact ⟨_, _, rfl, by decide⟩
  split
  · exact ⟨_, _, rfl, by decide⟩
  · next quote _ _ => exact ⟨_, _, rfl, by simpa using quote⟩

/-- The quotes of a printed string are not those of a block. -/
theorem noBlock_of_apart (s : String) (apart : rest.head? ≠ some '"') (more : List Char) :
    s.toList.flatMap Value.escapeChar ++ '"' :: rest ≠ '"' :: '"' :: more := by
  intro same
  cases chars : s.toList with
  | nil =>
      rw [chars, List.flatMap_nil, List.nil_append] at same
      obtain rfl := (List.cons.inj same).2
      exact apart rfl
  | cons c left =>
      obtain ⟨d, others, escaped, noQuote⟩ := exists_escapeChar c
      rw [chars, List.flatMap_cons, escaped] at same
      exact noQuote (List.cons.inj same).1

/-- A printed string is read, as itself unless it has control characters. -/
theorem takes_string {s : String} (apart : rest.head? ≠ some '"')
    (starts : skipped ahead = (Value.stringText s).toList ++ rest) :
    Takes string ahead rest fun read => Value.isPrintable s = true → read = s := by
  have chars : (Value.stringText s).toList ++ rest =
      '"' :: (s.toList.flatMap Value.escapeChar ++ '"' :: rest) := by
    simp [Value.stringText]
  obtain ⟨value, same, scanned⟩ := StringLiteral.scanQuoted_escaped s.toList rest
  refine takes_skip.andThen fun _ => ?_
  rw [starts, chars]
  refine takes_state fun position fault => ?_
  dsimp only
  split
  · next more triple => exact absurd (List.cons.inj triple).2 (noBlock_of_apart s apart more)
  · next more _ single =>
      obtain rfl := (List.cons.inj single).2
      simp only [scanned]
      refine ⟨String.ofList value, _, rfl, fun printable => ?_⟩
      rw [same (by simpa [Value.isPrintable] using printable), String.ofList_toList]
  · next none => exact absurd rfl (none _)

theorem refuses_string (apart : ∀ c ∈ (skipped ahead).head?, c ≠ '"') :
    Refuses string ahead := by
  refine takes_skip.refuses fun _ _ => takes_get.refuses fun cursor here => ?_
  rw [here]
  split
  · next more block => exact absurd rfl (apart '"' (by rw [block]; rfl))
  · next more _ quote => exact absurd rfl (apart '"' (by rw [quote]; rfl))
  · exact refuses_failure

end Reader

end GraphQL

end ElmClient
