/-
Module: ElmClient.Files.Pattern
Purpose: Patterns for the names in a path: a question mark stands for one character, a star for any
  number of them, brackets for one character of a choice, and two stars for directories.
Main exports: PatternError, PatternToken, NamePattern, NamePattern.ofText, NamePattern.accepts,
  PathPattern, PathPattern.ofText
-/
import ElmClient.Path

namespace ElmClient

/-- What is wrong with a pattern. -/
inductive PatternFault where
  | tooManyStars
  | partOfName
  | openBracket
deriving DecidableEq, Repr, Inhabited

/-- What is wrong with a pattern, and where. -/
structure PatternError where
  position : Nat
  fault : PatternFault
deriving DecidableEq, Repr, Inhabited

/-- What is said about a fault. -/
def PatternFault.message : PatternFault → String
  | .tooManyStars => "wildcards are either regular `*` or recursive `**`"
  | .partOfName => "recursive wildcards must form a single path component"
  | .openBracket => "invalid range pattern"

/-- What is said about a pattern. -/
def PatternError.message (error : PatternError) : String :=
  "Pattern syntax error near position " ++ toString error.position ++ ": " ++ error.fault.message

/-- A part of a pattern. A choice is a list of ranges with both ends. -/
inductive PatternToken where
  | char (c : Char)
  | anyChar
  | anyText
  | anyDirectories
  | oneOf (ranges : List (Char × Char))
  | noneOf (ranges : List (Char × Char))
deriving DecidableEq, Repr, Inhabited

/-- A pattern for one name. -/
abbrev NamePattern := List PatternToken

namespace NamePattern

/-- The ranges of a choice. A character alone is a range from itself to itself. -/
def ranges : List Char → List (Char × Char)
  | a :: '-' :: b :: rest => (a, b) :: ranges rest
  | a :: rest => (a, a) :: ranges rest
  | [] => []

/-- Reads a choice up to its closing bracket, which cannot be the first character of it. -/
def choice (token : List (Char × Char) → PatternToken) :
    List Char → Option (PatternToken × List Char)
  | [] => none
  | c :: rest =>
      let more := rest.takeWhile (· != ']')
      match rest.drop more.length with
      | _ :: rest => some (token (ranges (c :: more)), rest)
      | [] => none

/-- Reads what follows an opening bracket. -/
def bracket : List Char → Option (PatternToken × List Char)
  | '!' :: rest => choice .noneOf rest
  | text => choice .oneOf text

theorem choice_shorter {token : List (Char × Char) → PatternToken} {text rest : List Char}
    {t : PatternToken} (h : choice token text = some (t, rest)) : rest.length < text.length := by
  cases text with
  | nil => simp [choice] at h
  | cons c more =>
      simp only [choice] at h
      split at h
      · rename_i d r hd
        simp only [Option.some.injEq, Prod.mk.injEq] at h
        have hl := congrArg List.length hd
        simp only [List.length_drop, List.length_cons, h.2] at hl
        simp only [List.length_cons]
        omega
      · simp at h

theorem bracket_shorter {text rest : List Char} {t : PatternToken}
    (h : bracket text = some (t, rest)) : rest.length < text.length := by
  unfold bracket at h
  split at h
  · have := choice_shorter h
    simp only [List.length_cons]
    omega
  · exact choice_shorter h

/-- Whether two stars may stand after a character, or at the start. -/
def mayStartDirectories : Option Char → Bool
  | none => true
  | some c => c == '/'

/-- The tokens of a text that starts at a position, after a character if there is one. Two stars
must stand between slashes, and take the slash after them along. -/
def tokens (position : Nat) (before : Option Char) (text : List Char) :
    Except PatternError (List PatternToken) :=
  match text with
  | [] => .ok []
  | '?' :: rest => do
      let more ← tokens (position + 1) (some '?') rest
      pure (.anyChar :: more)
  | '*' :: '*' :: '*' :: _ => .error ⟨position + 2, .tooManyStars⟩
  | '*' :: '*' :: rest =>
      if mayStartDirectories before then
        match rest with
        | [] => .ok [.anyDirectories]
        | c :: rest =>
            if c == '/' then do
              let more ← tokens (position + 3) (some '/') rest
              pure (.anyDirectories :: more)
            else .error ⟨position + 2, .partOfName⟩
      else .error ⟨position - 1, .partOfName⟩
  | '*' :: rest => do
      let more ← tokens (position + 1) (some '*') rest
      pure (.anyText :: more)
  | '[' :: rest =>
      match h : bracket rest with
      | some (token, after) => do
          have := bracket_shorter h
          let more ← tokens (position + 1 + (rest.length - after.length)) (some ']') after
          pure (token :: more)
      | none => .error ⟨position, .openBracket⟩
  | c :: rest => do
      let more ← tokens (position + 1) (some c) rest
      pure (.char c :: more)
termination_by text.length

/-- The pattern of a text. -/
def ofText (text : List Char) : Except PatternError NamePattern := tokens 0 none text

/-- Whether a character lies in one of some ranges. -/
def inRanges (c : Char) (ranges : List (Char × Char)) : Bool :=
  ranges.any fun (first, last) => first ≤ c && c ≤ last

/-- Whether a pattern fits all of a text. -/
def fits : NamePattern → List Char → Bool
  | [], text => text.isEmpty
  | .anyText :: pattern, text | .anyDirectories :: pattern, text =>
      (List.range (text.length + 1)).any fun n => fits pattern (text.drop n)
  | _ :: _, [] => false
  | .char c :: pattern, d :: text => c == d && fits pattern text
  | .anyChar :: pattern, _ :: text => fits pattern text
  | .oneOf ranges :: pattern, c :: text => inRanges c ranges && fits pattern text
  | .noneOf ranges :: pattern, c :: text => !inRanges c ranges && fits pattern text

/-- Whether a pattern fits a name. -/
def accepts (pattern : NamePattern) (name : String) : Bool := fits pattern name.toList

/-- Whether a pattern stands for directories, nested as they may be. -/
def isDirectories (pattern : NamePattern) : Bool := pattern == [.anyDirectories]

/-- The only name that a pattern without wildcards fits. -/
def literal? (pattern : NamePattern) : Option String :=
  (pattern.mapM fun token : PatternToken =>
    match token with
    | .char c => some c
    | _ => none).map String.ofList

end NamePattern

/-- A pattern for paths: where to start, a pattern for every name, and whether only directories
count. -/
structure PathPattern where
  start : String
  names : List NamePattern
  directoriesOnly : Bool
deriving DecidableEq, Repr, Inhabited

namespace PathPattern

/-- The names of a pattern. A slash at the end does not start another one. -/
def nameParts (text : List Char) : List (List Char) :=
  let parts := Path.splitSlashes text
  if 1 < parts.length && parts.getLast? == some [] then parts.dropLast else parts

/-- The pattern of a text. The text is checked as a whole first, and then name by name. -/
def ofText (text : String) : Except PatternError PathPattern := do
  let chars := text.toList
  let _ ← NamePattern.ofText chars
  let (start, below) :=
    match chars with
    | '/' :: rest => ("/", rest)
    | _ => (".", chars)
  let names ← (nameParts below).mapM NamePattern.ofText
  pure ⟨start, names, chars.getLast? == some '/'⟩

end PathPattern

end ElmClient
