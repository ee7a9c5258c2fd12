/-
Module: ElmClient.Text.Blank
Purpose: White space as Unicode defines it, and the two clean-ups that rest on it.
Main exports: isBlank, trimBlank, squeezeBlank
-/

namespace ElmClient.Text

/-- The characters with the Unicode property `White_Space`. The zero-width space, the Mongolian
vowel separator and the byte order mark do not have it. -/
def isBlank (c : Char) : Bool :=
  let n := c.toNat
  (0x09 ≤ n && n ≤ 0x0D) || n == 0x20 || n == 0x85 || n == 0xA0 || n == 0x1680 ||
    (0x2000 ≤ n && n ≤ 0x200A) || n == 0x2028 || n == 0x2029 || n == 0x202F || n == 0x205F ||
    n == 0x3000

/-- Drops the blanks at both ends. -/
def trimBlank (text : List Char) : List Char :=
  ((text.dropWhile isBlank).reverse.dropWhile isBlank).reverse

/-- Writes each run of blanks as one space; `inRun` says that the run was already written. -/
def squeezeRuns : (inRun : Bool) → List Char → List Char
  | _, [] => []
  | inRun, c :: rest =>
      if isBlank c then
        if inRun then squeezeRuns true rest else ' ' :: squeezeRuns true rest
      else c :: squeezeRuns false rest

/-- The text on one line: no blank at either end, and one space for every run inside. -/
def squeezeBlank (text : String) : String :=
  String.ofList (squeezeRuns false (trimBlank text.toList))

end ElmClient.Text
