/-
Module: ElmClient.Text.Quoted
Purpose: A text in double quotes in which everything that does not show is written by number.
Main exports: isVisible, quoteChar, quote
-/
import ElmClient.Text.Case
import ElmClient.Text.VisibleTable

namespace ElmClient.Text

/-- Whether a character is shown as itself: it is neither a control, format, private, unassigned or
separating character, nor one that attaches itself to its neighbour. -/
def isVisible (c : Char) : Bool :=
  if c.toNat < 0x7F then 0x20 ≤ c.toNat else !inRanges hiddenRanges c.toNat

/-- The hexadecimal digits of a number, without leading zeros. -/
def hexDigits (n : Nat) : List Char :=
  Nat.toDigits 16 n

/-- One character inside quotes. An apostrophe needs no escape there. -/
def quoteChar (c : Char) : List Char :=
  if c == '"' then ['\\', '"']
  else if c == '\\' then ['\\', '\\']
  else if c == '\n' then ['\\', 'n']
  else if c == '\r' then ['\\', 'r']
  else if c == '\t' then ['\\', 't']
  else if c.toNat == 0 then ['\\', '0']
  else if isVisible c then [c]
  else '\\' :: 'u' :: '{' :: (hexDigits c.toNat ++ ['}'])

/-- The text in double quotes. -/
def quote (text : String) : String :=
  String.ofList ('"' :: (text.toList.flatMap quoteChar ++ ['"']))

end ElmClient.Text
