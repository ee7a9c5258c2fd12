/-
Module: ElmClient.GraphQL.Reader
Purpose: Readers of GraphQL text. A reader takes something from the front of the text or fails
  without taking anything, and an ordered choice never comes back to an alternative that worked.
Main exports: Cursor, Reader, Reader.token, Reader.name, Reader.many, Reader.many1,
  Reader.optional, Reader.without, Reader.report
-/
import ElmClient.GraphQL.Document

namespace ElmClient.GraphQL

/-- Where a reader stands: the text ahead, its place, and the first thing found wrong with text
that follows the grammar. -/
structure Cursor where
  rest : List Char
  position : Position
  fault : Option DocumentError
deriving Repr

namespace Cursor

/-- The start of a text. -/
def ofText (text : String) : Cursor := ⟨text.toList, .start, none⟩

/-- Moves over some characters, which the rest follows. -/
def advance (taken rest : List Char) (cursor : Cursor) : Cursor :=
  { cursor with
    rest := rest
    position := taken.foldl (fun position c => position.after c) cursor.position }

end Cursor

/-- A reader with a result. -/
abbrev Reader (α : Type) := StateT Cursor Option α

namespace Reader

/-- Whether a character may stand between tokens: a blank, a comma or a byte order mark. -/
def isIgnored (c : Char) : Bool :=
  c == ' ' || c == ',' || c == '\t' || c == '\n' || c == '\r' || c == '\ufeff'

/-- Whether a character ends a line. -/
def endsLine (c : Char) : Bool := c == '\n' || c == '\r'

/-- Moves over what may stand between tokens, comments included. -/
def skipIgnored (inComment : Bool) : List Char → Position → List Char × Position
  | [], position => ([], position)
  | c :: rest, position =>
      if inComment then skipIgnored (!endsLine c) rest (position.after c)
      else if isIgnored c then skipIgnored false rest (position.after c)
      else if c == '#' then skipIgnored true rest (position.after c)
      else (c :: rest, position)

/-- Goes to the next token. -/
def skip : Reader Unit :=
  modify fun cursor =>
    let (rest, position) := skipIgnored false cursor.rest cursor.position
    { cursor with rest := rest, position := position }

/-- The place of the next token. -/
def here : Reader Position := do
  skip
  pure (← get).position

/-- The rest of a text after a word that it starts with. -/
def dropWord? : (word text : List Char) → Option (List Char)
  | [], text => some text
  | c :: word, d :: text => if c == d then dropWord? word text else none
  | _ :: _, [] => none

/-- Takes a word, whatever follows it. -/
def exactly (word : String) : Reader Unit := do
  let cursor ← get
  match dropWord? word.toList cursor.rest with
  | some rest => set (cursor.advance word.toList rest)
  | none => failure

/-- Takes a word at the next token. A keyword needs no delimiter after it. -/
def token (word : String) : Reader Unit := do
  skip
  exactly word

/-- Whether a character may start a name. -/
def startsName (c : Char) : Bool := c.isAlpha || c == '_'

/-- Whether a character may go on a name. -/
def continuesName (c : Char) : Bool := c.isAlphanum || c == '_'

/-- Takes a name right here. -/
def nameHere : Reader String := do
  let cursor ← get
  match cursor.rest with
  | c :: rest =>
      if startsName c then
        let more := rest.takeWhile continuesName
        set (cursor.advance (c :: more) (rest.dropWhile continuesName))
        pure (String.ofList (c :: more))
      else failure
  | [] => failure

/-- Takes a name at the next token. -/
def name : Reader String := do
  skip
  nameHere

/-- Tries a reader. -/
def optional {α : Type} (reader : Reader α) : Reader (Option α) :=
  (some <$> reader) <|> pure none

/-- Tries a reader of a list. -/
def orEmpty {α : Type} (reader : Reader (List α)) : Reader (List α) :=
  reader <|> pure []

/-- Succeeds where a reader fails, and takes nothing. -/
def without {α : Type} (reader : Reader α) : Reader Unit := do
  match reader.run (← get) with
  | some _ => failure
  | none => pure ()

/-- Reads as often as it works, but no more often than the count says. -/
def upTo {α : Type} (reader : Reader α) : Nat → Reader (List α)
  | 0 => pure []
  | count + 1 =>
      (do let first ← reader
          let more ← upTo reader count
          pure (first :: more)) <|> pure []

/-- Reads as often as it works. Each time takes a character at least, so the length of the text
bounds how often. -/
def many {α : Type} (reader : Reader α) : Reader (List α) := do
  upTo reader (← get).rest.length

/-- Reads once or more. -/
def many1 {α : Type} (reader : Reader α) : Reader (List α) := do
  let first ← reader
  let more ← many reader
  pure (first :: more)

/-- Notes what is wrong with text that follows the grammar. The first note counts. -/
def report (error : DocumentError) : Reader Unit :=
  modify fun cursor =>
    { cursor with fault := some (cursor.fault.getD error) }

/-- Requires the end of the text. -/
def finish : Reader Unit := do
  skip
  if (← get).rest.isEmpty then pure () else failure

/-- Reads a whole text. A text that breaks the grammar is refused for that, and one that follows it
for the first thing reported. -/
def run? {α : Type} (reader : Reader α) (text : String) : Except DocumentError α :=
  match (do let result ← reader
            finish
            pure result : Reader α).run (Cursor.ofText text) with
  | none => .error .malformed
  | some (result, cursor) =>
      match cursor.fault with
      | some error => .error error
      | none => .ok result

end Reader

end ElmClient.GraphQL
