/-
Module: ElmClient.Path
Purpose: Path names with slashes: their components, their last name and its extension.
Main exports: Path.Component, Path.components, Path.fileName?, Path.extension?,
  Path.withExtension, Path.join
-/

namespace ElmClient.Path

/-- A component of a path. A point counts only at the start. -/
inductive Component where
  | root
  | current
  | parent
  | normal (name : String)
deriving DecidableEq, Repr, Inhabited

/-- Splits at every slash. -/
def splitSlashes : List Char → List (List Char)
  | [] => [[]]
  | c :: rest =>
      if c == '/' then [] :: splitSlashes rest
      else
        match splitSlashes rest with
        | part :: parts => (c :: part) :: parts
        | [] => [[c]]

/-- The component of a part between slashes that is not the first one. Empty parts and points do
not count. -/
def component? (part : List Char) : Option Component :=
  if part.isEmpty || part == ['.'] then none
  else if part == ['.', '.'] then some .parent
  else some (.normal (String.ofList part))

/-- The components of a path. -/
def components (path : String) : List Component :=
  match splitSlashes path.toList with
  | [] => []
  | [] :: parts =>
      if parts.isEmpty then [] else .root :: parts.filterMap component?
  | first :: parts =>
      (if first == ['.'] then [.current] else (component? first).toList) ++
        parts.filterMap component?

/-- The names among the components. -/
def names (path : String) : List String :=
  (components path).filterMap fun component =>
    match component with
    | .normal name => some name
    | _ => none

/-- The last component, if it is a name. -/
def fileName? (path : String) : Option String :=
  match (components path).getLast? with
  | some (.normal name) => some name
  | _ => none

/-- Splits a name before its last point into stem and extension. A point at the start is part of
the stem. -/
def splitName (name : List Char) : List Char × Option (List Char) :=
  let reversed := name.reverse
  let tail := reversed.takeWhile (· != '.')
  match reversed.drop tail.length with
  | [] => (name, none)
  | [_] => (name, none)
  | _ :: stem => (stem.reverse, some tail.reverse)

/-- The extension of the last name. -/
def extension? (path : String) : Option String := do
  let name ← fileName? path
  let extension ← (splitName name.toList).2
  pure (String.ofList extension)

/-- Drops slashes and idle points from the end of a path, nearest the end first. -/
def dropIdleEnd : List Char → List Char
  | '/' :: rest => dropIdleEnd rest
  | '.' :: '/' :: rest => dropIdleEnd ('/' :: rest)
  | reversed => reversed

/-- The path with another extension after the stem of its last name, or with none. A path that
does not end in a name stays as it is. -/
def withExtension (path : String) (extension : String) : String :=
  match fileName? path with
  | none => path
  | some name =>
      let stem := (splitName name.toList).1
      let trimmed := (dropIdleEnd path.toList.reverse).reverse
      let kept := trimmed.take (trimmed.length - name.length) ++ stem
      if extension.isEmpty then String.ofList kept else String.ofList kept ++ "." ++ extension

/-- A path below another one. An absolute path stands for itself. -/
def join (base path : String) : String :=
  if path.startsWith "/" then path
  else if base.isEmpty || base.endsWith "/" then base ++ path
  else base ++ "/" ++ path

end ElmClient.Path
