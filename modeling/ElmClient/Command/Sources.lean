/-
Module: ElmClient.Command.Sources
Purpose: The documents to generate modules from: those that are named, or else those in the source
  directories of the project.
Main exports: Running, discoverSources, resolveInputs
-/
import ElmClient.Command.Error
import ElmClient.Project

namespace ElmClient

namespace Path

/-- Whether a path comes before another one or has the same components: a start at the root comes
first, then the working directory, then the directory above, and names come last, in their own
order. -/
def isBefore (a b : String) : Bool := (compareOfComponents (components a) (components b)).isLE
where
  /-- The place of a component among others. -/
  rank : Component → Nat × String
    | .root => (0, "")
    | .current => (1, "")
    | .parent => (2, "")
    | .normal name => (3, name)
  /-- The order of two rows of components, the first difference of which counts. -/
  compareOfComponents : List Component → List Component → Ordering
    | [], [] => .eq
    | [], _ :: _ => .lt
    | _ :: _, [] => .gt
    | a :: as, b :: bs =>
        ((compare (rank a).1 (rank b).1).then (compare (rank a).2 (rank b).2)).then
          (compareOfComponents as bs)

/-- The components below a directory, or all of them if the path does not lead there. -/
def componentsBelow (directory path : String) : List Component :=
  let above := components directory
  let all := components path
  if above.isPrefixOf all then all.drop above.length else all

/-- Sorts paths, and keeps the first of those with the same components. -/
def sortDistinct (paths : List String) : List String :=
  distinct (paths.mergeSort isBefore)
where
  /-- Drops every path with the components of the one before. -/
  distinct : List String → List String
    | a :: b :: rest =>
        if components a == components b then distinct (a :: rest) else a :: distinct (b :: rest)
    | paths => paths
  termination_by paths => paths.length

end Path

/-- Something that reads and writes files and can fail. -/
abbrev Running (m : Type → Type) := ExceptT CommandError m

variable {m : Type → Type} [Monad m]

/-- The text of a file. -/
def readText (files : FileSystem m) (path : String) : Running m String := do
  match ← files.read path with
  | .ok text => pure text
  | .error error => throw (.notRead path error)

/-- The paths that the text of a pattern fits. -/
def findPaths (files : FileSystem m) (text : String) : Running m (List String) := do
  match PathPattern.ofText text with
  | .error error => throw (.malformedPattern error)
  | .ok pattern => (pattern.find files).adapt .notSearched

/-- The names of project files, the first of which counts. -/
def projectFiles : List String := ["elm-package.json", "elm.json"]

/-- Whether a file is left out: a directory on the way is hidden or holds packages, or the file is
hidden. -/
def isLeftOut (components : List Path.Component) : Bool :=
  components.any fun component =>
    match component with
    | .normal name => name == "node_modules" || name.startsWith "."
    | _ => false

/-- The documents below the source directories of the project in a directory. -/
def discoverSources (files : FileSystem m) (directory : String) : Running m (List String) := do
  let paths := projectFiles.map (Path.join directory)
  let candidates ← paths.filterM fun path => do files.isFile path
  match candidates with
  | [] => throw (.noProject directory)
  | projectPath :: _ =>
      let text ← readText files projectPath
      match Project.ofText? text with
      | none => throw (.malformedProject projectPath)
      | some project =>
          let found ← project.sourceDirectories.mapM fun source =>
            findPaths files (Path.join (Path.join (Path.join directory source) "**") "*.graphql")
          pure (Path.sortDistinct
            (found.flatten.filter fun path => !isLeftOut (Path.componentsBelow directory path)))

/-- Whether an input is a pattern. -/
def isPattern (input : String) : Bool :=
  input.any fun c => ['*', '?', '[', '\x7b'].contains c

/-- The documents of an input: a path, or a pattern that must fit something. -/
def resolveInput (files : FileSystem m) (input : String) : Running m (List String) := do
  if isPattern input then
    let paths ← findPaths files input
    if paths.isEmpty then throw (.noMatch input) else pure paths
  else pure [input]

/-- The documents of some inputs in order. -/
def resolveInputs (files : FileSystem m) (inputs : List String) : Running m (List String) := do
  let paths ← inputs.mapM (resolveInput files)
  pure paths.flatten

end ElmClient
