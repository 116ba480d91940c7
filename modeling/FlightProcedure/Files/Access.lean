import FlightProcedure.Files.Tree

/-!
# Programs that work with files

A program that reads and writes files is written for any monad that offers the operations below. In
the monad of functions on `FileTree` it is a function whose results can be computed and compared.
-/

namespace FlightProcedure

class Files (m : Type → Type) where
  kind? : Path → m (Option FileKind)
  readText : Path → m (Except FileError String)
  writeText : Path → String → m (Except FileError Unit)
  makeDirectory : Path → m (Except FileError Unit)
  /-- The absolute path without steps up or in place that leads where a path leads. -/
  canonical : Path → m (Except FileError Path)
  /-- The files below a directory, in any order, as seen from a path to it. -/
  filesBelow : Path → m (List Path)

/-- A change of a file tree that may fail and then changes nothing. -/
def FileTree.change (f : FileTree → Except FileError FileTree) : StateM FileTree (Except FileError Unit) :=
  fun tree => match f tree with
    | .ok changed => (.ok (), changed)
    | .error error => (.error error, tree)

instance : Files (StateM FileTree) where
  kind? path := fun tree => (tree.kind? path, tree)
  readText path := fun tree => (tree.readText path, tree)
  writeText path text := FileTree.change fun tree => tree.writeText path text
  makeDirectory path := FileTree.change fun tree => tree.makeDirectory path
  canonical path := fun tree => (tree.canonical path, tree)
  filesBelow path := fun tree => (tree.filesBelow path, tree)

namespace Files

variable {m : Type → Type} [Monad m] [Files m]

def isFile (path : Path) : m Bool := do
  return (← kind? path) == some .file

def isDirectory (path : Path) : m Bool := do
  return (← kind? path) == some .directory

/-- Makes a directory and the directories above it. The fuel is the number of pieces. -/
def makeDirectoriesFrom : Nat → Path → m (Except FileError Unit)
  | 0, _ => return .ok ()
  | fuel + 1, path => do
    if path.components.isEmpty then return .ok ()
    match ← makeDirectory path with
    | .ok () => return .ok ()
    | .error .notFound =>
      match path.parent? with
      | none => return .error .notFound
      | some parent =>
        match ← makeDirectoriesFrom fuel parent with
        | .error error => return .error error
        | .ok () =>
          match ← makeDirectory path with
          | .ok () => return .ok ()
          | .error error =>
            if ← isDirectory path then return .ok () else return .error error
    | .error error => if ← isDirectory path then return .ok () else return .error error

/-- Makes a directory and the directories above it, if they do not exist. -/
def makeDirectories (path : Path) : m (Except FileError Unit) := makeDirectoriesFrom (path.pieces.length + 1) path

def firstFile? : List Path → m (Option Path)
  | [] => return none
  | path :: rest => do
    if ← isFile path then return some path else firstFile? rest

end Files

end FlightProcedure
