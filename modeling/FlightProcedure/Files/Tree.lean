import FlightProcedure.Files.Error

/-!
# A file system as a value

A file tree lists the directories and files below the root, each by the names that lead to it, and
knows the directory in which relative paths start. Looking for a path goes through its pieces: each
piece needs a directory to be looked up in, so a path that ends with a slash names a directory.
-/

namespace FlightProcedure

inductive FileKind where
  | file
  | directory
deriving DecidableEq

abbrev Location := List String

inductive FileEntry where
  | directory
  | file (content : ByteArray)

def FileEntry.kind : FileEntry → FileKind
  | .directory => .directory
  | .file _ => .file

structure FileTree where
  working : Location := []
  entries : List (Location × FileEntry) := []

namespace FileTree

def longestName : Nat := 255

/-- What there is at a location. The root is a directory. -/
def get? (tree : FileTree) (location : Location) : Option FileEntry :=
  if location.isEmpty then some .directory else tree.entries.lookup location

def setEntry (location : Location) (entry : FileEntry) : List (Location × FileEntry) → List (Location × FileEntry)
  | [] => [(location, entry)]
  | (other, old) :: rest =>
    if other = location then (location, entry) :: rest
    else (other, old) :: setEntry location entry rest

def set (tree : FileTree) (location : Location) (entry : FileEntry) : FileTree :=
  { tree with entries := setEntry location entry tree.entries }

def enter (tree : FileTree) (location : Location) (piece : List Char) : Except FileError Location :=
  match tree.get? location with
  | none => .error .notFound
  | some (.file _) => .error .notDirectory
  | some .directory =>
    if Path.isIdle piece then .ok location
    else if piece = ['.', '.'] then .ok location.dropLast
    else if longestName < (String.ofList piece).utf8ByteSize then .error .nameTooLong
    else .ok (location ++ [String.ofList piece])

/-- Where the pieces of a path lead. Nothing need be there. -/
def locatePieces (tree : FileTree) (path : Path) (pieces : List (List Char)) : Except FileError Location :=
  if path.text.isEmpty then .error .notFound
  else if path.text.toList.contains '\x00' then .error .nulInPath
  else pieces.foldlM tree.enter (if path.isAbsolute then [] else tree.working)

/-- Where a path leads. Nothing need be there. -/
def locate (tree : FileTree) (path : Path) : Except FileError Location := tree.locatePieces path path.pieces

def kind? (tree : FileTree) (path : Path) : Option FileKind :=
  match tree.locate path with
  | .error _ => none
  | .ok location => (tree.get? location).map FileEntry.kind

def readText (tree : FileTree) (path : Path) : Except FileError String := do
  match tree.get? (← tree.locate path) with
  | none => .error .notFound
  | some .directory => .error .isDirectory
  | some (.file content) =>
    match String.fromUTF8? content with
    | none => .error .notText
    | some text => .ok text

def writeText (tree : FileTree) (path : Path) (text : String) : Except FileError FileTree := do
  let location ← tree.locate path
  match tree.get? location with
  | some .directory => .error .isDirectory
  | _ => .ok (tree.set location (.file text.toUTF8))

/-- The file system with a new directory. Slashes at the end of the path do not count. -/
def makeDirectory (tree : FileTree) (path : Path) : Except FileError FileTree := do
  let pieces := (path.pieces.reverse.dropWhile List.isEmpty).reverse
  let location ← tree.locatePieces path pieces
  match tree.get? location with
  | some _ => .error .alreadyExists
  | none => .ok (tree.set location .directory)

def pathOf (location : Location) : Path :=
  ⟨"/" ++ "/".intercalate location⟩

/-- The absolute path without steps up or in place that leads where a path leads. -/
def canonical (tree : FileTree) (path : Path) : Except FileError Path := do
  let location ← tree.locate path
  match tree.get? location with
  | none => .error .notFound
  | some _ => .ok (pathOf location)

def filesBelow (tree : FileTree) (path : Path) : List Path :=
  match tree.locate path with
  | .error _ => []
  | .ok location =>
    tree.entries.filterMap fun (other, entry) =>
      if entry.kind = .file ∧ location.isPrefixOf other ∧ location.length < other.length then
        some (path.join ⟨"/".intercalate (other.drop location.length)⟩)
      else none

end FileTree

end FlightProcedure
