import FlightProcedure.Text.Split

/-!
# Paths

A path is the text that names a file. Its pieces stand between slashes, and its components are the
steps that it takes: empty pieces take none, and a single dot takes one only at the start of a
relative path. Functions that answer with a path keep the spelling of what they do not change.
-/

namespace FlightProcedure

structure Path where
  text : String
deriving DecidableEq

namespace Path

inductive Component where
  | root
  | current
  | up
  | name (name : String)
deriving DecidableEq

def Component.rank : Component → Nat
  | .root => 0
  | .current => 1
  | .up => 2
  | .name _ => 3

def Component.lt : Component → Component → Bool
  | .name a, .name b => decide (a < b)
  | a, b => decide (a.rank < b.rank)

/-- The pieces of a path between slashes. An absolute path starts with an empty piece. -/
def pieces (path : Path) : List (List Char) := splitWhere (· == '/') path.text.toList

def ofPieces : List (List Char) → Path
  | [[]] => ⟨"/"⟩
  | pieces => ⟨String.ofList (['/'].intercalate pieces)⟩

def isAbsolute (path : Path) : Bool := path.text.toList.head? == some '/'

/-- Whether a piece takes no step, unless it is the first one. -/
def isIdle (piece : List Char) : Bool := piece == [] || piece == ['.']

def laterComponent? (piece : List Char) : Option Component :=
  if isIdle piece then none
  else if piece = ['.', '.'] then some .up
  else some (.name (String.ofList piece))

def firstComponent? (absolute : Bool) (piece : List Char) : Option Component :=
  if absolute then some .root
  else if piece = ['.'] then some .current
  else laterComponent? piece

def components (path : Path) : List Component :=
  match path.pieces with
  | [] => []
  | first :: rest =>
    (firstComponent? path.isAbsolute first).toList ++ rest.filterMap laterComponent?

/-- Whether two paths take the same steps. -/
def same (a b : Path) : Bool := decide (a.components = b.components)

def componentsLe : List Component → List Component → Bool
  | [], _ => true
  | _ :: _, [] => false
  | a :: as, b :: bs => a.lt b || (!b.lt a && componentsLe as bs)

def le (a b : Path) : Bool := componentsLe a.components b.components

def join (base path : Path) : Path :=
  if path.isAbsolute || base.text.isEmpty then path
  else if base.text.toList.getLast? == some '/' then ⟨base.text ++ path.text⟩
  else ⟨base.text ++ "/" ++ path.text⟩

/-- Pieces, last one first, from the last one on that takes a step. -/
def trimIdle : List (List Char) → List (List Char)
  | [] => []
  | [first] => [first]
  | piece :: rest => if isIdle piece then trimIdle rest else piece :: rest

def parent? (path : Path) : Option Path :=
  match trimIdle path.pieces.reverse with
  | [] => none
  | [first] => if first.isEmpty then none else some ⟨""⟩
  | _ :: rest => some (ofPieces (trimIdle rest).reverse)

def fileName? (path : Path) : Option (List Char) :=
  match trimIdle path.pieces.reverse with
  | [] => none
  | piece :: _ => if isIdle piece || piece == ['.', '.'] then none else some piece

/-- A name without its extension, and the extension. The dot before an extension is the last one, and
not the first character. -/
def splitName (name : List Char) : List Char × Option (List Char) :=
  let extension := (name.reverse.takeWhile (· != '.')).reverse
  if extension.length + 1 < name.length then
    (name.take (name.length - extension.length - 1), some extension)
  else (name, none)

def fileStem? (path : Path) : Option String := path.fileName?.map fun name => String.ofList (splitName name).1

def extension? (path : Path) : Option String := path.fileName?.bind fun name => (splitName name).2.map String.ofList

/-- The path without the text of its extension; the dot stays. -/
def dropExtension (path : Path) : Path :=
  match path.extension? with
  | none => path
  | some extension =>
    ⟨String.ofList (path.text.toList.take (path.text.length - extension.length))⟩

def nameWith (stem : List Char) (extension : String) : List Char :=
  if extension.isEmpty then stem else stem ++ '.' :: extension.toList

/-- The path with another extension, or without one if the extension is empty. -/
def withExtension (path : Path) (extension : String) : Path :=
  let bare := path.dropExtension
  match bare.fileName?, trimIdle bare.pieces.reverse with
  | some name, _ :: rest => ofPieces (nameWith (splitName name).1 extension :: rest).reverse
  | _, _ => bare

/-- The path and the paths it is below, from the longest to the shortest. The fuel is the number of
pieces. -/
def ancestorsFrom : Nat → Path → List Path
  | 0, path => [path]
  | fuel + 1, path =>
    match path.parent? with
    | none => [path]
    | some parent => path :: ancestorsFrom fuel parent

def ancestors (path : Path) : List Path := ancestorsFrom path.pieces.length path

end Path

end FlightProcedure
