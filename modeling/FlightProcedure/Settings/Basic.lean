import FlightProcedure.Document.Json
import FlightProcedure.Document.Toml
import FlightProcedure.Files.Path

/-!
# Settings

Settings come in three sections, each of which may be missing, as may each setting. A document holds
the settings of a section as a table, or as a list with all of them in order. Unknown names do not
matter, and a known name may not occur twice.
-/

namespace FlightProcedure

structure CompilerSettings where
  procedureName : Option String := none
deriving DecidableEq

structure OutputSettings where
  extension : Option String := none
  directory : Option Path := none
deriving DecidableEq

structure GrammarSettings where
  procedure : Option Path := none
  units : Option Path := none
deriving DecidableEq

structure Settings where
  compiler : Option CompilerSettings := none
  output : Option OutputSettings := none
  grammar : Option GrammarSettings := none
deriving DecidableEq

structure DocumentRules where
  /-- Whether a list may go on after the last setting. -/
  longLists : Bool

namespace DocumentRules

/-- Lists in JSON have exactly one item for each setting. -/
def json : DocumentRules := ⟨false⟩

/-- Lists in TOML may be longer than needed. -/
def toml : DocumentRules := ⟨true⟩

end DocumentRules

namespace Document

/-- The value under a name; the name may not occur twice. -/
def uniqueValue? (entries : List (String × Document)) (name : String) : Option (Option Document) :=
  match entries.filter (·.1 == name) with
  | [] => some none
  | [(_, value)] => some (some value)
  | _ => none

def fields? (rules : DocumentRules) (names : List String) : Document → Option (List (Option Document))
  | .table entries => names.mapM (uniqueValue? entries)
  | .list items =>
    if items.length = names.length ∨ (rules.longLists ∧ names.length < items.length) then
      some ((items.take names.length).map some)
    else none
  | .moment => some (names.map fun _ => none)
  | _ => none

/-- A setting that may be missing or null. -/
def optional? (read : Document → Option α) : Option Document → Option (Option α)
  | none => some none
  | some .null => some none
  | some document => (read document).map some

def text? : Document → Option String
  | .text value => some value
  | _ => none

def path? (document : Document) : Option Path := document.text?.map Path.mk

end Document

def CompilerSettings.ofDocument? (rules : DocumentRules) (document : Document) : Option CompilerSettings := do
  match ← document.fields? rules ["procedureName"] with
  | [procedureName] => return { procedureName := ← Document.optional? Document.text? procedureName }
  | _ => none

def OutputSettings.ofDocument? (rules : DocumentRules) (document : Document) : Option OutputSettings := do
  match ← document.fields? rules ["extension", "directory"] with
  | [extension, directory] =>
    return { extension := ← Document.optional? Document.text? extension
             directory := ← Document.optional? Document.path? directory }
  | _ => none

def GrammarSettings.ofDocument? (rules : DocumentRules) (document : Document) : Option GrammarSettings := do
  match ← document.fields? rules ["pluto", "engineeringUnits"] with
  | [procedure, units] =>
    return { procedure := ← Document.optional? Document.path? procedure
             units := ← Document.optional? Document.path? units }
  | _ => none

namespace Settings

def ofDocument? (rules : DocumentRules) (document : Document) : Option Settings := do
  match ← document.fields? rules ["compiler", "output", "grammar"] with
  | [compiler, output, grammar] =>
    return { compiler := ← Document.optional? (CompilerSettings.ofDocument? rules) compiler
             output := ← Document.optional? (OutputSettings.ofDocument? rules) output
             grammar := ← Document.optional? (GrammarSettings.ofDocument? rules) grammar }
  | _ => none

def ofJson? (text : String) : Option Settings := (Document.ofJson? text).bind (ofDocument? .json)

def ofToml? (text : String) : Option Settings := (Document.ofToml? text).bind (ofDocument? .toml)

def defaultProcedureName : String := "noname"

def defaultExtension : String := "py"

def procedureName? (settings : Settings) : Option String := settings.compiler.bind (·.procedureName)

def procedureName (settings : Settings) : String := settings.procedureName?.getD defaultProcedureName

/-- The extension of the files that are written, without the dots before it. -/
def outputExtension (settings : Settings) : String :=
  match settings.output.bind (·.extension) with
  | some extension => String.ofList (extension.toList.dropWhile (· == '.'))
  | none => defaultExtension

def outputDirectory? (settings : Settings) : Option Path := settings.output.bind (·.directory)

end Settings

end FlightProcedure
