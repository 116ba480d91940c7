import FlightProcedure.Files.Access
import FlightProcedure.Language.Basic
import FlightProcedure.Settings.Basic

/-!
# Finding and loading settings

Settings are in a file that the user names, or else in the first one of the known names in a directory
or one of the directories above it. Without any, all settings are missing.
-/

namespace FlightProcedure

inductive SettingsError where
  | badStart (error : FileError)
  | missing (path : Path)
  | unreadable (path : Path) (error : FileError)
  | unknownFormat (path : Path)
  | badJson (path : Path)
  | badToml (path : Path)
deriving DecidableEq

def SettingsError.message (error : SettingsError) : String :=
  "Configuration error: " ++ match error with
    | .badStart error => "Invalid path: " ++ error.message
    | .missing path => "Config file not found: " ++ path.text
    | .unreadable path error =>
      "Failed to load config from '" ++ path.text ++ "': " ++ FileFailure.message ⟨path, error⟩
    | .unknownFormat path =>
      "Unsupported config file '" ++ path.text ++ "' (expected .toml or .json)"
    | .badJson path => "Invalid JSON in '" ++ path.text ++ "'"
    | .badToml path => "Invalid TOML in '" ++ path.text ++ "'"

namespace Settings

/-- The names of files with settings, the preferred one first. -/
def fileNames : List Path :=
  [⟨".plutorc.json"⟩, ⟨".plutorc.toml"⟩, ⟨"pluto.toml"⟩, ⟨"pluto.json"⟩]

def ofFileText (path : Path) (text : String) : Except SettingsError Settings :=
  match path.extension? with
  | some "toml" => match ofToml? text with
    | some settings => .ok settings
    | none => .error (.badToml path)
  | some "json" => match ofJson? text with
    | some settings => .ok settings
    | none => .error (.badJson path)
  | _ => .error (.unknownFormat path)

section

variable {m : Type → Type} [Monad m] [Files m]

def loadFile (path : Path) : m (Except SettingsError Settings) := do
  match ← Files.readText path with
  | .error error => return .error (.unreadable path error)
  | .ok text => return ofFileText path text

def discover (start : Path) : m (Except SettingsError (Option Path)) := do
  match ← Files.canonical start with
  | .error error => return .error (.badStart error)
  | .ok directory =>
    let candidates := directory.ancestors.flatMap fun above => fileNames.map above.join
    return .ok (← Files.firstFile? candidates)

structure Loaded where
  settings : Settings := {}
  source : Option Path := none

def loadFrom (path : Path) : m (Except SettingsError Loaded) := do
  match ← loadFile path with
  | .error error => return .error error
  | .ok settings => return .ok { settings, source := some path }

/-- The settings in the file that the user names, or else those for a directory. -/
def load (custom : Option Path) (start : Path) : m (Except SettingsError Loaded) := do
  match custom with
  | some path =>
    match ← Files.kind? path with
    | none => return .error (.missing path)
    | some _ => loadFrom path
  | none =>
    match ← discover start with
    | .error error => return .error error
    | .ok none => return .ok {}
    | .ok (some path) => loadFrom path

/-- The text of a grammar: that of a file if one is set. -/
def grammarText (base : Path) (embedded : String) : Option Path → m (Except FileFailure String)
  | none => return .ok embedded
  | some path => do
    let path := base.join path
    match ← Files.readText path with
    | .error error => return .error ⟨path, error⟩
    | .ok text => return .ok text

/-- The grammar texts that the settings ask for, if they ask for any. Relative paths are seen from a base
directory. -/
def grammarTexts (settings : Settings) (base : Path) : m (Except FileFailure (Option GrammarTexts)) := do
  match settings.grammar with
  | none => return .ok none
  | some { procedure := none, units := none } => return .ok none
  | some { procedure, units } =>
    match ← grammarText base Language.procedureGrammar procedure with
    | .error failure => return .error failure
    | .ok procedure =>
      match ← grammarText base Language.unitsGrammar units with
      | .error failure => return .error failure
      | .ok units => return .ok (some { procedure, units })

end

end Settings

def GrammarTexts.ofFiles {m : Type → Type} [Monad m] [Files m] (procedure units : Path) :
    m (Except FileFailure GrammarTexts) := do
  match ← Files.readText procedure with
  | .error error => return .error ⟨procedure, error⟩
  | .ok procedure =>
    match ← Files.readText units with
    | .error error => return .error ⟨units, error⟩
    | .ok units => return .ok { procedure, units }

end FlightProcedure
