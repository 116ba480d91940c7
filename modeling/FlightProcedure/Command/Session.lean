import FlightProcedure.Command.Report

/-!
# The language that a command works with

The settings are those for the place where a command works, and they may ask for other grammars than
the embedded ones.
-/

namespace FlightProcedure

structure Session where
  settings : Settings
  language : Language

namespace Session

/-- The language of the grammar texts that the settings ask for, or else the embedded one. -/
def languageOf : Option GrammarTexts → Except CommandError Language
  | none => match Language.embedded with
    | .ok language => .ok language
    | .error cause => .error (.embeddedGrammars cause)
  | some texts => match Language.ofTexts texts with
    | .ok language => .ok language
    | .error cause => .error (.configuredGrammars cause)

variable {m : Type → Type} [Monad m] [Files m]

/-- The directory where the search for settings starts: that of a file, or the directory itself. -/
def startDirectory (place : Path) : m Path := do
  match ← Files.kind? place with
  | some .directory => return place
  | some .file =>
    match place.parent? with
    | some parent => if parent.text.isEmpty then return ⟨"."⟩ else return parent
    | none => return ⟨"."⟩
  | none => return ⟨"."⟩

/-- The session for a place. The paths of grammars are seen from the file with the settings. -/
def load (config : Option Path) (place : Path) : m (Except CommandError Session) := do
  match ← Settings.load config (← startDirectory place) with
  | .error cause => return .error (.settings cause)
  | .ok { settings, source } =>
    let base := (source.bind Path.parent?).getD ⟨"."⟩
    match ← settings.grammarTexts base with
    | .error failure => return .error (.grammarFile failure)
    | .ok texts =>
      match languageOf texts with
      | .error error => return .error error
      | .ok language => return .ok { settings, language }

end Session

end FlightProcedure
