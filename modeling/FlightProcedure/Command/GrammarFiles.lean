import FlightProcedure.Command.Report
import FlightProcedure.Ebnf.Preset

/-!
# The commands for grammar files

A directory holds both grammars in EBNF and in grammar notation. One command writes the files in
grammar notation, and one checks that they are what the conversion of the EBNF files gives.
-/

namespace FlightProcedure.GrammarFiles

def procedureEbnf : Path := ⟨"pluto.ebnf"⟩

def procedureGrammar : Path := ⟨"pluto.grammar"⟩

def unitsEbnf : Path := ⟨"engineering_units.ebnf"⟩

def unitsGrammar : Path := ⟨"engineering_units.grammar"⟩

variable {m : Type → Type} [Monad m] [Files m]

def readFile (path : Path) : m (Except CommandError String) := do
  match ← Files.readText path with
  | .error cause => return .error (.unreadable path cause)
  | .ok text => return .ok text

def convert (directory : Path) : m (Except CommandError GrammarTexts) := do
  match ← readFile (directory.join procedureEbnf) with
  | .error error => return .error error
  | .ok procedure =>
    match ← readFile (directory.join unitsEbnf) with
    | .error error => return .error error
    | .ok units =>
      match GrammarTexts.ofEbnf procedure units with
      | .error cause => return .error (.conversion cause)
      | .ok texts => return .ok texts

def outputs (directory : Path) (texts : GrammarTexts) : List (Path × String) :=
  [(directory.join procedureGrammar, texts.procedure), (directory.join unitsGrammar, texts.units)]

def writeAll (quiet colour : Bool) (report : Report) : List (Path × String) → m Report
  | [] => return report
  | (path, text) :: rest => do
    match ← Files.writeText path text with
    | .error cause => return report.fail colour (.unwritable path cause)
    | .ok () =>
      let line := if quiet then "" else Report.tick colour ++ " " ++ path.text ++ "\n"
      writeAll quiet colour { report with stdout := report.stdout ++ line } rest

def regenerate (directory : Path) (quiet colour : Bool) : m Report := do
  match ← convert directory with
  | .error error => return Report.fail {} colour error
  | .ok texts => writeAll quiet colour {} (outputs directory texts)

def stale : List (Path × String) → m (List Path)
  | [] => return []
  | (path, expected) :: rest => do
    let current := match ← Files.readText path with
      | .ok text => text
      | .error _ => ""
    let others ← stale rest
    return if current == expected then others else path :: others

def check (directory : Path) (quiet colour : Bool) : m Report := do
  match ← convert directory with
  | .error error => return Report.fail {} colour error
  | .ok texts =>
    match ← stale (outputs directory texts) with
    | [] =>
      return { stdout :=
        if quiet then "" else Report.tick colour ++ " Grammars are up to date\n" }
    | paths =>
      let lines := paths.map fun path =>
        Report.cross colour ++ " " ++ path.text ++ " is out of date\n"
      return Report.fail { stderr := String.join lines } colour (.staleGrammars paths.length)

end FlightProcedure.GrammarFiles
