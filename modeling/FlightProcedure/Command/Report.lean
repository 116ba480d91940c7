import FlightProcedure.Ebnf.Error
import FlightProcedure.Language.Compile
import FlightProcedure.Settings.Load

/-!
# What a command says

A command ends with a report: what it prints, what it prints as errors, and its exit code.
-/

namespace FlightProcedure

inductive CommandError where
  | settings (cause : SettingsError)
  | grammarFile (failure : FileFailure)
  | configuredGrammars (cause : GrammarError)
  | embeddedGrammars (cause : GrammarError)
  | noSources
  | nameForMany
  | pathNotFound (path : Path)
  | noOutputDirectory (path : Path) (cause : FileError)
  | unreadable (path : Path) (cause : FileError)
  | unwritable (path : Path) (cause : FileError)
  | unparsable (path : Path) (cause : ParseError)
  | source (cause : SourceError)
  | conversion (cause : ConversionError)
  | failedProcedures (failed total : Nat)
  | staleGrammars (count : Nat)

def CommandError.message : CommandError → String
  | .settings cause => cause.message
  | .grammarFile failure => failure.message ++ ": " ++ failure.error.message
  | .configuredGrammars cause => "Failed to build the configured grammars: " ++ cause.message
  | .embeddedGrammars cause => cause.message
  | .noSources => "No .pluto files found"
  | .nameForMany => "--name can only be used with a single procedure file"
  | .pathNotFound path => "Path not found: " ++ path.text
  | .noOutputDirectory path cause =>
    "Failed to create output directory " ++ path.text ++ ": " ++ cause.message
  | .unreadable path cause => "Failed to read " ++ path.text ++ ": " ++ cause.message
  | .unwritable path cause => "Failed to write " ++ path.text ++ ": " ++ cause.message
  | .unparsable path cause => "Failed to parse " ++ path.text ++ ": " ++ cause.message
  | .source cause => cause.message
  | .conversion cause => cause.message
  | .failedProcedures failed total =>
    toString failed ++ " of " ++ toString total ++ " procedure(s) failed to compile"
  | .staleGrammars count =>
    "Run `pluto grammar regenerate` to update " ++ toString count ++ " file(s)"

inductive TextStyle where
  | green
  | red
  | bold
  | dimmed
  | boldRed
deriving DecidableEq

def TextStyle.code : TextStyle → String
  | .green => "32"
  | .red => "31"
  | .bold => "1"
  | .dimmed => "2"
  | .boldRed => "1;31"

def TextStyle.paint (style : TextStyle) (colour : Bool) (text : String) : String :=
  if colour then "\x1b[" ++ style.code ++ "m" ++ text ++ "\x1b[0m" else text

structure Report where
  stdout : String := ""
  stderr : String := ""
  code : Nat := 0
deriving DecidableEq

namespace Report

def tick (colour : Bool) : String := TextStyle.green.paint colour "✓"

def cross (colour : Bool) : String := TextStyle.red.paint colour "✗"

def fail (report : Report) (colour : Bool) (error : CommandError) : Report :=
  { report with
    stderr := report.stderr ++ TextStyle.boldRed.paint colour "error:" ++ " " ++ error.message ++ "\n"
    code := 1 }

end Report

end FlightProcedure
