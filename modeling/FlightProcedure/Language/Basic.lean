import FlightProcedure.Grammar.Build
import FlightProcedure.Grammar.Import
import FlightProcedure.Grammar.Reader
import FlightProcedure.Language.ProcedureGrammar
import FlightProcedure.Language.UnitsGrammar
import FlightProcedure.Parse.Run

/-!
# The procedure language

The language has two grammars: that of engineering units, and that of procedures, which imports the
units. `Language.ofTexts` builds both, and `Language.embedded` is the language of the embedded texts.
-/

namespace FlightProcedure

structure GrammarTexts where
  procedure : String := Language.procedureGrammar
  units : String := Language.unitsGrammar
deriving DecidableEq

structure Language where
  procedure : Grammar
  units : Grammar

namespace Language

/-- The rule that a unit is read by, which is also the namespace of its parts. -/
def unitsRoot : String := "engineering_units"

def procedureRoot : String := "procedure_definition"

/-- White space and comments stand between tokens. -/
def ignored : List String := ["\\s+", "/\\*(?s:.*?)\\*/", "//[^\\n]*"]

def procedureOptions : GrammarOptions :=
  { ignore := ignored, guarded := ["IDENTIFIER"], reserved := ["NOT"] }

def unitsOptions : GrammarOptions := { ignore := ignored }

def ofTexts (texts : GrammarTexts) : Except GrammarError Language := do
  let unitsDefinitions ← Definitions.ofText texts.units
  let units ← Grammar.build unitsDefinitions unitsOptions
  let definitions ← Definitions.ofText texts.procedure
  let definitions ← definitions.importFrom unitsDefinitions unitsRoot unitsRoot
  let procedure ← Grammar.build definitions procedureOptions
  .ok { procedure, units }

def embedded : Except GrammarError Language := ofTexts {}

def parseAs (language : Language) (source rule : String) : Except ParseError Tree :=
  language.procedure.parse source rule

def parseProcedure (language : Language) (source : String) : Except ParseError Tree :=
  language.parseAs source procedureRoot

def parseUnits (language : Language) (source : String) : Except ParseError Tree := language.units.parse source unitsRoot

end Language

end FlightProcedure
