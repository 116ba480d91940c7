import FlightProcedure.Command.Arguments
import FlightProcedure.Command.GrammarFiles

/-!
# Running the program

The arguments decide what is done; the report says what to print and how to end.
-/

namespace FlightProcedure.Command

def versionText : String := "pluto 0.1.0\n"

def helpText : String :=
  "Compiles procedures written in PLUTO (ECSS-E-ST-70-32C) into Python modules\n" ++
  "\n" ++
  "Usage: pluto [OPTIONS] [COMMAND]\n" ++
  "\n" ++
  "Commands:\n" ++
  "  compile <PATHS>...    Compile procedure files into Python modules\n" ++
  "  tree <FILE>           Print the syntax tree of a procedure\n" ++
  "  grammar regenerate    Write the .grammar files from the ISO EBNF sources\n" ++
  "  grammar check         Fail if the .grammar files differ from a fresh conversion\n" ++
  "\n" ++
  "Options:\n" ++
  "  -c, --config <CONFIG>    Path to configuration file\n" ++
  "  -v, --verbose            Verbose output\n" ++
  "  -q, --quiet              Only report errors\n" ++
  "      --no-color           Disable colored output\n" ++
  "  -j, --threads <THREADS>  Number of threads\n" ++
  "  -h, --help               Print help\n" ++
  "  -V, --version            Print version\n"

def stopReport : ArgumentStop → Report
  | .help => { stdout := helpText }
  | .version => { stdout := versionText }
  | .misuse => { stderr := "error: the arguments are not valid\n\n" ++ helpText, code := 2 }

def perform {m : Type → Type} [Monad m] [Files m] (invocation : Invocation) : m Report :=
  match invocation.task with
  | none => return { stdout := helpText }
  | some (.compile request) =>
    request.run invocation.config invocation.quiet invocation.colour
  | some (.tree request) => request.run invocation.config invocation.colour
  | some (.regenerate directory) =>
    GrammarFiles.regenerate directory invocation.quiet invocation.colour
  | some (.check directory) => GrammarFiles.check directory invocation.quiet invocation.colour

/-- Does what the arguments ask for. The flag says that colours are not wanted in any case. -/
def run {m : Type → Type} [Monad m] [Files m] (plain : Bool) (arguments : List String) : m Report :=
  match Invocation.ofArguments arguments with
  | .error stop => return stopReport stop
  | .ok invocation => perform { invocation with colour := invocation.colour && !plain }

end FlightProcedure.Command
