import FlightProcedure.Command.Session
import FlightProcedure.Parse.TreeJson

/-!
# The command that prints a syntax tree
-/

namespace FlightProcedure

structure TreeRequest where
  file : Path
  start : Option String := none
  json : Bool := false

namespace TreeRequest

def render (request : TreeRequest) (tree : Tree) : String :=
  if request.json then tree.toJson ++ "\n" else tree.pretty

def run {m : Type → Type} [Monad m] [Files m] (request : TreeRequest) (config : Option Path)
    (colour : Bool) : m Report := do
  match ← Session.load config request.file with
  | .error error => return Report.fail {} colour error
  | .ok session =>
    match ← Files.readText request.file with
    | .error cause => return Report.fail {} colour (.unreadable request.file cause)
    | .ok source =>
      match session.language.parseAs source (request.start.getD Language.procedureRoot) with
      | .error cause => return Report.fail {} colour (.unparsable request.file cause)
      | .ok tree => return { stdout := request.render tree }

end TreeRequest

end FlightProcedure
