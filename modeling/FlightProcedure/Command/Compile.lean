import FlightProcedure.Command.Session

/-!
# The command that compiles procedures

Directories stand for the procedures below them. Each procedure is compiled on its own: one that fails
leaves no file and does not keep the others from being compiled.
-/

namespace FlightProcedure

structure CompileRequest where
  paths : List Path
  output : Option Path := none
  name : Option String := none
  stdout : Bool := false

/-- A list without items that equal the item before them. -/
def dropRepeats (same : α → α → Bool) : List α → List α
  | [] => []
  | [a] => [a]
  | a :: b :: rest =>
    if same a b then
      match dropRepeats same (b :: rest) with
      | [] => [a]
      | _ :: rest => a :: rest
    else a :: dropRepeats same (b :: rest)

def isSource (path : Path) : Bool :=
  path.extension? == some "pluto"

section

variable {m : Type → Type} [Monad m] [Files m]

def sourcesAt (path : Path) : m (Except CommandError (List Path)) := do
  match ← Files.kind? path with
  | some .directory => return .ok (((← Files.filesBelow path).filter isSource).mergeSort Path.le)
  | some .file => return .ok [path]
  | none => return .error (.pathNotFound path)

def sourcesFrom : List Path → m (Except CommandError (List Path))
  | [] => return .ok []
  | path :: rest => do
    match ← sourcesAt path with
    | .error error => return .error error
    | .ok sources =>
      match ← sourcesFrom rest with
      | .error error => return .error error
      | .ok more => return .ok (sources ++ more)

/-- The procedures that paths stand for. A path right after an equal one is left out. -/
def sources (paths : List Path) : m (Except CommandError (List Path)) := do
  match ← sourcesFrom paths with
  | .error error => return .error error
  | .ok found => return .ok (dropRepeats Path.same found)

end

structure Job where
  session : Session
  output : Option Path
  name : Option String
  stdout : Bool

inductive Generated where
  | written (target : Path)
  | printed (script : String)

structure Outcome where
  source : Path
  result : Except CommandError Generated

namespace Job

/-- The name of a procedure: the given one, else the one that is set, else that of its file. -/
def procedureName (job : Job) (source : Path) : String :=
  match job.name, job.session.settings.procedureName?, source.fileStem? with
  | some name, _, _ => name
  | none, some name, _ => name
  | none, none, some stem => stem
  | none, none, none => job.session.settings.procedureName

def target (job : Job) (source : Path) : Path :=
  let beside := source.withExtension job.session.settings.outputExtension
  match job.output with
  | none => beside
  | some directory => directory.join ⟨String.ofList (beside.fileName?.getD [])⟩

variable {m : Type → Type} [Monad m] [Files m]

def compile (job : Job) (source : Path) : m (Except CommandError Generated) := do
  match ← Files.readText source with
  | .error cause => return .error (.unreadable source cause)
  | .ok text =>
    match job.session.language.compile text (job.procedureName source) with
    | .error cause => return .error (.source cause)
    | .ok script =>
      if job.stdout then return .ok (.printed script)
      else
        let target := job.target source
        match ← Files.writeText target script with
        | .error cause => return .error (.unwritable target cause)
        | .ok () => return .ok (.written target)

def compileAll (job : Job) : List Path → m (List Outcome)
  | [] => return []
  | source :: rest => do
    let result ← job.compile source
    let outcomes ← job.compileAll rest
    return ⟨source, result⟩ :: outcomes

end Job

namespace Report

def addOutcome (quiet colour : Bool) (report : Report) (outcome : Outcome) : Report :=
  match outcome.result with
  | .ok (.printed script) => { report with stdout := report.stdout ++ script }
  | .ok (.written target) =>
    if quiet then report
    else { report with
      stdout := report.stdout ++ tick colour ++ " " ++ outcome.source.text ++ " -> " ++
        TextStyle.dimmed.paint colour target.text ++ "\n" }
  | .error error =>
    { report with
      stderr := report.stderr ++ cross colour ++ " " ++
        TextStyle.bold.paint colour outcome.source.text ++ ": " ++ error.message ++ "\n" }

def failures (outcomes : List Outcome) : Nat :=
  (outcomes.filter fun outcome => match outcome.result with
    | .ok _ => false
    | .error _ => true).length

def summary (colour : Bool) (compiled failed : Nat) : String :=
  "\n" ++ TextStyle.bold.paint colour "Summary:" ++ "\n" ++
    "  Compiled: " ++ TextStyle.green.paint colour (toString compiled) ++ "\n" ++
    if failed = 0 then ""
    else "  Failed: " ++ TextStyle.red.paint colour (toString failed) ++ "\n"

def ofOutcomes (quiet colour stdout : Bool) (outcomes : List Outcome) : Report :=
  let report := outcomes.foldl (addOutcome quiet colour) {}
  let failed := failures outcomes
  let report :=
    if quiet || stdout then report
    else { report with
      stdout := report.stdout ++ summary colour (outcomes.length - failed) failed }
  if failed = 0 then report else report.fail colour (.failedProcedures failed outcomes.length)

end Report

namespace CompileRequest

variable {m : Type → Type} [Monad m] [Files m]

/-- The procedures that should be compiled. There must be one, and only one if it is given a name. -/
def findSources (request : CompileRequest) : m (Except CommandError (List Path)) := do
  match ← sources request.paths with
  | .error error => return .error error
  | .ok found =>
    if found.isEmpty then return .error .noSources
    else if request.name.isSome && 1 < found.length then return .error .nameForMany
    else return .ok found

/-- Makes the directory for the scripts, if they are written to one. -/
def makeOutput (request : CompileRequest) (output : Option Path) : m (Except CommandError Unit) := do
  match output, request.stdout with
  | some directory, false =>
    match ← Files.makeDirectories directory with
    | .error cause => return .error (.noOutputDirectory directory cause)
    | .ok () => return .ok ()
  | _, _ => return .ok ()

def run (request : CompileRequest) (config : Option Path) (quiet colour : Bool) : m Report := do
  match ← Session.load config (request.paths.head?.getD ⟨"."⟩) with
  | .error error => return Report.fail {} colour error
  | .ok session =>
    match ← request.findSources with
    | .error error => return Report.fail {} colour error
    | .ok found =>
      let output := request.output.orElse fun _ => session.settings.outputDirectory?
      match ← request.makeOutput output with
      | .error error => return Report.fail {} colour error
      | .ok () =>
        let job : Job := { session, output, name := request.name, stdout := request.stdout }
        return Report.ofOutcomes quiet colour request.stdout (← job.compileAll found)

end CompileRequest

end FlightProcedure
