import FlightProcedure.Command.Compile
import FlightProcedure.Command.Tree

/-!
# The arguments of the program

The arguments name a command and give switches and operands. Some switches can stand before or after
the name of the command; the one that stands deeper counts. The first argument that asks for help or
the version, or is wrong, decides what happens. A value in an argument of its own is looked at only
when the next switch or operand comes, so a request for help in between wins over a wrong value.
-/

namespace FlightProcedure

inductive Switch where
  | help
  | version
  | config
  | verbose
  | quiet
  | noColour
  | threads
  | output
  | name
  | stdout
  | start
  | json
  | directory
deriving DecidableEq

namespace Switch

def short? : Switch → Option Char
  | .help => some 'h'
  | .version => some 'V'
  | .config => some 'c'
  | .verbose => some 'v'
  | .quiet => some 'q'
  | .threads => some 'j'
  | .output => some 'o'
  | .name => some 'n'
  | _ => none

def long : Switch → String
  | .help => "help"
  | .version => "version"
  | .config => "config"
  | .verbose => "verbose"
  | .quiet => "quiet"
  | .noColour => "no-color"
  | .threads => "threads"
  | .output => "output"
  | .name => "name"
  | .stdout => "stdout"
  | .start => "start"
  | .json => "json"
  | .directory => "dir"

def takesValue : Switch → Bool
  | .config | .threads | .output | .name | .start | .directory => true
  | _ => false

def mayRepeat (switch : Switch) : Bool := switch == .verbose

/-- Whether a text is a number of threads: digits, perhaps after a plus sign, below 2^64. -/
def isThreadCount (value : String) : Bool :=
  let digits := match value.toList with
    | '+' :: digits => digits
    | digits => digits
  !digits.isEmpty && match digitsValue? 10 digits with
    | some count => decide (count < Nat.pow 2 64)
    | none => false

/-- Whether a value is right for a switch. Paths are not empty. -/
def accepts (switch : Switch) (value : String) : Bool :=
  match switch with
  | .config | .output | .directory => !value.isEmpty
  | .threads => isThreadCount value
  | _ => true

end Switch

inductive ArgumentLevel where
  | program
  | compile
  | tree
  | grammar
  | regenerate
  | check
deriving DecidableEq

namespace ArgumentLevel

def sharedSwitches : List Switch := [.help, .config, .verbose, .quiet, .noColour, .threads]

def switches : ArgumentLevel → List Switch
  | .program => .version :: sharedSwitches
  | .compile => [.output, .name, .stdout] ++ sharedSwitches
  | .tree => [.start, .json] ++ sharedSwitches
  | .grammar => sharedSwitches
  | .regenerate => .directory :: sharedSwitches
  | .check => .directory :: sharedSwitches

def commands : ArgumentLevel → List (String × ArgumentLevel)
  | .program => [("compile", .compile), ("tree", .tree), ("grammar", .grammar)]
  | .grammar => [("regenerate", .regenerate), ("check", .check)]
  | _ => []

def allowsOperand : ArgumentLevel → Nat → Bool
  | .compile, _ => true
  | .tree, count => count == 0
  | _, _ => false

end ArgumentLevel

inductive ArgumentStop where
  | help
  | version
  | misuse
deriving DecidableEq

structure Given where
  switches : List (Switch × String) := []
  operands : List String := []
  pending : Option (Switch × String) := none

namespace Given

def has (given : Given) (switch : Switch) : Bool := given.switches.any (·.1 == switch)

def value? (given : Given) (switch : Switch) : Option String := given.switches.lookup switch

def record (given : Given) (switch : Switch) (value : String) : Except ArgumentStop Given :=
  match switch with
  | .help => .error .help
  | .version => .error .version
  | switch =>
    if given.has switch && !switch.mayRepeat then .error .misuse
    else if switch.accepts value then
      .ok { given with switches := given.switches ++ [(switch, value)] }
    else .error .misuse

def settle (given : Given) : Except ArgumentStop Given :=
  match given.pending with
  | none => .ok given
  | some (switch, value) => { given with pending := none }.record switch value

def give (given : Given) (switch : Switch) (value : String) : Except ArgumentStop Given := do
  (← given.settle).record switch value

/-- One more operand. Operands are paths, which are not empty. -/
def giveOperand (given : Given) (level : ArgumentLevel) (operand : String) : Except ArgumentStop Given := do
  let given ← given.settle
  if level.allowsOperand given.operands.length && !operand.isEmpty then
    return { given with operands := given.operands ++ [operand] }
  else .error .misuse

/-- Letters after one dash. The result may be a switch whose value is the next argument. -/
def giveShort (level : ArgumentLevel) (given : Given) : List Char → Except ArgumentStop (Given × Option Switch)
  | [] => .ok (given, none)
  | c :: rest =>
    match level.switches.find? (·.short? == some c) with
    | none => .error .misuse
    | some switch =>
      if switch.takesValue then
        match rest with
        | [] => do return (← given.settle, some switch)
        | '=' :: value => do return (← given.give switch (String.ofList value), none)
        | value => do return (← given.give switch (String.ofList value), none)
      else do giveShort level (← given.give switch "") rest

/-- A word after two dashes, perhaps with a value after an equals sign. The result may be a switch whose
value is the next argument. -/
def giveLong (level : ArgumentLevel) (given : Given) (text : List Char) : Except ArgumentStop (Given × Option Switch) :=
  let word := String.ofList (text.takeWhile (· != '='))
  let attached := match text.dropWhile (· != '=') with
    | [] => none
    | _ :: value => some (String.ofList value)
  match level.switches.find? (·.long == word) with
  | none => .error .misuse
  | some switch =>
    match switch.takesValue, attached with
    | true, some value => do return (← given.give switch value, none)
    | true, none => do return (← given.settle, some switch)
    | false, none => do return (← given.give switch "", none)
    | false, some _ => .error .misuse

/-- Whether what is given on a level can stand together. -/
def isConsistent (given : Given) (level : ArgumentLevel) (hasCommand : Bool) : Bool :=
  !(given.has .quiet && given.has .verbose) &&
    match level with
    | .compile => !given.operands.isEmpty && !(given.has .stdout && given.has .output)
    | .tree => !given.operands.isEmpty
    | .grammar => hasCommand
    | _ => true

def finish (given : Given) (level : ArgumentLevel) (hasCommand : Bool) : Except ArgumentStop Given := do
  let given ← given.settle
  if given.isConsistent level hasCommand then return given else .error .misuse

end Given

abbrev GivenLevels := List (ArgumentLevel × Given)

namespace Arguments

/-- Whether an argument is a switch, or ends the switches. -/
def isDashed (argument : String) : Bool :=
  match argument.toList with
  | '-' :: _ :: _ => true
  | _ => false

/-- What a request for help on a command, given by its names, leads to. -/
def helpOn (level : ArgumentLevel) : List String → ArgumentStop
  | [] => .help
  | name :: rest =>
    match level.commands.lookup name with
    | some command => helpOn command rest
    | none =>
      if name = "help" ∧ rest.isEmpty ∧ !level.commands.isEmpty then .help else .misuse

def readOperands (level : ArgumentLevel) (given : Given) (operands : List String) : Except ArgumentStop Given :=
  operands.foldlM (fun given operand => given.giveOperand level operand) given

def readLevel (level : ArgumentLevel) (given : Given) : List String → Except ArgumentStop GivenLevels
  | [] => do return [(level, ← given.finish level false)]
  | argument :: rest =>
    if argument = "--" then do
      let given ← readOperands level given rest
      return [(level, ← given.finish level false)]
    else match level.commands.lookup argument with
      | some command => do
        let inner ← readLevel command {} rest
        return (level, ← given.finish level true) :: inner
      | none =>
        if argument = "help" ∧ !level.commands.isEmpty then .error (helpOn level rest)
        else if isDashed argument then do
          let (given, waiting) ← match argument.toList with
            | '-' :: '-' :: word => given.giveLong level word
            | _ :: letters => given.giveShort level letters
            | [] => .error .misuse
          match waiting, rest with
          | none, rest => readLevel level given rest
          | some _, [] => .error .misuse
          | some switch, value :: rest =>
            if isDashed value then .error .misuse
            else readLevel level { given with pending := some (switch, value) } rest
        else do readLevel level (← given.giveOperand level argument) rest

end Arguments

inductive Task where
  | compile (request : CompileRequest)
  | tree (request : TreeRequest)
  | regenerate (directory : Path)
  | check (directory : Path)

structure Invocation where
  config : Option Path := none
  quiet : Bool := false
  colour : Bool := true
  task : Option Task := none

namespace Invocation

def defaultDirectory : String := "grammars"

def taskOf? : ArgumentLevel → Given → Option Task
  | .compile, given => some (.compile {
      paths := given.operands.map Path.mk
      output := (given.value? .output).map Path.mk
      name := given.value? .name
      stdout := given.has .stdout })
  | .tree, given => given.operands.head?.map fun file => .tree {
      file := ⟨file⟩
      start := given.value? .start
      json := given.has .json }
  | .regenerate, given => some (.regenerate ⟨(given.value? .directory).getD defaultDirectory⟩)
  | .check, given => some (.check ⟨(given.value? .directory).getD defaultDirectory⟩)
  | _, _ => none

def ofLevels (levels : GivenLevels) : Invocation where
  config := (levels.reverse.findSome? fun (_, given) => given.value? .config).map Path.mk
  quiet := levels.any fun (_, given) => given.has .quiet
  colour := !levels.any fun (_, given) => given.has .noColour
  task := levels.reverse.findSome? fun (level, given) => taskOf? level given

def ofArguments (arguments : List String) : Except ArgumentStop Invocation := do
  return ofLevels (← Arguments.readLevel .program {} arguments)

end Invocation

end FlightProcedure
