import FlightProcedure.Command.Run

/-!
# The command line

The program works on the files of the operating system and prints its report.
-/

namespace FlightProcedure

def FileError.ofIO (error : IO.Error) : FileError :=
  match error with
  | .noFileOrDirectory _ _ _ => .notFound
  | .alreadyExists _ _ _ => .alreadyExists
  | .inappropriateType _ code _ => if code = 20 then .notDirectory else .isDirectory
  | .noSuchThing _ _ _ => .notFound
  | error => .system (toString error)

def attempt (action : IO α) : IO (Except FileError α) := do
  try
    return .ok (← action)
  catch error =>
    return .error (FileError.ofIO error)

def systemKind? (path : Path) : IO (Option FileKind) := do
  try
    let info ← (← IO.FS.realPath path.text).metadata
    match info.type with
    | .file => return some .file
    | .dir => return some .directory
    | _ => return none
  catch _ =>
    return none

def readSystemText (path : Path) : IO (Except FileError String) := do
  match ← attempt (IO.FS.readBinFile path.text) with
  | .error error => return .error error
  | .ok content =>
    match String.fromUTF8? content with
    | some text => return .ok text
    | none => return .error .notText

/-- The files below a directory of the operating system. Links are not followed. -/
partial def systemFilesBelow (path : Path) : IO (List Path) := do
  try
    let entries ← (← IO.FS.realPath path.text).readDir
    let found ← entries.toList.mapM fun entry => do
      let child := path.join ⟨entry.fileName⟩
      match (← entry.path.symlinkMetadata).type with
      | .file => return [child]
      | .dir => systemFilesBelow child
      | _ => return []
    return found.flatten
  catch _ =>
    return []

instance : Files IO where
  kind? := systemKind?
  readText := readSystemText
  writeText path text := attempt (IO.FS.writeFile path.text text)
  makeDirectory path := attempt (IO.FS.createDir path.text)
  canonical path := attempt do return ⟨(← IO.FS.realPath path.text).toString⟩
  filesBelow := systemFilesBelow

end FlightProcedure

/-- Runs the program with the given arguments. The environment can ask for output without colours. -/
def main (arguments : List String) : IO UInt32 := do
  let plain := (← IO.getEnv "NO_COLOR").isSome
  let report ← FlightProcedure.Command.run plain arguments
  (← IO.getStdout).putStr report.stdout
  (← IO.getStderr).putStr report.stderr
  return report.code.toUInt32
