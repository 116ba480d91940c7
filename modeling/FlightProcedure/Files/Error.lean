import FlightProcedure.Files.Path

/-!
# Why an operation on files fails

The texts are those of the operating system.
-/

namespace FlightProcedure

inductive FileError where
  | notFound
  | alreadyExists
  | notDirectory
  | isDirectory
  | nameTooLong
  | nulInPath
  | notText
  | system (text : String)
deriving DecidableEq

def FileError.message : FileError → String
  | .notFound => "No such file or directory (os error 2)"
  | .alreadyExists => "File exists (os error 17)"
  | .notDirectory => "Not a directory (os error 20)"
  | .isDirectory => "Is a directory (os error 21)"
  | .nameTooLong => "File name too long (os error 36)"
  | .nulInPath => "file name contained an unexpected NUL byte"
  | .notText => "stream did not contain valid UTF-8"
  | .system text => text

structure FileFailure where
  path : Path
  error : FileError
deriving DecidableEq

def FileFailure.message (failure : FileFailure) : String :=
  "IO error for path '" ++ failure.path.text ++ "': " ++ failure.error.message

end FlightProcedure
