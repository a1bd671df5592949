import SchemaEvolution.Program.Folder
import SchemaEvolution.Program.Run

/-!
# The program

Reads the files that the command line names, runs the command, and writes what it produced.
-/

open SchemaEvolution Program

/-- The fault that an error of the system stands for, if it is a known one. -/
def faultOf? (error : IO.Error) : Option AccessFault :=
  match error with
  | .noFileOrDirectory _ _ _ => some .noSuchFile
  | .permissionDenied _ 13 _ => some .permissionDenied
  | .inappropriateType _ 20 _ => some .notADirectory
  | .inappropriateType _ 21 _ => some .isADirectory
  | .invalidArgument _ 36 _ => some .nameTooLong
  | _ => none

def systemReason (error : IO.Error) : String :=
  match faultOf? error with
  | some fault => fault.message
  | none => toString error

def readInput (path : String) : IO (String × Except String String) := do
  try
    let text ← IO.FS.readFile path
    return (path, .ok text)
  catch error => return (path, .error (systemReason error))

def main (args : List String) : IO UInt32 := do
  let request := Request.ofArguments args
  let inputs ← match request with
    | .run _ command => command.inputs.mapM readInput
    | _ => pure []
  let files (path : String) : Except String String :=
    match inputs.lookup path with
    | some text => text
    | none => .error "not read"
  let ending := request.execute files
  let ending ← match ending.write with
    | none => pure ending
    | some (path, content) =>
      try
        IO.FS.writeFile path content
        pure ending
      catch error => pure (ending.unwritten path (systemReason error))
  (← IO.getStderr).putStr ending.stderr
  (← IO.getStdout).putStr ending.stdout
  return ending.code.toUInt32
