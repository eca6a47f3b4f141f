import RowTyping.CommandLine

/-!
# The program

Reads the file named by the arguments and prints the result of `CommandLine.run`.
-/

/-- The text of a file, or why it cannot be read. -/
def readSource (path : String) : IO (Except String String) := do
  try
    match String.fromUTF8? (← IO.FS.readBinFile path) with
    | some text => return .ok text
    | none => return .error "stream did not contain valid UTF-8"
  catch
    | .noFileOrDirectory .. => return .error "No such file or directory (os error 2)"
    | .permissionDenied .. => return .error "Permission denied (os error 13)"
    | .inappropriateType _ 21 _ => return .error "Is a directory (os error 21)"
    | .inappropriateType .. => return .error "Not a directory (os error 20)"
    | e => return .error (toString e)

/-- Carry out the arguments and hand back the exit code. -/
def main (args : List String) : IO UInt32 := do
  let exit ← RowTyping.CommandLine.run readSource args
  (← IO.getStdout).putStr exit.out
  (← IO.getStderr).putStr exit.err
  return exit.code
