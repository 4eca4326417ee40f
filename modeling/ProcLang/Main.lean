import ProcLang.Command

/-!
# The program

Runs the command on the files of the computer.
-/

namespace ProcLang

/-- The text and the code of a failure of the system, if it has a code. -/
def systemError : IO.Error → FileError
  | .noFileOrDirectory _ code details
  | .permissionDenied _ code details
  | .alreadyExists _ code details
  | .inappropriateType _ code details
  | .resourceExhausted _ code details
  | .invalidArgument _ code details
  | .resourceBusy code details
  | .otherError code details => .system details code.toNat
  | error => .system (toString error) 0

/-- Runs an action and keeps its failure. -/
def attempt {α : Type} (action : IO α) : IO (Except FileError α) := do
  try
    return .ok (← action)
  catch error =>
    return .error (systemError error)

/-- Reading and writing of the files of the computer. -/
def computerFiles : FileAccess IO where
  read path := attempt do (← IO.FS.Handle.mk path .read).readBinToEnd
  write path text := attempt (IO.FS.writeFile path text)

end ProcLang

/-- Runs the command with the arguments of the program. -/
def main (args : List String) : IO UInt32 := do
  let outcome ← ProcLang.Command.run ProcLang.computerFiles args
  IO.print outcome.stdout
  IO.eprint outcome.stderr
  return outcome.code.toUInt32
