import ProcLang.Lower.Stmt

/-!
# Programs

The body of a program becomes the function `main`, whose scope is named after the program.
-/

namespace ProcLang

namespace Lower

/-- The function that the body of a program becomes. -/
def mainName : String := "main"

/-- Starts the body of a program. -/
def beginProgram (name : String) : Lower (Except Ir.NameTaken Unit) := do
  match ← build (.defineFunction mainName .i32 []) with
  | .error error => return .error error
  | .ok entry =>
    build (.moveTo entry)
    openScope name .program
    return .ok ()

/-- Ends the body of a program, if there is one, and gives the module. -/
def finish : Lower Ir.Module := do
  if (← get).builder.cursor.isSome then
    unless ← build .isTerminated do
      build (.ret (.int 0))
  unless (← get).frames.isEmpty do
    closeScope
  return (← get).builder.module

end Lower

end ProcLang
