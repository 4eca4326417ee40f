import ProcLang.Lower.Program
import ProcLang.Parser.Program

/-!
# Compiling

A program is compiled one item at a time: each declaration or statement is lowered as soon as it is
read. Errors do not stop this, unless the text ends too early; the module holds everything that
could be lowered. The diagnostics come in the order in which they were found, the errors in the text
of an item before the findings in its meaning, and among those the warnings first.
-/

namespace ProcLang

/-- How to compile. -/
structure Options where
  /-- The number of columns that a tab counts for. -/
  tabWidth : Nat := defaultTabWidth
  /-- The name of the module. The program's name stands in for it. -/
  moduleName : Option String := none
deriving DecidableEq, Inhabited

/-- A module and what was found wrong with the program. -/
structure Compilation where
  module : Ir.Module
  diagnostics : List Diagnostic
deriving DecidableEq, Inhabited

namespace Compilation

/-- Whether an error was found. -/
def hasErrors (c : Compilation) : Bool :=
  c.diagnostics.any Diagnostic.isError

/-- The number of errors that were found. -/
def errorCount (c : Compilation) : Nat :=
  c.diagnostics.countP Diagnostic.isError

end Compilation

/-- The diagnostic for an error of meaning. -/
def Diagnostic.ofLowerError (e : LowerError) : Diagnostic :=
  error e.line none e.cause.message

/-- The diagnostics for the errors that a parser holds. -/
def Parser.diagnostics (p : Parser) : List Diagnostic :=
  p.errors.map .ofSyntaxError

/-- The diagnostics for what lowering has found. -/
def Lowering.diagnostics (s : Lowering) : List Diagnostic :=
  s.warnings ++ s.errors.map .ofLowerError

/-- Where a compilation stands: the place in the text, the state of lowering, and the diagnostics so
far. -/
structure Progress where
  parser : Parser
  lowering : Lowering
  diagnostics : List Diagnostic

/-- Lowers an item, and gives the state behind it and the diagnostics for it. -/
def Lowering.item (s : Lowering) (stmt : Stmt) : Except Fault (Lowering × List Diagnostic) := do
  let (_, after) ← stmt.lower s
  return (after.clearFindings, after.diagnostics)

/-- Compiles the items of a section, and says whether the section ended before the text did. -/
def compileSection (part : Section) (p : Parser) (s : Lowering) (found : List Diagnostic) :
    Except Fault (Bool × Progress) :=
  match p.nextItem part with
  | .item stmt q lt => do
    let (after, findings) ← s.item stmt
    have : q.clearErrors.remaining < p.remaining := lt
    compileSection part q.clearErrors after (found ++ q.diagnostics ++ findings)
  | .recovered q lt =>
    have : q.clearErrors.remaining < p.remaining := lt
    compileSection part q.clearErrors s (found ++ q.diagnostics)
  | .finished q _ => .ok (true, ⟨q.clearErrors, s, found ++ q.diagnostics⟩)
  | .ended q _ => .ok (false, ⟨q.clearErrors, s, found ++ q.diagnostics⟩)
termination_by p.remaining

/-- Compiles both sections of a program. The statements are left out if the text ended before the
declarations did. -/
def compileSections (p : Parser) (s : Lowering) (found : List Diagnostic) :
    Except Fault Progress := do
  let (complete, progress) ← compileSection .declarations p s found
  if complete then
    let (_, progress) ← compileSection .statements progress.parser progress.lowering
      progress.diagnostics
    return progress
  else
    return progress

/-- Starts the body of a program, and gives the state and the diagnostics for it. -/
def Lowering.begin (s : Lowering) (name : String) : Except Fault (Lowering × List Diagnostic) := do
  match ← Lower.beginProgram name s with
  | (.ok (), after) => return (after, [])
  | (.error error, after) => return (after, [.error 1 none error.message])

/-- Compiles a program whose heading was read. -/
def compileBody (p : Parser) (name moduleName : String) : Except Fault (Parser × Compilation) := do
  let (begun, findings) ← (Lowering.new moduleName).begin name
  let progress ← compileSections p.clearErrors begun (p.diagnostics ++ findings)
  let (module, _) ← Lower.finish progress.lowering
  return (progress.parser, { module, diagnostics := progress.diagnostics })

/-- Compiles a program. There is an answer unless a count does not fit. -/
def compile (source : String) (options : Options) : Except Fault Compilation := do
  let header := (Parser.ofString options.tabWidth source).header
  let (last, compilation) ←
    match header.value with
    | none =>
      pure (header.after,
        { module := { name := options.moduleName.getD "" }
          diagnostics := header.after.diagnostics })
    | some name => compileBody header.after name (options.moduleName.getD name)
  if last.cutShort then .error .overflow else .ok compilation

end ProcLang
