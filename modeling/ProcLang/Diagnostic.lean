import ProcLang.Parser.Error

/-!
# Diagnostics

A message for the reader of a program, with its place. Only errors in the text have a column.
-/

namespace ProcLang

/-- How bad a diagnostic is. -/
inductive Severity where
  | error
  | warning
deriving DecidableEq, Inhabited

/-- The word for a severity. -/
def Severity.name : Severity → String
  | error => "Error"
  | warning => "Warning"

/-- A message with its place. -/
structure Diagnostic where
  severity : Severity
  line : Nat
  column : Option Nat
  message : String
deriving DecidableEq, Inhabited

namespace Diagnostic

/-- A warning about a line. -/
def warning (line : Nat) (message : String) : Diagnostic :=
  ⟨.warning, line, none, message⟩

/-- An error, with its column if that is known. -/
def error (line : Nat) (column : Option Nat) (message : String) : Diagnostic :=
  ⟨.error, line, column, message⟩

/-- Whether the diagnostic is an error. -/
def isError (d : Diagnostic) : Bool :=
  d.severity == .error

/-- The text of a diagnostic, as in `Error L3 C6: unexpected end of input`. -/
def render (d : Diagnostic) : String :=
  let column :=
    match d.column with
    | some column => " C" ++ toString column
    | none => ""
  d.severity.name ++ " L" ++ toString d.line ++ column ++ ": " ++ d.message

/-- The diagnostic for an error in the text. -/
def ofSyntaxError (e : SyntaxError) : Diagnostic :=
  error e.position.line (some e.position.column) e.cause.message

end Diagnostic

end ProcLang
