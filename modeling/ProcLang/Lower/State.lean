import ProcLang.Diagnostic
import ProcLang.Lower.Error
import ProcLang.Lower.Routine

/-!
# Lowering

Lowering turns a program into a module and checks its types on the way. The state holds the module
under construction, the symbols in scope, the frames that are open, and what has been found wrong so
far. A part of a program that is wrong gives no value; lowering goes on behind it.
-/

namespace ProcLang

/-- What is being lowered: the body of the program, or a procedure with a result. -/
inductive Frame where
  | program
  | procedure (ret : Ty)
deriving DecidableEq, Inhabited

/-- The state of lowering. -/
structure Lowering where
  builder : Ir.Builder
  symbols : SymbolTable
  /-- The open frames, the innermost first. -/
  frames : List Frame := []
  /-- The warnings that were not yet taken out, in order. -/
  warnings : List Diagnostic := []
  /-- The errors that were not yet taken out, in order. -/
  errors : List LowerError := []
deriving DecidableEq, Inhabited

/-- A lowering step. -/
abbrev Lower := StateT Lowering (Except Fault)

/-- What a part of a program computes: a value and its type, or nothing if the part is wrong or
computes nothing. -/
abbrev Result := Option (Ir.Value × Ty)

/-- The type of what a part of a program computes. -/
def Result.ty? (r : Result) : Option Ty :=
  r.map Prod.snd

namespace Lowering

/-- The state before anything is lowered. -/
def new (moduleName : String) : Lowering :=
  { builder := { module := { name := moduleName } }, symbols := Routine.symbols }

/-- The state without the warnings and errors found so far. -/
def clearFindings (s : Lowering) : Lowering :=
  { s with warnings := [], errors := [] }

/-- The result type of the innermost procedure, if one is being lowered. -/
def returnType? (s : Lowering) : Option Ty :=
  match s.frames with
  | .procedure ret :: _ => some ret
  | _ => none

/-- Finds a variable or an array. A local one can be used only in the scope that declares it. -/
def resolveVariable (s : Lowering) (name : String) : Except LowerCause Symbol :=
  match s.symbols.lookup? name with
  | none => .error (.undefinedName name)
  | some symbol =>
    if symbol.isProcedure then
      .error (.notVariable name)
    else if symbol.frame.any (· != s.symbols.depth) then
      .error (.enclosingLocal name)
    else
      .ok symbol

end Lowering

namespace Lower

/-- Runs a building step on the module. -/
def build {α : Type} (step : Ir.Build α) : Lower α := fun s =>
  match step s.builder with
  | .ok (a, builder) => .ok (a, { s with builder })
  | .error fault => .error fault

/-- Records an error. Gives nothing, so that a part that is wrong can end with it. -/
def report {α : Type} (line : Nat) (cause : LowerCause) : Lower (Option α) := do
  modify fun s => { s with errors := s.errors ++ [⟨line, cause⟩] }
  return none

/-- Records a warning. -/
def warn (line : Nat) (message : String) : Lower Unit :=
  modify fun s => { s with warnings := s.warnings ++ [.warning line message] }

/-- The value of an outcome, whose error, if any, is recorded. -/
def orReport {α : Type} (line : Nat) (outcome : Except LowerCause α) : Lower (Option α) :=
  match outcome with
  | .ok a => return some a
  | .error cause => report line cause

/-- Hands out a unique name. -/
def uniqueName (hint : String) : Lower String := do
  let name := (← get).symbols.uniqueName hint
  modify fun s => { s with symbols := s.symbols.tick }
  return name

/-- Opens a scope and a frame. -/
def openScope (label : String) (frame : Frame) : Lower Unit :=
  modify fun s => { s with symbols := s.symbols.push label, frames := frame :: s.frames }

/-- Closes the innermost scope and frame. -/
def closeScope : Lower Unit := do
  match (← get).symbols.pop? with
  | some symbols => modify fun s => { s with symbols, frames := s.frames.tail }
  | none => throw .noOpenScope

/-- Declares a symbol. -/
def declare (line : Nat) (symbol : Symbol) (isGlobal : Bool) : Lower (Option Unit) := do
  match (← get).symbols.add symbol isGlobal with
  | .ok symbols =>
    modify fun s => { s with symbols }
    return some ()
  | .error error => report line (.symbol error)

/-- A value of one type as one of another that it fits: an integer becomes a float where a float is
wanted, and everything else stays as it is. -/
def coerce (value : Ir.Value) (source target : Ty) : Lower Ir.Value :=
  match source, target with
  | .integer, .float => build (.sitofp value "conv")
  | _, _ => return value

end Lower

end ProcLang
