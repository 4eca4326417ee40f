import ProcLang.Ir.Builder
import ProcLang.Scope.Table

/-!
# Routines

The routines that a program can use without declaring them, and the one that compares strings. They
are provided by a library that is linked to the module; the module declares those it uses.
-/

namespace ProcLang

/-- A routine of the library. -/
structure Routine where
  name : String
  params : List Ty
  ret : Ty
deriving DecidableEq, Inhabited

namespace Routine

/-- The routines for input and output, which programs can call. -/
def callable : List Routine :=
  [⟨"getbool", [], .bool⟩, ⟨"getinteger", [], .integer⟩, ⟨"getfloat", [], .float⟩,
   ⟨"getstring", [], .string⟩, ⟨"putbool", [.bool], .bool⟩, ⟨"putinteger", [.integer], .bool⟩,
   ⟨"putfloat", [.float], .bool⟩, ⟨"putstring", [.string], .bool⟩]

/-- The routine that says whether two strings are equal. Programs cannot call it by name. -/
def stringEquals : Routine :=
  ⟨"StringEquals", [.string, .string], .bool⟩

/-- The routine with a name. -/
def find? (name : String) : Option Routine :=
  (callable ++ [stringEquals]).find? (·.name == name)

/-- The symbol for a routine. -/
def symbol (r : Routine) : Symbol :=
  { name := r.name
    binding := .address r.name
    ty := r.ret
    kind := .procedure (r.params.map fun ty => ⟨ty, none⟩) }

/-- The declaration of a routine in a module. -/
def declaration (r : Routine) : Ir.Declaration :=
  ⟨r.name, r.ret.ir, r.params.map Ty.ir⟩

/-- A symbol table that holds the callable routines and nothing else. -/
def symbols : SymbolTable :=
  { globals := callable.map symbol }

end Routine

/-- Declares the routine with a name, unless the module defines a function of that name. Other names
are passed over. -/
def Ir.Build.declareRoutine (name : String) : Ir.Build Unit := do
  unless ((← get).module.function? name).isSome do
    match Routine.find? name with
    | some routine => declareFunction routine.declaration
    | none => pure ()

end ProcLang
