import ProcLang.Ir.Text
import ProcLang.Ty

/-!
# Symbols

What a name of a program stands for: a variable, an array or a procedure, with its type and its
place in the module.
-/

namespace ProcLang

/-- The form in which values of a type are kept in a module. -/
def Ty.ir : Ty → Ir.Ty
  | integer => .i32
  | float => .float
  | bool => .i1
  | string => .ptr

/-- The form in which an array is kept in a module. -/
def Ty.irArray (elem : Ty) (len : Nat) : Ir.Ty :=
  .array len elem.ir

/-- The type of a parameter: of a single value, or of an array of a given length. -/
structure ParamShape where
  ty : Ty
  len : Option Nat
deriving DecidableEq, Inhabited

/-- The text of an array type, as in `integer[4]`. -/
def arrayText (elem : Ty) (len : Nat) : String :=
  elem.name ++ "[" ++ toString len ++ "]"

/-- The text of the type of a parameter. -/
def ParamShape.render (s : ParamShape) : String :=
  match s.len with
  | some len => arrayText s.ty len
  | none => s.ty.name

/-- The form in which an argument is passed. Arrays are passed by their address. -/
def ParamShape.passed (s : ParamShape) : Ir.Ty :=
  match s.len with
  | some _ => .ptr
  | none => s.ty.ir

/-- What a name stands for. -/
inductive SymbolKind where
  | variable
  | array (len : Nat)
  | procedure (params : List ParamShape)
deriving DecidableEq, Inhabited

/-- A name and what it stands for. -/
structure Symbol where
  name : String
  /-- The address of the storage, or of the procedure. -/
  binding : Ir.Value
  /-- The type of the variable, of the elements, or of the result. -/
  ty : Ty
  kind : SymbolKind
  /-- The name in the module, if it is another. -/
  moduleName : Option String := none
  /-- The number of scopes that were open where the name was declared, none for a global name. -/
  frame : Option Nat := none
deriving DecidableEq, Inhabited

namespace Symbol

/-- The name in the module. -/
def irName (s : Symbol) : String :=
  s.moduleName.getD s.name

/-- Whether the name stands for a procedure. -/
def isProcedure (s : Symbol) : Bool :=
  match s.kind with
  | .procedure _ => true
  | _ => false

/-- The text of the kind and type. -/
def shape (s : Symbol) : String :=
  match s.kind with
  | .variable => s.ty.name
  | .array len => arrayText s.ty len
  | .procedure _ => "procedure returning " ++ s.ty.name

end Symbol

end ProcLang
