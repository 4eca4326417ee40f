import ProcLang.Ir.Builder
import ProcLang.Scope.Table
import ProcLang.Tree

/-!
# Errors of meaning

What can be wrong with a program whose text is well formed, and how it is said.
-/

namespace ProcLang

/-- Why a part of a program has no meaning. -/
inductive LowerCause where
  | undefinedName (name : String)
  | undefinedProcedure (name : String)
  | notProcedure (name : String)
  | notVariable (name : String)
  | notArray (name : String)
  | wholeArray (name : String)
  | enclosingLocal (name : String)
  /-- The symbol table refused a declaration or an assignment. -/
  | symbol (error : SymbolError)
  /-- The module refused a name. -/
  | nameTaken (error : Ir.NameTaken)
  | operandTypes (op : BinaryOp) (lhs rhs : Ty)
  | operandType (op : String) (ty : Ty)
  | indexType (ty : Ty)
  | conditionType (ty : Ty)
  | argumentCount (callee : String) (expected actual : Nat)
  | argumentType (callee : String) (position : Nat) (expected actual : String)
  | arrayBounds (name : String) (bound : Int)
  | unsupportedType (mark : TypeMark)
  | returnOutsideProcedure
  | returnAfterEnd
  | returnType (expected actual : Ty)
  | missingReturn (name : String)
deriving DecidableEq, Inhabited

/-- The message for a cause. -/
def LowerCause.message : LowerCause → String
  | undefinedName name => name ++ " is not declared"
  | undefinedProcedure name => "undefined function " ++ name
  | notProcedure name => name ++ " is not a procedure"
  | notVariable name => "procedure " ++ name ++ " used as a variable"
  | notArray name => name ++ " is not an array"
  | wholeArray name => "array " ++ name ++ " used without an index"
  | enclosingLocal name => "cannot access " ++ name ++ ", which is local to an enclosing scope"
  | symbol error => error.message
  | nameTaken error => error.message
  | operandTypes op lhs rhs =>
    "incompatible operand types " ++ lhs.name ++ " and " ++ rhs.name ++ " for operator " ++
      op.symbol
  | operandType op ty => "incompatible operand type " ++ ty.name ++ " for operator " ++ op
  | indexType ty => "array index must be integer, but got " ++ ty.name
  | conditionType ty => "condition must be bool, but got " ++ ty.name
  | argumentCount callee expected actual =>
    callee ++ " expects " ++ toString expected ++ " arguments, but got " ++ toString actual
  | argumentType callee position expected actual =>
    "argument " ++ toString position ++ " of " ++ callee ++ " expects " ++ expected ++
      ", but got " ++ actual
  | arrayBounds name bound =>
    "array bounds must be greater than 0 (got " ++ toString bound ++ " for " ++ name ++ ")"
  | unsupportedType mark => "unsupported type " ++ mark.render
  | returnOutsideProcedure => "return outside of a procedure"
  | returnAfterEnd => "return after the end of the block"
  | returnType expected actual =>
    "expected return type " ++ expected.name ++ ", but got " ++ actual.name
  | missingReturn name => "procedure " ++ name ++ " does not return a value"

/-- A cause on a line. -/
structure LowerError where
  line : Nat
  cause : LowerCause
deriving DecidableEq, Inhabited

end ProcLang
