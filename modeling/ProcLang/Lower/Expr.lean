import ProcLang.Lower.State

/-!
# Expressions

`Expr.lower` checks an expression, adds the instructions that compute it, and gives the value
together with the expression, in which the types that were found are filled in. Both operands of an
operator are lowered, the left one first, so that errors in either are found.
-/

namespace ProcLang

/-- How an operator acts on operands of given types. -/
inductive Operation where
  /-- On the bits of two values of one type. -/
  | bits (op : Ir.BinOp) (ty : Ty)
  /-- Arithmetic of integers. -/
  | integers (op : Ir.BinOp)
  /-- Arithmetic of floats, to which integers are promoted. -/
  | floats (op : Ir.BinOp)
  /-- A comparison of integers or truth values. -/
  | compareIntegers (pred : Ir.IntPredicate)
  /-- A comparison of floats, to which integers are promoted. -/
  | compareFloats (pred : Ir.FloatPredicate)
  /-- Whether two strings are equal. -/
  | equalStrings
deriving DecidableEq

/-- The type of the result of an operation. -/
def Operation.ty : Operation → Ty
  | bits _ ty => ty
  | integers _ => .integer
  | floats _ => .float
  | compareIntegers _ | compareFloats _ | equalStrings => .bool

namespace BinaryOp

/-- The operation on the bits of two values. -/
def bitOp? : BinaryOp → Option Ir.BinOp
  | and => some .and
  | or => some .or
  | _ => none

/-- The arithmetic operation, on integers and on floats. -/
def arithmetic? : BinaryOp → Option (Ir.BinOp × Ir.BinOp)
  | add => some (.add, .fadd)
  | sub => some (.sub, .fsub)
  | mul => some (.mul, .fmul)
  | div => some (.sdiv, .fdiv)
  | _ => none

/-- The comparison, of integers and of floats. -/
def relation? : BinaryOp → Option (Ir.IntPredicate × Ir.FloatPredicate)
  | less => some (.slt, .ult)
  | lessEq => some (.sle, .ule)
  | greater => some (.sgt, .ugt)
  | greaterEq => some (.sge, .uge)
  | eq => some (.eq, .ueq)
  | notEq => some (.ne, .une)
  | _ => none

/-- The operation on two numbers. Integers are kept only if both are. -/
def numeric? (op : BinaryOp) (isFloat : Bool) : Option Operation :=
  match op.arithmetic?, op.relation? with
  | some (onIntegers, onFloats), _ =>
    some (if isFloat then .floats onFloats else .integers onIntegers)
  | none, some (onIntegers, onFloats) =>
    some (if isFloat then .compareFloats onFloats else .compareIntegers onIntegers)
  | none, none => none

/-- The operation that an operator stands for, given the types of its operands. -/
def operation? (op : BinaryOp) (lhs rhs : Ty) : Option Operation :=
  match op.bitOp? with
  | some bitOp =>
    match lhs, rhs with
    | .bool, .bool => some (.bits bitOp .bool)
    | .integer, .integer => some (.bits bitOp .integer)
    | _, _ => none
  | none =>
    match lhs, rhs with
    | .integer, .integer => op.numeric? false
    | .integer, .float | .float, .integer | .float, .float => op.numeric? true
    | .bool, .bool =>
      match op with
      | eq => some (.compareIntegers .eq)
      | notEq => some (.compareIntegers .ne)
      | _ => none
    | .string, .string => if op = eq then some .equalStrings else none
    | _, _ => none

end BinaryOp

namespace Lower

/-- Adds the instructions of an operation. -/
def operate (operation : Operation) (lhs : Ir.Value) (lhsTy : Ty) (rhs : Ir.Value) (rhsTy : Ty) :
    Lower Ir.Value := do
  match operation with
  | .bits op _ | .integers op => build (.binary op lhs rhs op.name)
  | .floats op =>
    let lhs ← coerce lhs lhsTy .float
    let rhs ← coerce rhs rhsTy .float
    build (.binary op lhs rhs op.name)
  | .compareIntegers pred => build (.icmp pred lhs rhs "cmp")
  | .compareFloats pred =>
    let lhs ← coerce lhs lhsTy .float
    let rhs ← coerce rhs rhsTy .float
    build (.fcmp pred lhs rhs "cmp")
  | .equalStrings =>
    let routine := Routine.stringEquals
    build (.declareRoutine routine.name)
    build (.call routine.name routine.ret.ir [lhs, rhs] "streq")

/-- Lowers an operator whose operands are lowered. -/
def binary (line : Nat) (op : BinaryOp) (lhs rhs : Result) : Lower Result := do
  match lhs, rhs with
  | some (lhs, lhsTy), some (rhs, rhsTy) =>
    match op.operation? lhsTy rhsTy with
    | some operation =>
      let value ← operate operation lhs lhsTy rhs rhsTy
      return some (value, operation.ty)
    | none => report line (.operandTypes op lhsTy rhsTy)
  | _, _ => return none

/-- The value whose bits are all set. -/
def allBits? : Ty → Option Ir.Value
  | .bool => some (.bool true)
  | .integer => some (.int (-1))
  | _ => none

/-- Lowers a `not` whose operand is lowered. -/
def complement (line : Nat) (operand : Result) : Lower Result := do
  match operand with
  | none => return none
  | some (value, ty) =>
    match allBits? ty with
    | some mask => return some (← build (.binary .xor value mask "not"), ty)
    | none => report line (.operandType "not" ty)

/-- Lowers a literal. A string becomes global data. -/
def literal (line : Nat) (value : Literal) : Lower Result := do
  match value with
  | .integer n => return some (.int n, .integer)
  | .float x => return some (.float x, .float)
  | .bool b => return some (.bool b, .bool)
  | .string text =>
    let name ← uniqueName "str"
    match ← build (.globalText name text) with
    | .ok address => return some (address, .string)
    | .error error => report line (.nameTaken error)

/-- The opposite of a value that was read, if a minus sign asks for it. -/
def negate (line : Nat) (negated : Bool) (value : Ir.Value) (ty : Ty) : Lower Result := do
  if negated then
    match ty with
    | .integer => return some (← build (.binary .sub (.int 0) value "neg"), ty)
    | .float => return some (← build (.fneg value "neg"), ty)
    | _ => report line (.operandType "-" ty)
  else
    return some (value, ty)

/-- Reads a variable at an address, if there is one. -/
def readAt (place : Place) (symbol : Symbol) (address : Option Ir.Value) : Lower Result := do
  match address with
  | none => return none
  | some address =>
    let value ← build (.load symbol.ty.ir address place.name)
    negate place.line place.negated value symbol.ty

/-- The address of the element of an array at an index that is lowered. -/
def elementAddress (line : Nat) (symbol : Symbol) (index : Result) : Lower (Option Ir.Value) := do
  match index with
  | none => return none
  | some (index, .integer) => some <$> build (.gep symbol.ty.ir symbol.binding index "elem")
  | some (_, ty) => report line (.indexType ty)

/-- The array that an argument names as a whole, with its length. -/
def wholeArray? (s : Lowering) : Expr → Option (Symbol × Nat)
  | .read (.whole name false _) _ _ =>
    match s.resolveVariable name with
    | .ok symbol =>
      match symbol.kind with
      | .array len => some (symbol, len)
      | _ => none
    | .error _ => none
  | _ => none

/-- What a call is about: the procedure and the position of an argument. -/
structure ArgumentSlot where
  callee : String
  position : Nat
  /-- The parameter at that position, if there is one. -/
  param : Option ParamShape

/-- Records that an argument does not fit its parameter. -/
def argumentMismatch (line : Nat) (slot : ArgumentSlot) (param : ParamShape) (actual : String) :
    Lower (Option Ir.Value) :=
  report line (.argumentType slot.callee slot.position param.render actual)

/-- Passes a whole array. -/
def passArray (line : Nat) (slot : ArgumentSlot) (array : Symbol) (len : Nat) :
    Lower (Option Ir.Value) :=
  match slot.param with
  | some param =>
    if param.ty = array.ty ∧ param.len = some len then
      return some array.binding
    else
      argumentMismatch line slot param array.shape
  | none => return some array.binding

/-- Passes a value. -/
def passValue (line : Nat) (slot : ArgumentSlot) (value : Result) : Lower (Option Ir.Value) := do
  match value with
  | none => return none
  | some (value, ty) =>
    match slot.param with
    | some param =>
      if param.len = none ∧ ty.fits param.ty then
        some <$> coerce value ty param.ty
      else
        argumentMismatch line slot param ty.name
    | none => return some value

/-- The members of a list if all are there. -/
def allSome {α : Type} : List (Option α) → Option (List α)
  | [] => some []
  | none :: _ => none
  | some a :: rest => (allSome rest).map (a :: ·)

/-- Adds a call, if the arguments are right in number and in type. -/
def finishCall (line : Nat) (callee : String) (symbol : Symbol) (params : List ParamShape)
    (args : List (Option Ir.Value)) : Lower Result := do
  if params.length ≠ args.length then
    report line (.argumentCount callee params.length args.length)
  else
    match allSome args with
    | none => return none
    | some values =>
      build (.declareRoutine symbol.irName)
      return some (← build (.call symbol.irName symbol.ty.ir values "call"), symbol.ty)

end Lower

/-- The same expression with a type filled in. -/
def Expr.withTy (ty : Option Ty) : Expr → Expr
  | literal value line _ => literal value line ty
  | read place line _ => read place line ty
  | not operand line _ => not operand line ty
  | binary op lhs rhs line _ => binary op lhs rhs line ty
  | call callee args line _ => call callee args line ty

mutual

/-- Lowers an expression. -/
def Expr.lower : Expr → Lower (Result × Expr)
  | .literal value line _ => do
    let result ← Lower.literal line value
    return (result, .literal value line result.ty?)
  | .read place line _ => do
    match ← Lower.orReport place.line ((← get).resolveVariable place.name) with
    | none => return (none, .read place line none)
    | some symbol =>
      let (address, lowered) ← place.lower symbol
      let result ← Lower.readAt place symbol address
      return (result, .read lowered line result.ty?)
  | .not operand line _ => do
    let (value, operand) ← operand.lower
    let result ← Lower.complement line value
    return (result, .not operand line result.ty?)
  | .binary op lhs rhs line _ => do
    let (left, lhs) ← lhs.lower
    let (right, rhs) ← rhs.lower
    let result ← Lower.binary line op left right
    return (result, .binary op lhs rhs line result.ty?)
  | .call callee args line _ => do
    match (← get).symbols.lookup? callee with
    | none => return (← Lower.report line (.undefinedProcedure callee), .call callee args line none)
    | some symbol =>
      match symbol.kind with
      | .procedure params =>
        let (values, lowered) ← lowerArgs callee 1 params args
        let result ← Lower.finishCall line callee symbol params values
        return (result, .call callee lowered line result.ty?)
      | _ => return (← Lower.report line (.notProcedure callee), .call callee args line none)

/-- The address that a mention of a variable stands for, given what its name stands for. -/
def Place.lower (symbol : Symbol) : Place → Lower (Option Ir.Value × Place)
  | .whole name negated line => do
    let address ←
      match symbol.kind with
      | .variable => pure (some symbol.binding)
      | .array _ => Lower.report line (.wholeArray name)
      | .procedure _ => Lower.report line (.notVariable name)
    return (address, .whole name negated line)
  | .element name index negated line => do
    match symbol.kind with
    | .variable => return (← Lower.report line (.notArray name), .element name index negated line)
    | .array _ =>
      let (value, index) ← index.lower
      return (← Lower.elementAddress line symbol value, .element name index negated line)
    | .procedure _ =>
      return (← Lower.report line (.notVariable name), .element name index negated line)

/-- Lowers the arguments of a call from a position on, given the parameters from there on. -/
def lowerArgs (callee : String) (position : Nat) (params : List ParamShape) :
    List Expr → Lower (List (Option Ir.Value) × List Expr)
  | [] => return ([], [])
  | arg :: args => do
    let slot : Lower.ArgumentSlot := ⟨callee, position, params.head?⟩
    let (value, lowered) ←
      match Lower.wholeArray? (← get) arg with
      | some (array, len) => do
        pure (← Lower.passArray arg.line slot array len, arg.withTy (some array.ty))
      | none => do
        let (result, lowered) ← arg.lower
        pure (← Lower.passValue arg.line slot result, lowered)
    let (values, rest) ← lowerArgs callee (position + 1) params.tail args
    return (value :: values, lowered :: rest)

end

end ProcLang
