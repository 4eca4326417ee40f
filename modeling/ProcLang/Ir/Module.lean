import ProcLang.Number.Binary32

/-!
# The intermediate form

A `Module` holds global data, declarations of routines that are provided elsewhere, and functions.
A `Function` is a list of basic blocks, the first of which is its entry; a block is a label and a
list of instructions, the last of which passes control on. Instructions name their results, and a
function hands out names from a counter so that none comes twice.
-/

namespace ProcLang.Ir

/-- The type of a value. -/
inductive Ty where
  | i1
  | i8
  | i32
  | float
  | ptr
  | array (len : Nat) (elem : Ty)
deriving DecidableEq, Inhabited

/-- What a value is: a constant, the result of an instruction or a parameter of the function, or
something global. -/
inductive Operand where
  | int (value : Int)
  | float (value : Binary32)
  | register (name : String)
  | symbol (name : String)
deriving DecidableEq, Inhabited

/-- An operand with its type. -/
structure Value where
  ty : Ty
  operand : Operand
deriving DecidableEq, Inhabited

namespace Value

/-- An integer constant. -/
def int (value : Int) : Value := ⟨.i32, .int value⟩

/-- A truth value. -/
def bool (value : Bool) : Value := ⟨.i1, .int (if value then 1 else 0)⟩

/-- A floating point constant. -/
def float (value : Binary32) : Value := ⟨.float, .float value⟩

/-- A result or parameter of the function. -/
def register (ty : Ty) (name : String) : Value := ⟨ty, .register name⟩

/-- The address of something global. -/
def address (name : String) : Value := ⟨.ptr, .symbol name⟩

end Value

/-- An operation on two values of one type. -/
inductive BinOp where
  | add | sub | mul | sdiv | fadd | fsub | fmul | fdiv | and | or | xor
deriving DecidableEq, Inhabited

/-- A comparison of integers. -/
inductive IntPredicate where
  | eq | ne | slt | sle | sgt | sge
deriving DecidableEq, Inhabited

/-- A comparison of floats, which also holds if they cannot be ordered. -/
inductive FloatPredicate where
  | ueq | une | ult | ule | ugt | uge
deriving DecidableEq, Inhabited

/-- An instruction. -/
inductive Instr where
  | alloca (dest : String) (ty : Ty)
  | load (dest : String) (ty : Ty) (ptr : Value)
  | store (value ptr : Value)
  | binary (dest : String) (op : BinOp) (lhs rhs : Value)
  | icmp (dest : String) (pred : IntPredicate) (lhs rhs : Value)
  | fcmp (dest : String) (pred : FloatPredicate) (lhs rhs : Value)
  | fneg (dest : String) (operand : Value)
  | sitofp (dest : String) (operand : Value)
  | gep (dest : String) (elem : Ty) (ptr index : Value)
  | call (dest : String) (ret : Ty) (callee : String) (args : List Value)
  | br (target : String)
  | condBr (cond : Value) (yes no : String)
  | ret (value : Value)
  | unreachable
deriving DecidableEq, Inhabited

namespace Instr

/-- Whether the instruction passes control on, so that none may follow it. -/
def isTerminator : Instr → Bool
  | br _ | condBr _ _ _ | ret _ | unreachable => true
  | _ => false

/-- Whether the instruction reserves storage. -/
def isAlloca : Instr → Bool
  | alloca _ _ => true
  | _ => false

end Instr

/-- A basic block. -/
structure Block where
  label : String
  instrs : List Instr := []
deriving DecidableEq, Inhabited

namespace Block

/-- The instruction that ends the block, if it has one. -/
def terminator? (b : Block) : Option Instr :=
  b.instrs.getLast?.filter Instr.isTerminator

/-- Whether the block has ended. -/
def isTerminated (b : Block) : Bool :=
  b.terminator?.isSome

/-- Adds an instruction at the end. -/
def push (i : Instr) (b : Block) : Block :=
  { b with instrs := b.instrs ++ [i] }

/-- Adds an instruction behind those that reserve storage at the start of the block. -/
def pushAlloca (i : Instr) (b : Block) : Block :=
  { b with instrs := b.instrs.takeWhile Instr.isAlloca ++ i :: b.instrs.dropWhile Instr.isAlloca }

end Block

/-- A parameter of a function. -/
structure Param where
  name : String
  ty : Ty
deriving DecidableEq, Inhabited

/-- A function that the module defines. -/
structure Function where
  name : String
  ret : Ty
  params : List Param
  blocks : List Block
  /-- The number that the next name handed out will have. A text of less than 2 GiB asks for too few
  names to leave 32 bits; for functions that are built by hand there is `Build.counted`. -/
  nextId : Nat
deriving DecidableEq, Inhabited

namespace Function

/-- A function whose only block is an empty entry. -/
def new (name : String) (ret : Ty) (params : List Param) : Function :=
  { name, ret, params, blocks := [⟨"entry", []⟩], nextId := 0 }

/-- The name that is handed out next for a hint. -/
def freshName (f : Function) (hint : String) : String :=
  hint ++ "." ++ toString f.nextId

/-- The function after handing out a name. -/
def tick (f : Function) : Function :=
  { f with nextId := f.nextId + 1 }

/-- Adds a block at the end. -/
def pushBlock (b : Block) (f : Function) : Function :=
  { f with blocks := f.blocks ++ [b] }

/-- Changes a block. -/
def modifyBlock (i : Nat) (g : Block → Block) (f : Function) : Function :=
  { f with blocks := f.blocks.modify i g }

end Function

/-- A routine that is provided elsewhere. -/
structure Declaration where
  name : String
  ret : Ty
  params : List Ty
deriving DecidableEq, Inhabited

/-- What global data are. -/
inductive GlobalKind where
  /-- A variable that starts out as zero. -/
  | variable
  /-- A text with a zero byte behind it. -/
  | text (value : String)
deriving DecidableEq, Inhabited

/-- Global data. -/
structure Global where
  name : String
  ty : Ty
  kind : GlobalKind
deriving DecidableEq, Inhabited

/-- A unit of the intermediate form. -/
structure Module where
  name : String
  globals : List Global := []
  declarations : List Declaration := []
  functions : List Function := []
deriving DecidableEq, Inhabited

namespace Module

/-- The function with a name. -/
def function? (m : Module) (name : String) : Option Function :=
  m.functions.find? (·.name == name)

/-- The declaration with a name. -/
def declaration? (m : Module) (name : String) : Option Declaration :=
  m.declarations.find? (·.name == name)

/-- The global data with a name. -/
def global? (m : Module) (name : String) : Option Global :=
  m.globals.find? (·.name == name)

/-- Whether anything in the module has the name. -/
def hasSymbol (m : Module) (name : String) : Bool :=
  (m.function? name).isSome || (m.declaration? name).isSome || (m.global? name).isSome

/-- Changes a function. -/
def modifyFunction (i : Nat) (g : Function → Function) (m : Module) : Module :=
  { m with functions := m.functions.modify i g }

end Module

end ProcLang.Ir
