import ProcLang.Proofs.Meaning.World

/-!
# Running programs

`Program.exec` runs a program without procedures. Names are resolved as they are declared in the
text: a declaration reaches from the place where it stands to the end of the program, whatever
statement it stands in, and a local name hides a global one. The contents of variables are there
from the start, so a declaration does nothing when it is run.

Both operands of an operator are evaluated, the left one first; an assignment evaluates its right
side before the index on its left. A loop assigns once and then tests its condition before every
round. The number of rounds of every loop is limited, and a run that needs more has no answer:
`Program.Finishes` and `Program.Faults` say what a run without a limit does.
-/

namespace ProcLang

/-! ## Variables -/

/-- A variable, or an array if it has a length. -/
structure Variable where
  isGlobal : Bool
  name : String
  ty : Ty
  len : Option Nat
deriving DecidableEq

/-- The number of values that a variable holds. -/
def Variable.cells (v : Variable) : Nat :=
  v.len.getD 1

/-- The variable that a declaration declares, if its type is one of the language. -/
def VariableDecl.declared? (decl : VariableDecl) : Option Variable :=
  match decl.mark with
  | .builtin ty => some ⟨decl.isGlobal, decl.name, ty, decl.bound.map Int.toNat⟩
  | _ => none

/-- The variables that were declared so far. -/
structure Env where
  locals : List Variable := []
  globals : List Variable := []

namespace Env

/-- All variables that were declared so far. -/
def vars (env : Env) : List Variable :=
  env.locals ++ env.globals

/-- The variable that a name stands for. -/
def find? (env : Env) (name : String) : Option Variable :=
  (env.locals.find? (·.name == name)).or (env.globals.find? (·.name == name))

/-- Adds a variable. -/
def add (env : Env) (v : Variable) : Env :=
  if v.isGlobal then { env with globals := env.globals ++ [v] }
  else { env with locals := env.locals ++ [v] }

end Env

mutual

/-- What is declared behind a statement. -/
def Stmt.declares (env : Env) : Stmt → Env
  | .declare decl _ => (decl.declared?.map env.add).getD env
  | .branch _ yes none _ => blockDeclares env yes
  | .branch _ yes (some no) _ => blockDeclares (blockDeclares env yes) no
  | .loop _ _ _ body _ => blockDeclares env body
  | _ => env

/-- What is declared behind statements in order. -/
def blockDeclares (env : Env) : List Stmt → Env
  | [] => env
  | stmt :: stmts => blockDeclares (stmt.declares env) stmts

end

/-! ## Stores -/

/-- The contents of the variables, and the calls so far. -/
structure Store (W : World) where
  mem : Variable → Nat → W.Val
  trace : W.Trace

/-- A part of the run of a program. -/
abbrev Exec (W : World) := StateT (Store W) (Except W.Stop)

namespace Exec

variable {W : World} {α : Type}

/-- Gives up, as there is nothing that could be done. -/
def stuck : Exec W α := fun _ => .error .stuck

/-- The result of a calculation, whose fault ends the run. -/
def lift (r : Except Refusal α) : Exec W α := fun s =>
  match r with
  | .ok a => .ok (a, s)
  | .error .fault => .error (.fault s.trace)
  | .error .stuck => .error .stuck

/-- Calls a routine. -/
def ask (routine : String) (args : List W.Val) : Exec W W.Val := fun s =>
  match W.ask routine args s.trace with
  | .ok (value, trace) => .ok (value, { s with trace })
  | .error stop => .error stop

/-- Reads a variable. -/
def read (v : Variable) (k : Nat) : Exec W W.Val := fun s =>
  .ok (s.mem v k, s)

/-- Writes a variable. -/
def write (v : Variable) (k : Nat) (value : W.Val) : Exec W Unit := fun s =>
  .ok ((), { s with mem := fun u j => if u = v ∧ j = k then value else s.mem u j })

/-- Repeats a body as long as a test holds, so many times at most. -/
def rounds (test : Exec W Bool) (body : Exec W Unit) : Nat → Exec W Unit
  | 0 => fun _ => .error .timeout
  | n + 1 => do
    if ← test then
      body
      Exec.rounds test body n

end Exec

/-! ## Expressions -/

/-- The value of a literal. -/
def Literal.eval (W : World) : Literal → W.Val
  | integer n => .integer (BitVec.ofInt 32 n)
  | float x => .float (W.constant x)
  | bool b => .bool b
  | string text => .string (W.text text)

namespace BinaryOp

variable {W : World}

/-- An operator between integers. -/
def onIntegers (op : BinaryOp) (a b : BitVec 32) : Except Refusal W.Val :=
  match op with
  | and => .ok (.integer (a &&& b))
  | or => .ok (.integer (a ||| b))
  | add => .ok (.integer (a + b))
  | sub => .ok (.integer (a - b))
  | mul => .ok (.integer (a * b))
  | div => .integer <$> quotient a b
  | less => .ok (.bool (a.slt b))
  | lessEq => .ok (.bool (a.sle b))
  | greater => .ok (.bool (b.slt a))
  | greaterEq => .ok (.bool (b.sle a))
  | eq => .ok (.bool (a == b))
  | notEq => .ok (.bool (a != b))

/-- An operator between floats. -/
def onFloats (op : BinaryOp) (a b : W.Float) : Except Refusal W.Val :=
  match op with
  | add | sub | mul | div => .ok (.float (W.arithmetic op a b))
  | less | lessEq | greater | greaterEq | eq | notEq => .ok (.bool (W.relation op a b))
  | and | or => .error .stuck

/-- An operator between truth values. -/
def onBools (op : BinaryOp) (a b : Bool) : Except Refusal W.Val :=
  match op with
  | and => .ok (.bool (a && b))
  | or => .ok (.bool (a || b))
  | eq => .ok (.bool (a == b))
  | notEq => .ok (.bool (a != b))
  | _ => .error .stuck

/-- An operator between two values that are not strings. If one of two numbers is a float, the other
becomes one. -/
def calculate (op : BinaryOp) : W.Val → W.Val → Except Refusal W.Val
  | .integer a, .integer b => op.onIntegers a b
  | .integer a, .float b => op.onFloats (W.ofInteger a) b
  | .float a, .integer b => op.onFloats a (W.ofInteger b)
  | .float a, .float b => op.onFloats a b
  | .bool a, .bool b => op.onBools a b
  | _, _ => .error .stuck

/-- An operator between two values. The library says whether two strings are equal. -/
def apply (op : BinaryOp) (a b : W.Val) : Exec W W.Val :=
  match op, a, b with
  | eq, .string _, .string _ => Exec.ask Routine.stringEquals.name [a, b]
  | _, _, _ => Exec.lift (op.calculate a b)

end BinaryOp

namespace Val

variable {W : World}

/-- The value with the opposite sign. -/
def negate : W.Val → Except Refusal W.Val
  | .integer n => .ok (.integer (-n))
  | .float x => .ok (.float (W.opposite x))
  | _ => .error .stuck

/-- The value with all bits turned over. -/
def complement : W.Val → Except Refusal W.Val
  | .integer n => .ok (.integer (~~~n))
  | .bool b => .ok (.bool (!b))
  | _ => .error .stuck

/-- Whether a value holds as a condition. -/
def holds : W.Val → Except Refusal Bool
  | .bool b => .ok b
  | .integer n => .ok (n != 0)
  | _ => .error .stuck

end Val

mutual

/-- Evaluates an expression. -/
def Expr.eval (W : World) (env : Env) : Expr → Exec W W.Val
  | .literal value _ _ => return value.eval W
  | .read place _ _ => do
    let (v, k) ← place.locate W env
    let value ← Exec.read v k
    if place.negated then Exec.lift value.negate else return value
  | .not operand _ _ => do
    let value ← operand.eval W env
    Exec.lift value.complement
  | .binary op lhs rhs _ _ => do
    let a ← lhs.eval W env
    let b ← rhs.eval W env
    op.apply a b
  | .call callee args _ _ => do
    match Routine.callable.find? (·.name == callee) with
    | some routine =>
      let values ← evalArgs W env routine.params args
      Exec.ask routine.name values
    | none => Exec.stuck

/-- Finds the variable that is mentioned, and the number of the element. -/
def Place.locate (W : World) (env : Env) : Place → Exec W (Variable × Nat)
  | .whole name _ _ => do
    match env.find? name with
    | some v => if v.len.isNone then return (v, 0) else Exec.stuck
    | none => Exec.stuck
  | .element name index _ _ => do
    match env.find? name with
    | some v =>
      match v.len with
      | some len =>
        let value ← index.eval W env
        let k ← Exec.lift (cellAt len value)
        return (v, k)
      | none => Exec.stuck
    | none => Exec.stuck

/-- Evaluates arguments in order, each as one of the type of its parameter. -/
def evalArgs (W : World) (env : Env) : List Ty → List Expr → Exec W (List W.Val)
  | ty :: tys, arg :: args => do
    let value ← arg.eval W env
    let values ← evalArgs W env tys args
    return W.promote ty value :: values
  | [], [] => return []
  | _, _ => Exec.stuck

end

/-! ## Statements -/

/-- Assigns a value: first it is computed, then the place is found. -/
def execAssign (W : World) (env : Env) (dest : Place) (value : Expr) : Exec W Unit := do
  let x ← value.eval W env
  let (v, k) ← dest.locate W env
  Exec.write v k (W.promote v.ty x)

/-- Evaluates a condition. -/
def execTest (W : World) (env : Env) (cond : Expr) : Exec W Bool := do
  let x ← cond.eval W env
  Exec.lift x.holds

mutual

/-- Runs a statement, with at most so many rounds of every loop. -/
def Stmt.exec (W : World) (fuel : Nat) (env : Env) : Stmt → Exec W Unit
  | .assign dest value _ => execAssign W env dest value
  | .call call _ => do
    let _ ← call.eval W env
  | .declare _ _ => return ()
  | .declareType _ _ _ _ => return ()
  | .branch cond yes none _ => do
    if ← execTest W env cond then
      execBlock W fuel env yes
  | .branch cond yes (some no) _ => do
    if ← execTest W env cond then
      execBlock W fuel env yes
    else
      execBlock W fuel (blockDeclares env yes) no
  | .loop dest value cond body _ => do
    execAssign W env dest value
    Exec.rounds (execTest W env cond) (execBlock W fuel env body) fuel
  | .result _ _ => Exec.stuck
  | .procedure _ _ _ => Exec.stuck

/-- Runs statements in order. -/
def execBlock (W : World) (fuel : Nat) (env : Env) : List Stmt → Exec W Unit
  | [] => return ()
  | stmt :: stmts => do
    stmt.exec W fuel env
    execBlock W fuel (stmt.declares env) stmts

end

/-! ## Programs -/

mutual

/-- No procedure is declared in the statement. -/
def Stmt.ProcedureFree : Stmt → Prop
  | .procedure _ _ _ => False
  | .branch _ yes none _ => BlockProcedureFree yes
  | .branch _ yes (some no) _ => BlockProcedureFree yes ∧ BlockProcedureFree no
  | .loop _ _ _ body _ => BlockProcedureFree body
  | _ => True

/-- No procedure is declared in the statements. -/
def BlockProcedureFree : List Stmt → Prop
  | [] => True
  | stmt :: stmts => stmt.ProcedureFree ∧ BlockProcedureFree stmts

end

namespace Program

/-- The declarations and the statements of a program. -/
def items (p : Program) : List Stmt :=
  p.declarations ++ p.statements

/-- No procedure is declared in the program. -/
def ProcedureFree (p : Program) : Prop :=
  BlockProcedureFree p.items

/-- The variables of a program. -/
def vars (p : Program) : List Variable :=
  (blockDeclares {} p.items).vars

/-- Runs a program, with at most so many rounds of every loop. -/
def exec (W : World) (fuel : Nat) (p : Program) : Exec W Unit :=
  execBlock W fuel {} p.items

/-- The program comes to its end, starting with some contents of the variables. -/
def Finishes (W : World) (p : Program) (start : Variable → Nat → W.Val)
    (mem : Variable → Nat → W.Val) (trace : W.Trace) : Prop :=
  ∃ fuel, p.exec W fuel ⟨start, []⟩ = .ok ((), ⟨mem, trace⟩)

/-- The program ends with a fault, starting with some contents of the variables. -/
def Faults (W : World) (p : Program) (start : Variable → Nat → W.Val) (trace : W.Trace) : Prop :=
  ∃ fuel, p.exec W fuel ⟨start, []⟩ = .error (.fault trace)

end Program

end ProcLang
