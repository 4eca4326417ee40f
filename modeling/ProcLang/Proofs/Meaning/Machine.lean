import Mathlib.Logic.Function.Iterate
import ProcLang.Proofs.Building
import ProcLang.Proofs.Meaning.World

/-!
# Running modules

How a function of a module runs. Registers hold values, or addresses of storage. Storage is a row of
cells, known by the register it was reserved for or by its name in the module; its address knows how
many cells there are, and the address of an element out of bounds is a fault. Pointers to texts
stand for the texts. Calls of routines that are declared in the module go to the world.

* `Instr.exec`: one instruction that does not pass control on; `execCode`: several in a row;
* `State.step`: one step of a run; `Module.Finishes`, `Module.Faults`: whole runs of the program's
  function.
-/

namespace ProcLang.Ir

/-- The number of cells of storage of a type. -/
def Ty.cells : Ty → Nat
  | array len _ => len
  | _ => 1

/-- What a register holds. -/
inductive Word (W : World) where
  | data (value : W.Val)
  /-- Cell `offset` of the storage that `base` stands for, which has `cells` cells. -/
  | address (base : Operand) (cells offset : Nat)

/-- The registers, the cells of storage, and the calls so far. -/
structure Activation (W : World) where
  regs : String → Option (Word W)
  mem : Operand → Nat → W.Val
  trace : W.Trace

namespace Activation

variable {W : World}

/-- Another value in a register. -/
def set (r : String) (word : Word W) (act : Activation W) : Activation W :=
  { act with regs := fun r' => if r' = r then some word else act.regs r' }

/-- Another value in a cell. -/
def write (base : Operand) (offset : Nat) (value : W.Val) (act : Activation W) : Activation W :=
  { act with mem := fun b j => if b = base ∧ j = offset then value else act.mem b j }

end Activation

/-- What an operand stands for. -/
def Value.eval {W : World} (m : Module) (regs : String → Option (Word W)) (v : Value) :
    Option (Word W) :=
  match v.operand with
  | .int n =>
    match v.ty with
    | .i32 => some (.data (.integer (BitVec.ofInt 32 n)))
    | .i1 => some (.data (.bool (n != 0)))
    | _ => none
  | .float x => some (.data (.float (W.constant x)))
  | .register r => regs r
  | .symbol name =>
    match m.global? name with
    | some ⟨_, ty, .variable⟩ => some (.address (.symbol name) ty.cells 0)
    | some ⟨_, _, .text text⟩ => some (.data (.string (W.text text)))
    | none => none

/-- A part of the run of a function. -/
abbrev Machine (W : World) := StateT (Activation W) (Except W.Stop)

namespace Machine

variable {W : World} {α : Type}

/-- Gives up, as there is nothing that could be done. -/
def stuck : Machine W α := fun _ => .error .stuck

/-- The result of a calculation, whose fault ends the run. -/
def lift (r : Except Refusal α) : Machine W α := fun s =>
  match r with
  | .ok a => .ok (a, s)
  | .error .fault => .error (.fault s.trace)
  | .error .stuck => .error .stuck

/-- What an operand stands for, which has to be a value. -/
def data (m : Module) (v : Value) : Machine W W.Val := fun s =>
  match v.eval m s.regs with
  | some (.data value) => .ok (value, s)
  | _ => .error .stuck

/-- What an operand stands for, which has to be an address: the storage, the number of its cells,
and the number of the cell. -/
def address (m : Module) (v : Value) : Machine W (Operand × Nat × Nat) := fun s =>
  match v.eval m s.regs with
  | some (.address base cells offset) => .ok ((base, cells, offset), s)
  | _ => .error .stuck

/-- Writes a register. -/
def set (r : String) (word : Word W) : Machine W Unit := fun s =>
  .ok ((), s.set r word)

/-- Reads a cell. -/
def read (base : Operand) (offset : Nat) : Machine W W.Val := fun s =>
  .ok (s.mem base offset, s)

/-- Writes a cell. -/
def write (base : Operand) (offset : Nat) (value : W.Val) : Machine W Unit := fun s =>
  .ok ((), s.write base offset value)

/-- Calls a routine. -/
def ask (routine : String) (args : List W.Val) : Machine W W.Val := fun s =>
  match W.ask routine args s.trace with
  | .ok (value, trace) => .ok (value, { s with trace })
  | .error stop => .error stop

end Machine

section Operations

variable {W : World}

/-- An operation on two values. -/
def BinOp.calculate (op : BinOp) : W.Val → W.Val → Except Refusal W.Val
  | .integer a, .integer b =>
    match op with
    | add => .ok (.integer (a + b))
    | sub => .ok (.integer (a - b))
    | mul => .ok (.integer (a * b))
    | sdiv => .integer <$> quotient a b
    | and => .ok (.integer (a &&& b))
    | or => .ok (.integer (a ||| b))
    | xor => .ok (.integer (a ^^^ b))
    | _ => .error .stuck
  | .bool a, .bool b =>
    match op with
    | and => .ok (.bool (a && b))
    | or => .ok (.bool (a || b))
    | xor => .ok (.bool (a ^^ b))
    | _ => .error .stuck
  | .float a, .float b =>
    match op with
    | fadd => .ok (.float (W.arithmetic .add a b))
    | fsub => .ok (.float (W.arithmetic .sub a b))
    | fmul => .ok (.float (W.arithmetic .mul a b))
    | fdiv => .ok (.float (W.arithmetic .div a b))
    | _ => .error .stuck
  | _, _ => .error .stuck

/-- A comparison of integers or truth values. -/
def IntPredicate.calculate (pred : IntPredicate) : W.Val → W.Val → Except Refusal W.Val
  | .integer a, .integer b =>
    match pred with
    | eq => .ok (.bool (a == b))
    | ne => .ok (.bool (a != b))
    | slt => .ok (.bool (a.slt b))
    | sle => .ok (.bool (a.sle b))
    | sgt => .ok (.bool (b.slt a))
    | sge => .ok (.bool (b.sle a))
  | .bool a, .bool b =>
    match pred with
    | eq => .ok (.bool (a == b))
    | ne => .ok (.bool (a != b))
    | _ => .error .stuck
  | _, _ => .error .stuck

/-- The relation that a comparison of floats stands for. -/
def FloatPredicate.relation : FloatPredicate → BinaryOp
  | ueq => .eq
  | une => .notEq
  | ult => .less
  | ule => .lessEq
  | ugt => .greater
  | uge => .greaterEq

/-- A comparison of floats. -/
def FloatPredicate.calculate (pred : FloatPredicate) : W.Val → W.Val → Except Refusal W.Val
  | .float a, .float b => .ok (.bool (W.relation pred.relation a b))
  | _, _ => .error .stuck

/-- The opposite of a float. -/
def floatOpposite : W.Val → Except Refusal W.Val
  | .float x => .ok (.float (W.opposite x))
  | _ => .error .stuck

/-- The float that an integer becomes. -/
def floatOfInteger : W.Val → Except Refusal W.Val
  | .integer n => .ok (.float (W.ofInteger n))
  | _ => .error .stuck

/-- What operands stand for. -/
def dataAll (m : Module) : List Value → Machine W (List W.Val)
  | [] => return []
  | v :: vs => do
    let value ← Machine.data m v
    let values ← dataAll m vs
    return value :: values

/-- Runs an instruction that does not pass control on. -/
def Instr.exec (m : Module) : Instr → Machine W Unit
  | alloca dest ty => Machine.set dest (.address (.register dest) ty.cells 0)
  | load dest _ ptr => do
    let (base, _, offset) ← Machine.address m ptr
    let value ← Machine.read base offset
    Machine.set dest (.data value)
  | store value ptr => do
    let x ← Machine.data m value
    let (base, _, offset) ← Machine.address m ptr
    Machine.write base offset x
  | binary dest op lhs rhs => do
    let a ← Machine.data m lhs
    let b ← Machine.data m rhs
    let x ← Machine.lift (op.calculate a b)
    Machine.set dest (.data x)
  | icmp dest pred lhs rhs => do
    let a ← Machine.data m lhs
    let b ← Machine.data m rhs
    let x ← Machine.lift (pred.calculate a b)
    Machine.set dest (.data x)
  | fcmp dest pred lhs rhs => do
    let a ← Machine.data m lhs
    let b ← Machine.data m rhs
    let x ← Machine.lift (pred.calculate a b)
    Machine.set dest (.data x)
  | fneg dest operand => do
    let a ← Machine.data m operand
    let x ← Machine.lift (floatOpposite a)
    Machine.set dest (.data x)
  | sitofp dest operand => do
    let a ← Machine.data m operand
    let x ← Machine.lift (floatOfInteger a)
    Machine.set dest (.data x)
  | gep dest _ ptr index => do
    let (base, cells, _) ← Machine.address m ptr
    let i ← Machine.data m index
    let offset ← Machine.lift (cellAt cells i)
    Machine.set dest (.address base cells offset)
  | call dest _ callee args => do
    let values ← dataAll m args
    if (m.declaration? callee).isSome then
      let x ← Machine.ask callee values
      Machine.set dest (.data x)
    else
      Machine.stuck
  | br _ | condBr _ _ _ | ret _ | unreachable => Machine.stuck

/-- Runs instructions in a row. -/
def execCode (m : Module) : List Instr → Machine W Unit
  | [] => return ()
  | i :: code => do
    i.exec m
    execCode m code

end Operations

/-! ## Whole runs -/

/-- The block with a label. -/
def Function.block? (f : Function) (label : String) : Option Block :=
  f.blocks.find? (·.label == label)

/-- Where a run stands: in front of instructions, at the end of the function, or stopped. -/
inductive State (W : World) where
  | running (code : List Instr) (act : Activation W)
  | finished (act : Activation W)
  | stopped (stop : W.Stop)

namespace State

variable {W : World}

/-- Goes on at the start of the block with a label. -/
def enter (f : Function) (label : String) (act : Activation W) : State W :=
  match f.block? label with
  | some block => .running block.instrs act
  | none => .stopped .stuck

/-- Runs one instruction. -/
def step (m : Module) (f : Function) : State W → State W
  | running [] _ => .stopped .stuck
  | running (i :: code) act =>
    match i with
    | .br target => enter f target act
    | .condBr cond yes no =>
      match cond.eval m act.regs with
      | some (.data (.bool b)) => enter f (if b then yes else no) act
      | _ => .stopped .stuck
    | .ret _ => .finished act
    | i =>
      match i.exec m act with
      | .ok ((), act) => .running code act
      | .error stop => .stopped stop
  | state => state

/-- Where a run stands after so many steps. -/
def run (m : Module) (f : Function) (n : Nat) (state : State W) : State W :=
  (step m f)^[n] state

/-- The start of a function, with some contents of storage. -/
def start (f : Function) (mem : Operand → Nat → W.Val) : State W :=
  .running (f.blocks.head?.elim [] Block.instrs) ⟨fun _ => none, mem, []⟩

end State

namespace State

variable {W : World} {m : Module} {f : Function} {act act' : Activation W} {code rest : List Instr}

theorem run_add (k n : Nat) (state : State W) :
    run m f (k + n) state = run m f n (run m f k state) := by
  rw [Nat.add_comm]
  exact Function.iterate_add_apply (step m f) n k state

theorem run_one (state : State W) : run m f 1 state = step m f state := rfl

theorem run_finished (n : Nat) : run m f n (.finished act) = .finished act :=
  Function.iterate_fixed rfl n

theorem run_stopped (n : Nat) (stop : W.Stop) : run m f n (.stopped stop) = .stopped stop :=
  Function.iterate_fixed rfl n

/-- An instruction that can be run takes one step. -/
theorem step_exec {i : Instr} (h : i.exec m act = .ok ((), act')) :
    step m f (.running (i :: rest) act) = .running rest act' := by
  cases i with
  | br | condBr | ret | unreachable => cases h
  | _ => simp only [step, h]

theorem step_fault {i : Instr} {trace : W.Trace} (h : i.exec m act = .error (.fault trace)) :
    step m f (.running (i :: rest) act) = .stopped (.fault trace) := by
  cases i with
  | br | condBr | ret | unreachable => cases h
  | _ => simp only [step, h]

/-- **Instructions in a row** are run step by step. -/
theorem run_code (h : execCode m code act = .ok ((), act')) :
    run m f code.length (.running (code ++ rest) act) = .running rest act' := by
  induction code generalizing act with
  | nil =>
    cases h
    rfl
  | cons i code ih =>
    cases hi : i.exec m act with
    | error stop =>
      rw [execCode, run_bind_error hi] at h
      cases h
    | ok r =>
      obtain ⟨⟨⟩, act1⟩ := r
      rw [execCode, run_bind hi] at h
      rw [List.length_cons, Nat.add_comm, run_add, run_one, List.cons_append, step_exec hi]
      exact ih h

/-- A fault among instructions in a row ends the run. -/
theorem run_code_fault {trace : W.Trace} (h : execCode m code act = .error (.fault trace)) :
    ∃ n, run m f n (.running (code ++ rest) act) = .stopped (.fault trace) := by
  induction code generalizing act with
  | nil => cases h
  | cons i code ih =>
    cases hi : i.exec m act with
    | error stop =>
      rw [execCode, run_bind_error hi] at h
      cases h
      exact ⟨1, step_fault hi⟩
    | ok r =>
      obtain ⟨⟨⟩, act1⟩ := r
      rw [execCode, run_bind hi] at h
      obtain ⟨n, hn⟩ := ih h
      refine ⟨1 + n, ?_⟩
      rw [run_add, run_one, List.cons_append, step_exec hi]
      exact hn

end State

/-- The function comes to its end, starting with some contents of storage. -/
def Function.Finishes (W : World) (m : Module) (f : Function) (start : Operand → Nat → W.Val)
    (mem : Operand → Nat → W.Val) (trace : W.Trace) : Prop :=
  ∃ n regs, State.run m f n (.start f start) = .finished ⟨regs, mem, trace⟩

/-- The function ends with a fault, starting with some contents of storage. -/
def Function.Faults (W : World) (m : Module) (f : Function) (start : Operand → Nat → W.Val)
    (trace : W.Trace) : Prop :=
  ∃ n, State.run m f n (.start f start) = .stopped (.fault trace)

end ProcLang.Ir
