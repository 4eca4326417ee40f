import ProcLang.Lower.Routine
import ProcLang.Proofs.Nearest
import ProcLang.Tree

/-!
# Values and the world of a run

What the runs of programs and of modules have in common. Integers have 32 bits. Floats, strings and
the routines of the library are left open: a `World` says what they are, and every statement about
runs is made for all worlds. A routine may also never come back; the run then ends with it.
-/

namespace ProcLang

/-- A value, given what floats and strings are. -/
inductive Val (F S : Type) where
  | integer (n : BitVec 32)
  | float (x : F)
  | bool (b : Bool)
  | string (s : S)

/-- The type of a value. -/
def Val.ty {F S : Type} : Val F S → Ty
  | integer _ => .integer
  | float _ => .float
  | bool _ => .bool
  | string _ => .string

/-- The value that variables of a type start with, given the float and the string for it. -/
def Val.initial {F S : Type} (x : F) (s : S) : Ty → Val F S
  | .integer => .integer 0
  | .float => .float x
  | .bool => .bool false
  | .string => .string s

theorem Val.ty_initial {F S : Type} (x : F) (s : S) (ty : Ty) : (initial x s ty).ty = ty := by
  cases ty <;> rfl

/-- Why a calculation has no result. -/
inductive Refusal where
  /-- A division without a result, or an index out of bounds. -/
  | fault
  /-- There is nothing that could be calculated. -/
  | stuck

/-- The call of a routine of the library. -/
structure Event (F S : Type) where
  routine : String
  args : List (Val F S)

/-- What runs leave open. -/
structure World where
  Float : Type
  Str : Type
  /-- The float that a constant stands for. -/
  constant : Binary32 → Float
  /-- The string that a text stands for. -/
  text : String → Str
  /-- The float that an integer becomes. -/
  ofInteger : BitVec 32 → Float
  /-- An integer becomes the nearest float, so constants can be converted beforehand. -/
  ofInteger_eq : ∀ (n : BitVec 32) (x : Binary32),
    x.Rounds (decide (n.toInt < 0)) n.toInt.natAbs 1 → ofInteger n = constant x
  opposite : Float → Float
  arithmetic : BinaryOp → Float → Float → Float
  relation : BinaryOp → Float → Float → Bool
  /-- What the last of the calls so far gives back, if it comes back. -/
  answer : List (Event Float Str) → Option (Val Float Str)
  /-- Routines give back what they declare. -/
  answer_ty : ∀ {history : List (Event Float Str)} {event : Event Float Str}
    {value : Val Float Str}, answer (history ++ [event]) = some value →
    ∀ r ∈ Routine.callable ++ [Routine.stringEquals], r.name = event.routine → value.ty = r.ret

namespace World

/-- A value in a world. -/
abbrev Val (W : World) : Type := ProcLang.Val W.Float W.Str

/-- The calls of a run, in order. -/
abbrev Trace (W : World) : Type := List (Event W.Float W.Str)

/-- Why a run does not go on. -/
inductive Stop (W : World) where
  /-- A calculation ended in a fault, or a routine did not come back. -/
  | fault (trace : W.Trace)
  /-- The run was longer than allowed. -/
  | timeout
  /-- What was to be done has no meaning. -/
  | stuck

/-- Calls a routine after the calls so far. -/
def ask (W : World) (routine : String) (args : List W.Val) (trace : W.Trace) :
    Except W.Stop (W.Val × W.Trace) :=
  let calls := trace ++ [⟨routine, args⟩]
  match W.answer calls with
  | some value => .ok (value, calls)
  | none => .error (.fault calls)

/-- A value as one of a type: an integer becomes a float where a float is wanted. -/
def promote (W : World) (ty : Ty) : W.Val → W.Val
  | .integer n => if ty = .float then .float (W.ofInteger n) else .integer n
  | value => value

end World

/-- A world in which floats are the constants, operators on them give the second operand, and all
routines answer. -/
def World.latter : World where
  Float := Binary32
  Str := String
  constant := id
  text := id
  ofInteger n := .ofInt n.toInt
  ofInteger_eq _ _ h := (Binary32.ofInt_rounds _).unique Nat.one_pos h
  opposite := id
  arithmetic _ _ y := y
  relation _ _ _ := false
  answer calls := calls.getLast?.bind fun event =>
    (Routine.find? event.routine).map fun r => .initial (.ofInt 0) "" r.ret
  answer_ty {history event value} h r hr hname := by
    have hfind : ∀ r ∈ Routine.callable ++ [Routine.stringEquals],
        Routine.find? r.name = some r := by
      decide
    rw [List.getLast?_concat, Option.bind_some, ← hname, hfind r hr] at h
    cases h
    exact Val.ty_initial _ _ _

/-- The quotient of two integers, if there is one and it has 32 bits. -/
def quotient (a b : BitVec 32) : Except Refusal (BitVec 32) :=
  if b = 0 ∨ (a = BitVec.intMin 32 ∧ b = -1) then .error .fault else .ok (a.sdiv b)

/-- The number of the cell at an index, if it is within the bounds. -/
def cellAt {F S : Type} (cells : Nat) : Val F S → Except Refusal Nat
  | .integer n => if 0 ≤ n.toInt ∧ n.toInt < cells then .ok n.toInt.toNat else .error .fault
  | _ => .error .stuck

end ProcLang
