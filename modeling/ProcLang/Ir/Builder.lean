import ProcLang.Fault
import ProcLang.Ir.Module
import ProcLang.Text.Position

/-!
# Building modules

A `Builder` is a module under construction and a place in it, the cursor, where instructions are
added: the end of a block of a function. What is added behind an instruction that ends a block goes
to a new block which control never reaches. Storage is always reserved at the start of the entry
block.

Building steps are computations in `Build`. They have no answer when there is no cursor. Where they
are asked for one by one, as often as one likes, each is `counted`: it has none either when the
number of a name does not fit in 32 bits.
-/

namespace ProcLang.Ir

/-- A place for instructions: the end of a block, by its number within a function, which is given by
its number within the module. -/
structure Cursor where
  function : Nat
  block : Nat
deriving DecidableEq, Inhabited

/-- A name was to be defined that the module already has. -/
structure NameTaken where
  name : String
deriving DecidableEq, Inhabited

/-- The message for a name that is taken. -/
def NameTaken.message (e : NameTaken) : String :=
  "name " ++ e.name ++ " is already defined in the module"

/-- A module under construction, and the place where instructions are added. -/
structure Builder where
  module : Module
  cursor : Option Cursor := none
deriving DecidableEq, Inhabited

/-- A building step. -/
abbrev Build := StateT Builder (Except Fault)

namespace Build

/-! ## The cursor -/

/-- The cursor. -/
def insertionPoint : Build Cursor := do
  match (← get).cursor with
  | some cursor => pure cursor
  | none => throw .noInsertionPoint

/-- Chooses the place for the following instructions, or none. -/
def restore (cursor : Option Cursor) : Build Unit :=
  modify fun b => { b with cursor }

/-- Chooses the place for the following instructions. -/
def moveTo (cursor : Cursor) : Build Unit :=
  restore (some cursor)

/-- The function with a number. -/
def functionAt (i : Nat) : Build Function := do
  match (← get).module.functions[i]? with
  | some f => pure f
  | none => throw .danglingCursor

/-- The block at a place. -/
def blockAt (cursor : Cursor) : Build Block := do
  match (← functionAt cursor.function).blocks[cursor.block]? with
  | some block => pure block
  | none => throw .danglingCursor

/-- The label of the block at a place. -/
def labelOf (cursor : Cursor) : Build String :=
  Block.label <$> blockAt cursor

/-- The block at the cursor. -/
def currentBlock : Build Block := do
  blockAt (← insertionPoint)

/-- Whether the block at the cursor has ended. -/
def isTerminated : Build Bool :=
  Block.isTerminated <$> currentBlock

/-- Changes the module. -/
def modifyModule (g : Module → Module) : Build Unit :=
  modify fun b => { b with module := g b.module }

/-! ## Module-level entries -/

/-- Defines a function and gives the place at its entry. The cursor stays. -/
def defineFunction (name : String) (ret : Ty) (params : List Param) :
    Build (Except NameTaken Cursor) := do
  let m := (← get).module
  if m.hasSymbol name then
    return .error ⟨name⟩
  modifyModule fun m => { m with functions := m.functions ++ [.new name ret params] }
  return .ok ⟨m.functions.length, 0⟩

/-- Declares a routine that is provided elsewhere, unless one with its name is declared. -/
def declareFunction (d : Declaration) : Build Unit := do
  unless ((← get).module.declaration? d.name).isSome do
    modifyModule fun m => { m with declarations := m.declarations ++ [d] }

/-- Adds global data and gives their address. -/
def addGlobal (g : Global) : Build (Except NameTaken Value) := do
  if (← get).module.hasSymbol g.name then
    return .error ⟨g.name⟩
  modifyModule fun m => { m with globals := m.globals ++ [g] }
  return .ok (.address g.name)

/-- Adds a global variable that starts out as zero. -/
def globalVariable (name : String) (ty : Ty) : Build (Except NameTaken Value) :=
  addGlobal { name, ty, kind := .variable }

/-- The length of the storage of a text: its bytes and the zero byte, as far as 32 bits go. -/
def textLength (text : String) : Nat :=
  min (text.utf8ByteSize + 1) 0xFFFFFFFF

/-- Adds a text. -/
def globalText (name text : String) : Build (Except NameTaken Value) :=
  addGlobal { name, ty := .array (textLength text) .i8, kind := .text text }

/-! ## Blocks and instructions -/

/-- Hands out a name of the function at the cursor. -/
def fresh (hint : String) : Build String := do
  let cursor ← insertionPoint
  let f ← functionAt cursor.function
  modifyModule (·.modifyFunction cursor.function Function.tick)
  return f.freshName hint

/-- Adds an empty block to the function at the cursor and gives the place in it. The cursor
stays. -/
def appendBlock (hint : String) : Build Cursor := do
  let label ← fresh hint
  let cursor ← insertionPoint
  let f ← functionAt cursor.function
  modifyModule (·.modifyFunction cursor.function (·.pushBlock ⟨label, []⟩))
  return { cursor with block := f.blocks.length }

/-- Adds an instruction at the cursor. If the block there has ended, the cursor moves to a new block
first. -/
def emit (i : Instr) : Build Unit := do
  if ← isTerminated then
    moveTo (← appendBlock "dead")
  let cursor ← insertionPoint
  modifyModule (·.modifyFunction cursor.function (·.modifyBlock cursor.block (·.push i)))

/-- Adds an instruction that gives a value. -/
def emitValue (hint : String) (ty : Ty) (i : String → Instr) : Build Value := do
  let dest ← fresh hint
  emit (i dest)
  return .register ty dest

/-- Reserves storage in the function at the cursor and gives its address. -/
def alloca (ty : Ty) (hint : String) : Build Value := do
  let dest ← fresh hint
  let cursor ← insertionPoint
  modifyModule (·.modifyFunction cursor.function (·.modifyBlock 0 (·.pushAlloca (.alloca dest ty))))
  return .register .ptr dest

/-- Reads storage. -/
def load (ty : Ty) (ptr : Value) (hint : String) : Build Value :=
  emitValue hint ty (.load · ty ptr)

/-- Writes storage. -/
def store (value ptr : Value) : Build Unit :=
  emit (.store value ptr)

/-- An operation on two values. The result has the type of the first. -/
def binary (op : BinOp) (lhs rhs : Value) (hint : String) : Build Value :=
  emitValue hint lhs.ty (.binary · op lhs rhs)

/-- A comparison of integers. -/
def icmp (pred : IntPredicate) (lhs rhs : Value) (hint : String) : Build Value :=
  emitValue hint .i1 (.icmp · pred lhs rhs)

/-- A comparison of floats. -/
def fcmp (pred : FloatPredicate) (lhs rhs : Value) (hint : String) : Build Value :=
  emitValue hint .i1 (.fcmp · pred lhs rhs)

/-- The opposite of a float. -/
def fneg (operand : Value) (hint : String) : Build Value :=
  emitValue hint .float (.fneg · operand)

/-- The float nearest to an integer. A constant is converted at once, without an instruction. -/
def sitofp (operand : Value) (hint : String) : Build Value :=
  match operand.operand with
  | .int value => pure (.float (.ofInt value))
  | _ => emitValue hint .float (.sitofp · operand)

/-- The address of an element. -/
def gep (elem : Ty) (ptr index : Value) (hint : String) : Build Value :=
  emitValue hint .ptr (.gep · elem ptr index)

/-- A call. -/
def call (callee : String) (ret : Ty) (args : List Value) (hint : String) : Build Value :=
  emitValue hint ret (.call · ret callee args)

/-- Passes control to a block. -/
def br (target : Cursor) : Build Unit := do
  emit (.br (← labelOf target))

/-- Passes control to one of two blocks. -/
def condBr (cond : Value) (yes no : Cursor) : Build Unit := do
  let yesLabel ← labelOf yes
  let noLabel ← labelOf no
  emit (.condBr cond yesLabel noLabel)

/-- Returns from the function. -/
def ret (value : Value) : Build Unit :=
  emit (.ret value)

/-- Marks a place that control does not reach. -/
def unreachable : Build Unit :=
  emit .unreachable

/-- The step, unless a name gets a number that does not fit. -/
def counted {α : Type} (x : Build α) : Build α := do
  let a ← x
  unless (← get).module.functions.all (·.nextId ≤ wordMax) do
    throw .overflow
  return a

end Build

end ProcLang.Ir
