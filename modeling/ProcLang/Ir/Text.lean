import ProcLang.Ir.Module

/-!
# The text of a module

Every part of a module has a text, and the text of the module is put together from them. Float
constants are written as the bits of the equal 64-bit number. In quoted texts, quotes, backslashes
and all bytes outside the printable ASCII characters are written as a backslash and two digits in
base sixteen.
-/

namespace ProcLang.Ir

/-- The text of a type. -/
def Ty.render : Ty → String
  | i1 => "i1"
  | i8 => "i8"
  | i32 => "i32"
  | float => "float"
  | ptr => "ptr"
  | array len elem => "[" ++ toString len ++ " x " ++ elem.render ++ "]"

/-- A digit in base sixteen, in upper case. -/
def hexDigit (n : Nat) : Char :=
  if n < 10 then Char.ofNat ('0'.toNat + n) else Char.ofNat ('A'.toNat + (n - 10))

/-- The lowest `width` digits of a number in base sixteen. -/
def hexDigits : (width : Nat) → Nat → List Char
  | 0, _ => []
  | width + 1, n => hexDigits width (n / 16) ++ [hexDigit (n % 16)]

/-- The text of a value without its type. -/
def Value.render (v : Value) : String :=
  match v.ty, v.operand with
  | .i1, .int value => if value = 0 then "false" else "true"
  | _, .int value => toString value
  | _, .float value => "0x" ++ String.ofList (hexDigits 16 value.toBits64)
  | _, .register name => "%" ++ name
  | _, .symbol name => "@" ++ name

/-- The text of a value with its type. -/
def Value.typed (v : Value) : String :=
  v.ty.render ++ " " ++ v.render

/-- The name of an operation. -/
def BinOp.name : BinOp → String
  | add => "add"
  | sub => "sub"
  | mul => "mul"
  | sdiv => "sdiv"
  | fadd => "fadd"
  | fsub => "fsub"
  | fmul => "fmul"
  | fdiv => "fdiv"
  | and => "and"
  | or => "or"
  | xor => "xor"

/-- The name of a comparison of integers. -/
def IntPredicate.name : IntPredicate → String
  | eq => "eq"
  | ne => "ne"
  | slt => "slt"
  | sle => "sle"
  | sgt => "sgt"
  | sge => "sge"

/-- The name of a comparison of floats. -/
def FloatPredicate.name : FloatPredicate → String
  | ueq => "ueq"
  | une => "une"
  | ult => "ult"
  | ule => "ule"
  | ugt => "ugt"
  | uge => "uge"

/-- Texts with commas between them. -/
def commaSeparated (parts : List String) : String :=
  ", ".intercalate parts

/-- The text of an instruction. -/
def Instr.render : Instr → String
  | alloca dest ty => "%" ++ dest ++ " = alloca " ++ ty.render
  | load dest ty ptr => "%" ++ dest ++ " = load " ++ ty.render ++ ", " ++ ptr.typed
  | store value ptr => "store " ++ value.typed ++ ", " ++ ptr.typed
  | binary dest op lhs rhs =>
    "%" ++ dest ++ " = " ++ op.name ++ " " ++ lhs.typed ++ ", " ++ rhs.render
  | icmp dest pred lhs rhs =>
    "%" ++ dest ++ " = icmp " ++ pred.name ++ " " ++ lhs.typed ++ ", " ++ rhs.render
  | fcmp dest pred lhs rhs =>
    "%" ++ dest ++ " = fcmp " ++ pred.name ++ " " ++ lhs.typed ++ ", " ++ rhs.render
  | fneg dest operand => "%" ++ dest ++ " = fneg " ++ operand.typed
  | sitofp dest operand => "%" ++ dest ++ " = sitofp " ++ operand.typed ++ " to float"
  | gep dest elem ptr index =>
    "%" ++ dest ++ " = getelementptr " ++ elem.render ++ ", " ++ ptr.typed ++ ", " ++ index.typed
  | call dest result callee args =>
    "%" ++ dest ++ " = call " ++ result.render ++ " @" ++ callee ++ "(" ++
      commaSeparated (args.map Value.typed) ++ ")"
  | br target => "br label %" ++ target
  | condBr cond yes no => "br " ++ cond.typed ++ ", label %" ++ yes ++ ", label %" ++ no
  | ret value => "ret " ++ value.typed
  | unreachable => "unreachable"

/-- The text of a block: its label, and its instructions one to a line. -/
def Block.render (b : Block) : String :=
  b.label ++ ":\n" ++ String.join (b.instrs.map fun i => "  " ++ i.render ++ "\n")

/-- The text of a parameter. -/
def Param.render (p : Param) : String :=
  p.ty.render ++ " %" ++ p.name

/-- The text of a function: its blocks with empty lines between them. -/
def Function.render (f : Function) : String :=
  "define " ++ f.ret.render ++ " @" ++ f.name ++ "(" ++
    commaSeparated (f.params.map Param.render) ++ ") \x7b\n" ++
    "\n".intercalate (f.blocks.map Block.render) ++ "\x7d\n"

/-- The text of a declaration. -/
def Declaration.render (d : Declaration) : String :=
  "declare " ++ d.ret.render ++ " @" ++ d.name ++ "(" ++
    commaSeparated (d.params.map Ty.render) ++ ")"

/-- A byte as it stands in a quoted text. -/
def escapeByte (b : UInt8) : List Char :=
  let n := b.toNat
  if n = '"'.toNat ∨ n = '\\'.toNat ∨ n < 0x20 ∨ 0x7E < n then
    '\\' :: hexDigits 2 n
  else
    [Char.ofNat n]

/-- The bytes of a text in UTF-8. -/
def utf8Bytes (s : String) : List UInt8 :=
  s.toList.flatMap String.utf8EncodeChar

/-- The inside of a quoted text. -/
def escape (s : String) : String :=
  String.ofList ((utf8Bytes s).flatMap escapeByte)

/-- The text of global data. -/
def Global.render (g : Global) : String :=
  match g.kind with
  | .variable => "@" ++ g.name ++ " = global " ++ g.ty.render ++ " zeroinitializer"
  | .text value =>
    "@" ++ g.name ++ " = private unnamed_addr constant " ++ g.ty.render ++ " c\"" ++
      escape value ++ "\\00\""

/-- An empty line and the given lines, or nothing if there are none. -/
def paragraph (lines : List String) : String :=
  if lines.isEmpty then "" else "\n" ++ String.join (lines.map (· ++ "\n"))

/-- The two lines at the top of a module. -/
def Module.header (name : String) : String :=
  "; ModuleID = '" ++ name ++ "'\n" ++ "source_filename = \"" ++ escape name ++ "\"\n"

/-- The text of a module. -/
def Module.render (m : Module) : String :=
  Module.header m.name ++ paragraph (m.globals.map Global.render) ++
    paragraph (m.declarations.map Declaration.render) ++
    String.join (m.functions.map fun f => "\n" ++ f.render)

end ProcLang.Ir
