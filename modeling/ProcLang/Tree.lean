import ProcLang.Ty
import ProcLang.Number.Binary32

/-!
# Syntax trees

The tree of a program: expressions, statements and declarations. Every node that a message may
speak of knows its line. An expression also has room for its type, which checking fills in.

In the grammar below, braces mean repetition and brackets an optional part.

    program     = "program" name "is" { declaration ";" }
                  "begin" { statement ";" } "end" "program" "."
    declaration = [ "global" ] ( procedure | variable | "type" name "is" mark )
    procedure   = "procedure" name ":" mark "(" [ variable { "," variable } ] ")"
                  { declaration ";" } "begin" { statement ";" } "end" "procedure"
    variable    = "variable" name ":" mark [ bound ] | type name [ bound ]
    bound       = "[" [ "-" ] integer "]"
    mark        = type | name | "enum" "{" name { "," name } "}"
    statement   = assignment | declaration | call | "return" expr
                | "if" "(" expr ")" "then" { statement ";" }
                  [ "else" { statement ";" } ] "end" "if"
                | "for" "(" assignment ";" expr ")" { statement ";" } "end" "for"
    assignment  = place ":=" expr
    place       = name [ "[" expr "]" ]
    expr        = operand { ( "&" | "|" ) operand }
    operand     = [ "not" ] sum
    sum         = relation { ( "+" | "-" ) relation }
    relation    = product { ( "<" | "<=" | ">" | ">=" | "==" | "!=" ) product }
    product     = factor { ( "*" | "/" ) factor }
    factor      = "(" expr ")" | call | [ "-" ] place | [ "-" ] number
                | string | "true" | "false"
    call        = name "(" [ expr { "," expr } ] ")"
-/

namespace ProcLang

/-- The type part of a declaration: a type of the language, a name, or an enumeration. -/
inductive TypeMark where
  | builtin (ty : Ty)
  | named (name : String)
  | enum (variants : List String)
deriving DecidableEq, Inhabited

/-- The text of a type mark. -/
def TypeMark.render : TypeMark → String
  | builtin ty => ty.name
  | named name => name
  | enum variants => "enum \x7b" ++ ", ".intercalate variants ++ "\x7d"

/-- An operator between two operands. -/
inductive BinaryOp where
  | and | or | add | sub | mul | div | less | lessEq | greater | greaterEq | eq | notEq
deriving DecidableEq, Inhabited

namespace BinaryOp

/-- The operator in a program. -/
def symbol : BinaryOp → String
  | and => "&"
  | or => "|"
  | add => "+"
  | sub => "-"
  | mul => "*"
  | div => "/"
  | less => "<"
  | lessEq => "<="
  | greater => ">"
  | greaterEq => ">="
  | eq => "=="
  | notEq => "!="

/-- The name of the operator in an outline. -/
def name : BinaryOp → String
  | and => "And"
  | or => "Or"
  | add => "Add"
  | sub => "Sub"
  | mul => "Mul"
  | div => "Div"
  | less => "Less"
  | lessEq => "LessEq"
  | greater => "Greater"
  | greaterEq => "GreaterEq"
  | eq => "Eq"
  | notEq => "NotEq"

end BinaryOp

/-- A literal of a program. -/
inductive Literal where
  | integer (value : Int)
  | float (value : Binary32)
  | bool (value : Bool)
  | string (value : String)
deriving DecidableEq, Inhabited

/-- The type of a literal. -/
def Literal.ty : Literal → Ty
  | integer _ => .integer
  | float _ => .float
  | bool _ => .bool
  | string _ => .string

mutual

/-- An expression. -/
inductive Expr where
  | literal (value : Literal) (line : Nat) (ty : Option Ty)
  | read (place : Place) (line : Nat) (ty : Option Ty)
  | not (operand : Expr) (line : Nat) (ty : Option Ty)
  | binary (op : BinaryOp) (lhs rhs : Expr) (line : Nat) (ty : Option Ty)
  | call (callee : String) (args : List Expr) (line : Nat) (ty : Option Ty)

/-- A mention of a variable: the whole of it, or one element. A minus sign in front negates the
value read. -/
inductive Place where
  | whole (name : String) (negated : Bool) (line : Nat)
  | element (name : String) (index : Expr) (negated : Bool) (line : Nat)

end

namespace Expr

/-- The line of an expression. -/
def line : Expr → Nat
  | literal _ line _ | read _ line _ | not _ line _ | binary _ _ _ line _ | call _ _ line _ =>
    line

/-- The type of an expression, as far as it is known. -/
def ty : Expr → Option Ty
  | literal _ _ ty | read _ _ ty | not _ _ ty | binary _ _ _ _ ty | call _ _ _ ty => ty

instance : Inhabited Expr := ⟨literal default 0 none⟩

end Expr

namespace Place

/-- The variable that is mentioned. -/
def name : Place → String
  | whole name _ _ | element name _ _ _ => name

/-- Whether a minus sign stands in front. -/
def negated : Place → Bool
  | whole _ negated _ | element _ _ negated _ => negated

/-- The line of the name. -/
def line : Place → Nat
  | whole _ _ line | element _ _ _ line => line

/-- The index, if one element is meant. -/
def index? : Place → Option Expr
  | whole _ _ _ => none
  | element _ index _ _ => some index

instance : Inhabited Place := ⟨whole default false 0⟩

end Place

/-- The declaration of a variable or a parameter. With a bound it declares an array. -/
structure VariableDecl where
  name : String
  mark : TypeMark
  isGlobal : Bool
  bound : Option Int
  line : Nat
deriving DecidableEq, Inhabited

/-- The heading of a procedure. -/
structure Heading where
  name : String
  result : TypeMark
  params : List VariableDecl
  isGlobal : Bool
deriving DecidableEq, Inhabited

/-- A statement or a declaration. The body of a procedure holds its declarations and then its
statements. -/
inductive Stmt where
  | assign (dest : Place) (value : Expr) (line : Nat)
  | declare (decl : VariableDecl) (line : Nat)
  | declareType (name : String) (mark : TypeMark) (isGlobal : Bool) (line : Nat)
  | branch (cond : Expr) (yes : List Stmt) (no : Option (List Stmt)) (line : Nat)
  | loop (dest : Place) (value : Expr) (cond : Expr) (body : List Stmt) (line : Nat)
  | result (value : Expr) (line : Nat)
  | procedure (heading : Heading) (body : List Stmt) (line : Nat)
  | call (call : Expr) (line : Nat)

namespace Stmt

/-- The line of a statement. -/
def line : Stmt → Nat
  | assign _ _ line | declare _ line | declareType _ _ _ line | branch _ _ _ line
  | loop _ _ _ _ line | result _ line | procedure _ _ line | call _ line => line

instance : Inhabited Stmt := ⟨declare default 0⟩

end Stmt

/-- A program. -/
structure Program where
  name : String
  declarations : List Stmt
  statements : List Stmt
deriving Inhabited

end ProcLang
