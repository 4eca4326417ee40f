import ProcLang.Tree
import ProcLang.Number.Shortest
import ProcLang.Text.Quoted

/-!
# Outlines

The outline of a tree has one line per node, indented by two blanks for each level. Statements
show their line number.
-/

namespace ProcLang

/-- A line of an outline. -/
def outlineLine (level : Nat) (text : String) : String :=
  String.ofList (List.replicate (2 * level) ' ') ++ text ++ "\n"

/-- The text of a literal in an outline. -/
def Literal.outline : Literal → String
  | integer value => "integer " ++ toString value
  | float value => "float " ++ value.render
  | bool value => "bool " ++ (if value then "true" else "false")
  | string value => "string " ++ Text.quoted value

mutual

/-- The outline of an expression. -/
def Expr.outline (level : Nat) : Expr → String
  | .literal value _ _ => outlineLine level value.outline
  | .read place _ _ => place.outline level
  | .not operand _ _ => outlineLine level "unary Not" ++ operand.outline (level + 1)
  | .binary op lhs rhs _ _ =>
    outlineLine level ("binary " ++ op.name) ++ lhs.outline (level + 1) ++ rhs.outline (level + 1)
  | .call callee args _ _ => outlineLine level ("call " ++ callee) ++ outlineArgs (level + 1) args

/-- The outline of a mention of a variable. -/
def Place.outline (level : Nat) : Place → String
  | .whole name negated _ =>
    outlineLine level ((if negated then "-" else "") ++ "variable " ++ name)
  | .element name index negated _ =>
    outlineLine level ((if negated then "-" else "") ++ "variable " ++ name) ++
      index.outline (level + 1)

/-- The outlines of the arguments of a call. -/
def outlineArgs (level : Nat) : List Expr → String
  | [] => ""
  | arg :: args => arg.outline level ++ outlineArgs level args

end

/-- The marker of a global declaration. -/
def globalMarker (isGlobal : Bool) : String :=
  if isGlobal then "global " else ""

/-- The bound of an array declaration, in brackets. -/
def boundText : Option Int → String
  | some bound => "[" ++ toString bound ++ "]"
  | none => ""

/-- A name with its type, as in `values: float[3]`. -/
def VariableDecl.signature (d : VariableDecl) : String :=
  d.name ++ ": " ++ d.mark.render ++ boundText d.bound

/-- A line number in parentheses. -/
def lineNote (line : Nat) : String :=
  " (L" ++ toString line ++ ")"

/-- The outline of an assignment. -/
def outlineAssign (level : Nat) (dest : Place) (value : Expr) (line : Nat) : String :=
  outlineLine level ("assign" ++ lineNote line) ++ dest.outline (level + 1) ++
    value.outline (level + 1)

/-- The first line of the outline of a procedure. -/
def Heading.outline (h : Heading) (line : Nat) : String :=
  globalMarker h.isGlobal ++ "procedure " ++ h.name ++ "(" ++
    ", ".intercalate (h.params.map VariableDecl.signature) ++ ") : " ++ h.result.render ++
    lineNote line

mutual

/-- The outline of a statement. -/
def Stmt.outline (level : Nat) : Stmt → String
  | .assign dest value line => outlineAssign level dest value line
  | .declare decl line =>
    outlineLine level (globalMarker decl.isGlobal ++ "variable " ++ decl.signature ++ lineNote line)
  | .declareType name mark isGlobal line =>
    outlineLine level
      (globalMarker isGlobal ++ "type " ++ name ++ " is " ++ mark.render ++ lineNote line)
  | .branch cond yes none line =>
    outlineLine level ("if" ++ lineNote line) ++ cond.outline (level + 1) ++
      outlineLine (level + 1) "then" ++ outlineBlock (level + 2) yes
  | .branch cond yes (some no) line =>
    outlineLine level ("if" ++ lineNote line) ++ cond.outline (level + 1) ++
      outlineLine (level + 1) "then" ++ outlineBlock (level + 2) yes ++
      outlineLine (level + 1) "else" ++ outlineBlock (level + 2) no
  | .loop dest value cond body line =>
    outlineLine level ("for" ++ lineNote line) ++ outlineAssign (level + 1) dest value line ++
      cond.outline (level + 1) ++ outlineLine (level + 1) "do" ++ outlineBlock (level + 2) body
  | .result value line => outlineLine level ("return" ++ lineNote line) ++ value.outline (level + 1)
  | .procedure heading body line =>
    outlineLine level (heading.outline line) ++ outlineBlock (level + 1) body
  | .call call line => outlineLine level ("call" ++ lineNote line) ++ call.outline (level + 1)

/-- The outlines of statements that follow each other. -/
def outlineBlock (level : Nat) : List Stmt → String
  | [] => ""
  | stmt :: stmts => stmt.outline level ++ outlineBlock level stmts

end

/-- The outline of a program. -/
def Program.outline (p : Program) : String :=
  outlineLine 0 ("program " ++ p.name) ++ outlineBlock 1 p.declarations ++
    outlineLine 1 "begin" ++ outlineBlock 1 p.statements

end ProcLang
