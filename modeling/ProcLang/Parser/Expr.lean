import ProcLang.Parser
import ProcLang.Token.Value
import ProcLang.Tree

/-!
# Expressions

The grammar of expressions has four levels of operators, each grouping to the left, and a `not`
between the loosest level and the next. Every production takes the productions it calls as
arguments; `Parser.expr` closes the circle by recursion on the remaining tokens.
-/

namespace ProcLang

/-- A level of operators, the loosest first. -/
inductive Level where
  | logic | sum | relation | product
deriving DecidableEq

/-- The operator that a token stands for on a level. -/
def Level.op? : Level → TokenKind → Option BinaryOp
  | logic, .amp => some .and
  | logic, .pipe => some .or
  | sum, .plus => some .add
  | sum, .minus => some .sub
  | relation, .less => some .less
  | relation, .lessEq => some .lessEq
  | relation, .greater => some .greater
  | relation, .greaterEq => some .greaterEq
  | relation, .eqEq => some .eq
  | relation, .notEq => some .notEq
  | product, .star => some .mul
  | product, .slash => some .div
  | _, _ => none

theorem Level.ne_eof_of_op? {level : Level} {kind : TokenKind} {op : BinaryOp}
    (h : level.op? kind = some op) : kind ≠ .eof := by
  rintro rfl
  cases level <;> simp [op?] at h

namespace Parser

/-- Reads operators of a level, each with an operand behind it, and joins them to what stands in
front of them. -/
def chainRest (level : Level) (p : Parser) (operand : Here p Expr) (lhs : Expr) : Step p Expr :=
  match h : level.op? p.kind with
  | none => Step.done p lhs
  | some op =>
    have lt : p.advance.remaining < p.remaining := advance_remaining_lt (Level.ne_eof_of_op? h)
    ((operand p.advance (Nat.le_of_lt lt)).andThen fun q le rhs =>
      chainRest level q (operand.mono (Nat.le_trans le (Nat.le_of_lt lt)))
        (.binary op lhs rhs lhs.line none)).within (Nat.le_of_lt lt)
termination_by p.remaining

/-- Reads operands with operators of a level between them. -/
def chain (level : Level) (p : Parser) (operand : Here p Expr) : Step p Expr :=
  operand.run.andThen fun q le lhs => chainRest level q (operand.mono le) lhs

/-- Reads an operand of the loosest level, which may start with `not`. -/
def negation (p : Parser) (operand : Here p Expr) : Step p Expr :=
  if p.kind = .kwNot then
    ((operand p.advance p.advance_remaining_le).map (.not · p.line none)).within
      p.advance_remaining_le
  else
    operand.run

/-- Reads a name and its index, if there is one. -/
def place (p : Parser) (negated : Bool) (expr : Later p Expr) : Step p Place :=
  p.expectName fun q lt name =>
    if q.kind = .lBracket then
      q.expect .lBracket fun r ltr _ =>
        (expr r (Nat.lt_trans ltr lt)).andThen fun s _ index =>
          s.expect .rBracket fun t _ _ => Step.done t (.element name index negated p.line)
    else
      Step.done q (.whole name negated p.line)

/-- Reads a call. -/
def call (p : Parser) (expr : Later p Expr) : Step p Expr :=
  p.expectName fun q lt callee =>
    q.expect .lParen fun r ltr _ =>
      (r.list (· = .rParen) (expr.here (Nat.lt_trans ltr lt))).andThen fun s _ args =>
        s.expect .rParen fun t _ _ => Step.done t (.call callee args p.line none)

/-- The integers that a literal of an expression may stand for. -/
def inLiteralRange (value : Int) : Bool :=
  decide (-0x80000000 ≤ value ∧ value ≤ 0x7FFFFFFF)

/-- The value of a number, with the minus sign in front of it. -/
def numberValue? (negated : Bool) (token : Token) : Option Literal :=
  if token.kind = .float then
    let value := Literal.floatValue token.text
    some (.float (if negated then value.neg else value))
  else
    (Literal.integerValue? token.text).bind fun value =>
      let signed : Int := if negated then -(value : Int) else value
      if inLiteralRange signed then some (.integer signed) else none

/-- Reads a number. A minus sign that was passed before belongs to it. -/
def number (p : Parser) (negated : Bool) : Step p Literal :=
  let q := p.advance
  match numberValue? negated p.current with
  | some value => (Step.done q value).within p.advance_remaining_le
  | none => (q.failAt p.current.position .integerRange).within p.advance_remaining_le

/-- Reads what stands behind a minus sign in front of an operand. -/
def signed (p : Parser) (line : Nat) (expr : Later p Expr) : Step p Expr :=
  match p.kind with
  | .identifier => (p.place true expr).map (.read · line none)
  | .integer | .float => (p.number true).map (.literal · line none)
  | kind => p.fail (.notOperand kind)

/-- Passes a literal that is a single token. -/
def literal (p : Parser) (value : Literal) : Step p Expr :=
  (Step.done p.advance (.literal value p.line none)).within p.advance_remaining_le

/-- Reads an operand of the tightest level. -/
def factor (p : Parser) (expr : Later p Expr) : Step p Expr :=
  match p.kind with
  | .lParen =>
    p.expect .lParen fun q lt _ =>
      (expr q lt).andThen fun r _ inner => r.expect .rParen fun s _ _ => Step.done s inner
  | .identifier =>
    if p.next.kind = .lParen then
      p.call expr
    else
      (p.place false expr).map (.read · p.line none)
  | .minus =>
    (p.advance.signed p.line (expr.mono p.advance_remaining_le)).within p.advance_remaining_le
  | .integer | .float => (p.number false).map (.literal · p.line none)
  | .string => p.literal (.string (String.ofList (Literal.stringValue p.current.text)))
  | .kwTrue => p.literal (.bool true)
  | .kwFalse => p.literal (.bool false)
  | kind => p.fail (.notOperand kind)

/-- Reads an expression, given how to read the expressions inside it. -/
def exprWith (p : Parser) (expr : Later p Expr) : Step p Expr :=
  chain .logic p fun q hq => q.negation fun r hr =>
    chain .sum r fun s hs => chain .relation s fun t ht => chain .product t fun u hu =>
      u.factor (expr.mono (by omega))

/-- Reads an expression. -/
def expr (p : Parser) : Step p Expr :=
  p.exprWith fun q _ => q.expr
termination_by p.remaining

end Parser

end ProcLang
