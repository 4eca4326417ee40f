import ProcLang.Parser.Expr

/-!
# Declarations and statements

A `Section` of a program holds declarations or statements. An item of a section that does not fit
the grammar is skipped: `Parser.recover` passes tokens up to the next semicolon, and reading goes
on behind it.
-/

namespace ProcLang

/-- What may stand in a part of a program. Statements include declarations. -/
inductive Section where
  | declarations
  | statements
deriving DecidableEq, Inhabited

/-- The outcome of looking for a semicolon from `p` on: the parser behind it, or at the end of the
text. -/
inductive Recovery (p : Parser) where
  | resumed (after : Parser) (lt : after.remaining < p.remaining)
  | ended (after : Parser) (le : after.remaining ≤ p.remaining)

/-- The outcome of reading an item with its semicolon. An item that does not fit is skipped with
its semicolon, unless the text ends before. -/
inductive Item (p : Parser) where
  | parsed (stmt : Stmt) (after : Parser) (lt : after.remaining < p.remaining)
  | skipped (after : Parser) (lt : after.remaining < p.remaining)
  | ended (after : Parser) (le : after.remaining ≤ p.remaining)

namespace Parser

/-- Passes tokens up to a semicolon and the semicolon itself. -/
def recover (p : Parser) : Recovery p :=
  if h : p.kind = .eof then
    .ended p (Nat.le_refl _)
  else
    have lt := advance_remaining_lt h
    if p.kind = .semicolon then
      .resumed p.advance lt
    else
      match p.advance.recover with
      | .resumed after ltAfter => .resumed after (Nat.lt_trans ltAfter lt)
      | .ended after le => .ended after (Nat.le_trans le (Nat.le_of_lt lt))
termination_by p.remaining

end Parser

/-- Looks for the semicolon behind an item, and skips the item if there is none. -/
def Step.item {p : Parser} (s : Step p Stmt) : Item p :=
  match s with
  | ⟨none, q, le⟩ => skip q le
  | ⟨some stmt, q, le⟩ =>
    if h : q.kind = .semicolon then
      .parsed stmt q.advance
        (Nat.lt_of_lt_of_le (Parser.advance_remaining_lt (h ▸ by decide)) le)
    else
      skip (q.report (.unexpected .semicolon q.kind)) le
where
  /-- Skips what is left of an item. -/
  skip (q : Parser) (le : q.remaining ≤ p.remaining) : Item p :=
    match q.recover with
    | .resumed after lt => .skipped after (Nat.lt_of_lt_of_le lt le)
    | .ended after leAfter => .ended after (Nat.le_trans leAfter le)

namespace Parser

/-- Reads items up to a token of one of the given kinds, which is not passed. -/
def block (p : Parser) (stops : List TokenKind) (item : Here p Stmt) : Step p (List Stmt) :=
  if p.kind ∈ stops then
    Step.done p []
  else if p.kind = .eof then
    p.fail .endOfInput
  else
    match item.run.item with
    | .parsed stmt q lt =>
      ((q.block stops (item.mono (Nat.le_of_lt lt))).map (stmt :: ·)).within (Nat.le_of_lt lt)
    | .skipped q lt => (q.block stops (item.mono (Nat.le_of_lt lt))).within (Nat.le_of_lt lt)
    | .ended q le => (q.fail .endOfInput).within le
termination_by p.remaining

/-- Reads the bound of an array, if there is one. -/
def bound (p : Parser) : Step p (Option Int) :=
  if p.kind = .lBracket then
    p.expect .lBracket fun q _ _ => q.optional .minus fun r _ negated =>
      r.expect .integer fun s _ token =>
        match Literal.integerValue? token.text with
        | none => s.failAt token.position .integerRange
        | some value =>
          s.expect .rBracket fun t _ _ =>
            Step.done t (some (if negated then -(value : Int) else value))
  else
    Step.done p none

/-- Reads a type mark. -/
def typeMark (p : Parser) : Step p TypeMark :=
  match p.kind.type? with
  | some ty => (Step.done p.advance (.builtin ty)).within p.advance_remaining_le
  | none =>
    match p.kind with
    | .identifier => p.expectName fun q _ name => Step.done q (.named name)
    | .kwEnum =>
      p.expect .kwEnum fun q _ _ => q.expect .lBrace fun r _ _ =>
        (r.list (fun _ => false) fun s _ => s.expectName fun t _ name => Step.done t name).andThen
          fun s _ variants => s.expect .rBrace fun t _ _ => Step.done t (.enum variants)
    | kind =>
      p.fail
        (.unexpectedAny [.kwInteger, .kwFloat, .kwString, .kwBool, .identifier, .kwEnum] kind)

/-- Reads a variable introduced by `variable`. -/
def longVariable (p : Parser) (isGlobal : Bool) : Step p VariableDecl :=
  p.expect .kwVariable fun q _ token => q.expectName fun r _ name => r.expect .colon fun s _ _ =>
    s.typeMark.andThen fun t _ mark => t.bound.map fun bound =>
      { name, mark, isGlobal, bound, line := token.position.line }

/-- Reads a variable introduced by its type. -/
def shortVariable (p : Parser) (ty : Ty) (isGlobal : Bool) : Step p VariableDecl :=
  (p.advance.expectName fun q _ name => q.bound.map fun bound =>
    { name, mark := .builtin ty, isGlobal, bound, line := p.line : VariableDecl }).within
      p.advance_remaining_le

/-- Reads a parameter of a procedure. -/
def parameter (p : Parser) : Step p VariableDecl :=
  match p.kind.type? with
  | some ty => p.shortVariable ty false
  | none => p.longVariable false

/-- Reads a procedure, given how to read the items of its body. -/
def procedure (p : Parser) (isGlobal : Bool) (line : Nat) (item : Section → Later p Stmt) :
    Step p Stmt :=
  p.expect .kwProcedure fun q lt _ => q.expectName fun r hr name => r.expect .colon fun s hs _ =>
    s.typeMark.andThen fun t ht result => t.expect .lParen fun u hu _ =>
      (u.list (· = .rParen) fun v _ => v.parameter).andThen fun v hv params =>
        v.expect .rParen fun w hw _ =>
          (w.block [.kwBegin] ((item .declarations).here (by omega))).andThen fun x hx locals =>
            x.expect .kwBegin fun y hy _ =>
              (y.block [.kwEnd] ((item .statements).here (by omega))).andThen fun z _ body =>
                z.expect .kwEnd fun z' _ _ => z'.expect .kwProcedure fun z'' _ _ =>
                  Step.done z''
                    (.procedure { name, result, params, isGlobal } (locals ++ body) line)

/-- Reads the part of a declaration behind `global`. -/
def declarationRest (p : Parser) (isGlobal : Bool) (line : Nat) (item : Section → Later p Stmt) :
    Step p Stmt :=
  match p.kind.type? with
  | some ty => (p.shortVariable ty isGlobal).map (.declare · line)
  | none =>
    match p.kind with
    | .kwProcedure => p.procedure isGlobal line item
    | .kwVariable => (p.longVariable isGlobal).map (.declare · line)
    | .kwType =>
      p.expect .kwType fun q _ _ => q.expectName fun r _ name => r.expect .kwIs fun s _ _ =>
        s.typeMark.map fun mark => .declareType name mark isGlobal line
    | kind => p.fail (.unexpectedAny [.kwProcedure, .kwVariable, .kwType] kind)

/-- Reads a declaration. -/
def declaration (p : Parser) (item : Section → Later p Stmt) : Step p Stmt :=
  p.optional .kwGlobal fun q le isGlobal =>
    q.declarationRest isGlobal p.line fun part => (item part).mono le

/-- Reads the place and the value of an assignment. -/
def assignment (p : Parser) : Step p (Place × Expr) :=
  (p.place false fun q _ => q.expr).andThen fun q _ dest => q.expect .assign fun r _ _ =>
    r.expr.map fun value => (dest, value)

/-- Reads a conditional statement. -/
def branch (p : Parser) (item : Section → Later p Stmt) : Step p Stmt :=
  p.expect .kwIf fun q lt _ => q.expect .lParen fun r hr _ => r.expr.andThen fun s hs cond =>
    s.expect .rParen fun t ht _ => t.expect .kwThen fun u hu _ =>
      (u.block [.kwElse, .kwEnd] ((item .statements).here (by omega))).andThen fun v hv yes =>
        (alternative v (item .statements) (by omega)).andThen fun w _ no =>
          w.expect .kwEnd fun x _ _ => x.expect .kwIf fun y _ _ =>
            Step.done y (.branch cond yes no p.line)
where
  /-- Reads the statements behind `else`, if it is there. -/
  alternative (q : Parser) (item : Later p Stmt) (lt : q.remaining < p.remaining) :
      Step q (Option (List Stmt)) :=
    if q.kind = .kwElse then
      q.expect .kwElse fun r hr _ =>
        (r.block [.kwEnd] ((item.mono (Nat.le_of_lt lt)).here hr)).map some
    else
      Step.done q none

/-- Reads a loop. -/
def loop (p : Parser) (item : Section → Later p Stmt) : Step p Stmt :=
  p.expect .kwFor fun q lt _ => q.expect .lParen fun r hr _ =>
    r.assignment.andThen fun s hs (dest, value) => s.expect .semicolon fun t ht _ =>
      t.expr.andThen fun u hu cond => u.expect .rParen fun v hv _ =>
        (v.block [.kwEnd] ((item .statements).here (by omega))).andThen fun w _ body =>
          w.expect .kwEnd fun x _ _ => x.expect .kwFor fun y _ _ =>
            Step.done y (.loop dest value cond body p.line)

/-- Reads a statement, given how to read the items inside it. -/
def statement (p : Parser) (item : Section → Later p Stmt) : Step p Stmt :=
  match p.kind with
  | .kwIf => p.branch item
  | .kwFor => p.loop item
  | .kwReturn => p.expect .kwReturn fun q _ _ => q.expr.map (.result · p.line)
  | .identifier =>
    if p.next.kind = .lParen then
      (p.call fun q _ => q.expr).map (.call · p.line)
    else
      p.assignment.map fun (dest, value) => .assign dest value p.line
  | .kwGlobal | .kwVariable | .kwProcedure | .kwType
  | .kwInteger | .kwFloat | .kwString | .kwBool => p.declaration item
  | kind => p.fail (.notStatement kind)

/-- Reads an item of a section, without its semicolon. -/
def item (part : Section) (p : Parser) : Step p Stmt :=
  match part with
  | .declarations => p.declaration fun inner q _ => q.item inner
  | .statements => p.statement fun inner q _ => q.item inner
termination_by p.remaining

end Parser

end ProcLang
