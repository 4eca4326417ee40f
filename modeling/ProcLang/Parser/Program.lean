import ProcLang.Fault
import ProcLang.Parser.Stmt

/-!
# Programs

A program is read one item at a time, so that each can be used before the next is read:
`Parser.header`, then `Parser.nextItem` for the declarations and again for the statements.
`Program.parse` reads a program as a whole in this way, and `Expr.parse` reads a single expression.
-/

namespace ProcLang

/-- The outcome of asking for the next item of a section. -/
inductive Next (p : Parser) where
  /-- An item was read. -/
  | item (stmt : Stmt) (after : Parser) (lt : after.remaining < p.remaining)
  /-- An item did not fit and was skipped. -/
  | recovered (after : Parser) (lt : after.remaining < p.remaining)
  /-- The section was over. -/
  | finished (after : Parser) (le : after.remaining ≤ p.remaining)
  /-- The text ended before the section did. -/
  | ended (after : Parser) (le : after.remaining ≤ p.remaining)

namespace Parser

/-- The start of a source text. -/
def ofString (tabWidth : Nat) (source : String) : Parser :=
  .ofScan (.ofString tabWidth source)

/-- Reads the heading of a program and gives its name. -/
def header (p : Parser) : Step p String :=
  p.expect .kwProgram fun q _ _ => q.expectName fun r _ name => r.expect .kwIs fun s _ _ =>
    Step.done s name

/-- Reads `end program .`, behind which the text has to end. -/
def trailer (p : Parser) : Step p Unit :=
  p.expect .kwEnd fun q _ _ => q.expect .kwProgram fun r _ _ => r.expect .period fun s _ _ =>
    if s.kind = .eof then Step.done s () else s.fail (.trailingInput s.kind)

/-- Reports that the text ended too early. -/
def prematureEnd (p : Parser) : Next p :=
  .ended (p.report .endOfInput) (Nat.le_refl _)

/-- Reads an item with its semicolon. -/
def terminatedItem (part : Section) (p : Parser) : Next p :=
  match (p.item part).item with
  | .parsed stmt after lt => .item stmt after lt
  | .skipped after lt => .recovered after lt
  | .ended after le => .ended after le

/-- Reads the next item of a section of the program. The declarations are over at `begin`, the
statements at `end program`; both are passed. -/
def nextItem (part : Section) (p : Parser) : Next p :=
  match part with
  | .declarations =>
    if p.kind = .kwBegin then .finished p.advance p.advance_remaining_le
    else if p.kind = .eof then p.prematureEnd
    else p.terminatedItem .declarations
  | .statements =>
    if p.kind = .kwEnd ∧ p.next.kind = .kwProgram then .finished p.trailer.after p.trailer.le
    else if p.kind = .eof then p.prematureEnd
    else p.terminatedItem .statements

/-- Reads the items of a section. The items are given unless the text ended before the section
did. -/
def items (part : Section) (p : Parser) : Step p (List Stmt) :=
  match p.nextItem part with
  | .item stmt q lt => ((q.items part).map (stmt :: ·)).within (Nat.le_of_lt lt)
  | .recovered q lt => (q.items part).within (Nat.le_of_lt lt)
  | .finished q le => (Step.done q []).within le
  | .ended q le => ⟨none, q, le⟩
termination_by p.remaining

/-- Reads a program. -/
def program (p : Parser) : Step p Program :=
  p.header.andThen fun q _ name => (q.items .declarations).andThen fun r _ declarations =>
    (r.items .statements).map fun statements => { name, declarations, statements }

end Parser

/-- What was read from a text, and the errors found in it. There may be both: an item that does not
fit is left out. -/
structure Parsed (α : Type) where
  value : Option α
  errors : List SyntaxError

/-- Whether a text was read without an error. -/
def Parsed.isOk {α : Type} (r : Parsed α) : Bool :=
  r.value.isSome && r.errors.isEmpty

/-- The outcome of a last step. It has none if a count did not fit. -/
def Step.finish {p : Parser} {α : Type} (s : Step p α) : Except Fault (Parsed α) :=
  if s.after.cutShort then .error .overflow else .ok ⟨s.value, s.after.errors⟩

/-- Reads a program from a source text. -/
def Program.parse (tabWidth : Nat) (source : String) : Except Fault (Parsed Program) :=
  (Parser.ofString tabWidth source).program.finish

/-- The tab width that holds unless another is asked for. -/
def defaultTabWidth : Nat := 4

/-- Reads an expression that makes up a whole source text. -/
def Expr.parse (source : String) : Except Fault (Parsed Expr) :=
  ((Parser.ofString defaultTabWidth source).expr.andThen fun q _ expr => q.expectEnd expr).finish

end ProcLang
