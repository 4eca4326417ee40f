/-!
# Lines and columns

A `Position` is what a message shows its reader: a line and a column, both counted from one.
While a text is read, a `Caret` counts the line and the columns already used on it. A line break
starts a new line, a tab uses as many columns as the tab width says, every other character uses
one. Lines and columns are 32-bit numbers: `Caret.pass?` and `Caret.mark?` refuse to count further.
-/

namespace ProcLang

/-- The largest line or column, and the largest length of a span. -/
def wordMax : Nat := 0xFFFFFFFF

/-- A line and a column of a source text. -/
structure Position where
  line : Nat
  column : Nat
deriving DecidableEq, Inhabited

/-- The text of a position, as in `L3 C14`. -/
def Position.render (p : Position) : String :=
  "L" ++ toString p.line ++ " C" ++ toString p.column

/-- The line being read and the columns used on it so far. -/
structure Caret where
  line : Nat := 1
  column : Nat := 0
deriving DecidableEq, Inhabited

namespace Caret

/-- The columns a character uses on its line. -/
def width (tabWidth : Nat) (c : Char) : Nat :=
  if c = '\t' then tabWidth else 1

/-- The caret after a character, unless the line or the column no longer fits. -/
def pass? (tabWidth : Nat) (k : Caret) (c : Char) : Option Caret :=
  if c = '\n' then
    if k.line + 1 ≤ wordMax then some { line := k.line + 1, column := 0 } else none
  else if k.column + width tabWidth c ≤ wordMax then
    some { k with column := k.column + width tabWidth c }
  else
    none

/-- The position of the character that the caret stands before, unless its column no longer
fits. -/
def mark? (k : Caret) : Option Position :=
  if k.column + 1 ≤ wordMax then some ⟨k.line, k.column + 1⟩ else none

end Caret

end ProcLang
