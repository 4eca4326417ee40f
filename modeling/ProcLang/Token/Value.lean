import ProcLang.Token
import ProcLang.Number.Binary32

/-!
# Values of literals

What the text of a literal stands for. An integer literal has a value if it fits 64 bits with a
sign. Every float literal has a value. The value of a string literal is the text between its
quotes, in which a backslash and a quote together stand for the quote.
-/

namespace ProcLang

namespace Literal

/-- The number that a run of decimal digits writes. -/
def digitsValue (digits : List Char) : Nat :=
  digits.foldl (fun value c => 10 * value + (c.toNat - '0'.toNat)) 0

/-- The largest value of an integer literal. -/
def integerMax : Nat := 0x7FFFFFFFFFFFFFFF

/-- The value of an integer literal, if it fits. -/
def integerValue? (text : List Char) : Option Nat :=
  let value := digitsValue text
  if value ≤ integerMax then some value else none

/-- The value of a float literal. -/
def floatValue (text : List Char) : Binary32 :=
  let whole := text.takeWhile Char.isDigit
  let places := (text.dropWhile Char.isDigit).tail
  .ofDecimal (digitsValue (whole ++ places)) places.length

/-- Reads the inside of a string literal. -/
def unescape : List Char → List Char
  | '\\' :: '"' :: cs => '"' :: unescape cs
  | c :: cs => c :: unescape cs
  | [] => []

/-- The value of a string literal, given with its quotes. -/
def stringValue (text : List Char) : List Char :=
  unescape text.tail.dropLast

end Literal

end ProcLang
