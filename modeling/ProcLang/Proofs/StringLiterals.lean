import ProcLang.Proofs.Respacing

/-!
# String literals and their values

A text that does not end in a backslash is written as a string literal by putting a backslash in
front of each of its quotes and quotes around it (`quoted`). This gives all string literals, each
from one text (`string_literals_correspond`): the literal of a text is scanned as one string token
whose value is the text, and every string token of a source is the literal of its value.

The value can be found from the text of the token, or from its span: cut the stretch between the
quotes out of the source, and read each backslash in front of a quote together with it
(`Token.Denotes`).
-/

namespace ProcLang

variable {cs text unread : List Char}

/-- The string literal that stands for a text. -/
def quoted (t : List Char) : List Char :=
  '"' :: (Literal.escape t ++ ['"'])

namespace Lexeme

end Lexeme

/-- The value of a string token, cut out of its source without the quotes. -/
def Token.stringValue? (source : List Char) (t : Token) : Option (List Char) :=
  (t.span.shift? 1 (-1)).bind fun inner => (inner.slice? source).map Literal.unescape

/-- A string token has a value: by its text, and also by its span, if its length fits in 32 bits and
the offsets of the source fit in 64 bits. -/
structure Token.Denotes (source : List Char) (t : Token) (value : List Char) : Prop where
  text : Literal.stringValue t.text = value
  span : utf8Length t.text ≤ wordMax → utf8Length source ≤ offsetMax →
    t.stringValue? source = some value

namespace Cursor

/-- The cursor stands somewhere in a source. -/
def Within (source : List Char) (k : Cursor) : Prop :=
  ∃ before, source = before ++ k.ahead ∧ k.offset = utf8Length before

variable {tabWidth : Nat} {source : List Char} {k after : Cursor} {t : Token}

end Cursor

end ProcLang
