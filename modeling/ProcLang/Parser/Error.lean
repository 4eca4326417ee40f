import ProcLang.Token

/-!
# Syntax errors

What can be wrong with the text of a program, and how it is said.
-/

namespace ProcLang

/-- Why a text is not a program. -/
inductive SyntaxCause where
  /-- One kind of token was needed and another was found. -/
  | unexpected (expected actual : TokenKind)
  /-- One of several kinds of token was needed and another was found. -/
  | unexpectedAny (expected : List TokenKind) (actual : TokenKind)
  /-- An operand was needed. -/
  | notOperand (actual : TokenKind)
  /-- A statement was needed. -/
  | notStatement (actual : TokenKind)
  /-- The text ended too early. -/
  | endOfInput
  /-- The text went on behind the program. -/
  | trailingInput (actual : TokenKind)
  /-- An integer literal does not fit. -/
  | integerRange
  /-- A stretch of text is not a token. -/
  | lexical (kind : TokenKind)
deriving DecidableEq, Inhabited

namespace SyntaxCause

/-- What the message says of a stretch of text that is not a token. -/
def lexicalMessage : TokenKind → String
  | .unclosedString => "unterminated string"
  | .unclosedComment => "unterminated comment"
  | _ => "unknown token"

/-- The message for the cause. -/
def message : SyntaxCause → String
  | unexpected expected actual =>
    "expected token " ++ expected.name ++ ", but got " ++ actual.name
  | unexpectedAny expected actual =>
    "expected one of [" ++ ", ".intercalate (expected.map TokenKind.name) ++ "], but got " ++
      actual.name
  | notOperand actual => "unexpected token " ++ actual.name ++ " in expression"
  | notStatement actual => "expected a statement, but got " ++ actual.name
  | endOfInput => "unexpected end of input"
  | trailingInput actual => "unexpected token " ++ actual.name ++ " after end of program"
  | integerRange => "integer literal out of range"
  | lexical kind => lexicalMessage kind

/-- Whether the cause lies in a stretch of text that is not a token. -/
def isLexical : SyntaxCause → Bool
  | lexical _ => true
  | _ => false

end SyntaxCause

/-- A cause at a place. -/
structure SyntaxError where
  position : Position
  cause : SyntaxCause
deriving DecidableEq, Inhabited

end ProcLang
