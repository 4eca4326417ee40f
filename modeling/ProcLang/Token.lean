import ProcLang.Text.Span
import ProcLang.Ty

/-!
# Tokens

The kinds of token, the tables of keywords and two-character operators, and the tokens themselves.
A token knows its kind, the text it covers, where that text starts, and the span of its bytes.
-/

namespace ProcLang

/-- What a token is. -/
inductive TokenKind where
  | kwProgram | kwProcedure | kwIs | kwBegin | kwEnd | kwGlobal | kwVariable | kwType
  | kwIf | kwThen | kwElse | kwFor | kwWhile | kwReturn | kwNot | kwTrue | kwFalse
  | kwInteger | kwFloat | kwString | kwBool | kwEnum
  | amp | pipe | plus | minus | star | slash | assign
  | eqEq | notEq | less | lessEq | greater | greaterEq
  | lBracket | rBracket | lParen | rParen | lBrace | rBrace
  | semicolon | colon | period | comma
  | identifier | integer | float | string
  | whitespace | lineComment | blockComment
  | eof
  | unknown | unclosedString | unclosedComment
deriving DecidableEq, Inhabited

namespace TokenKind

/-- The name of the kind in messages and listings. -/
def name : TokenKind → String
  | kwProgram => "Program"
  | kwProcedure => "Procedure"
  | kwIs => "Is"
  | kwBegin => "Begin"
  | kwEnd => "End"
  | kwGlobal => "Global"
  | kwVariable => "Variable"
  | kwType => "Type"
  | kwIf => "If"
  | kwThen => "Then"
  | kwElse => "Else"
  | kwFor => "For"
  | kwWhile => "While"
  | kwReturn => "Return"
  | kwNot => "Not"
  | kwTrue => "True"
  | kwFalse => "False"
  | kwInteger => "IntegerType"
  | kwFloat => "FloatType"
  | kwString => "StringType"
  | kwBool => "BoolType"
  | kwEnum => "EnumType"
  | amp => "Amp"
  | pipe => "Pipe"
  | plus => "Plus"
  | minus => "Minus"
  | star => "Star"
  | slash => "Slash"
  | assign => "Assign"
  | eqEq => "EqEq"
  | notEq => "NotEq"
  | less => "Less"
  | lessEq => "LessEq"
  | greater => "Greater"
  | greaterEq => "GreaterEq"
  | lBracket => "LBracket"
  | rBracket => "RBracket"
  | lParen => "LParen"
  | rParen => "RParen"
  | lBrace => "LBrace"
  | rBrace => "RBrace"
  | semicolon => "Semicolon"
  | colon => "Colon"
  | period => "Period"
  | comma => "Comma"
  | identifier => "Identifier"
  | integer => "Integer"
  | float => "Float"
  | string => "String"
  | whitespace => "Whitespace"
  | lineComment => "LineComment"
  | blockComment => "BlockComment"
  | eof => "Eof"
  | unknown => "Unknown"
  | unclosedString => "ErrorUnclosedString"
  | unclosedComment => "ErrorUnclosedComment"

/-- Whether the token only separates others. -/
def isTrivia : TokenKind → Bool
  | whitespace | lineComment | blockComment => true
  | _ => false

/-- Whether the text could not be read as a token. -/
def isError : TokenKind → Bool
  | unknown | unclosedString | unclosedComment => true
  | _ => false

/-- The type that a keyword names. -/
def type? : TokenKind → Option Ty
  | kwInteger => some .integer
  | kwFloat => some .float
  | kwBool => some .bool
  | kwString => some .string
  | _ => none

/-- Whether the keyword names a type. -/
def isType (kind : TokenKind) : Bool :=
  kind.type?.isSome

end TokenKind

/-- The words that are not identifiers. -/
def keywords : List (String × TokenKind) :=
  [("program", .kwProgram), ("procedure", .kwProcedure), ("is", .kwIs), ("begin", .kwBegin),
   ("end", .kwEnd), ("global", .kwGlobal), ("type", .kwType), ("integer", .kwInteger),
   ("float", .kwFloat), ("string", .kwString), ("bool", .kwBool), ("enum", .kwEnum),
   ("not", .kwNot), ("if", .kwIf), ("then", .kwThen), ("else", .kwElse), ("for", .kwFor),
   ("while", .kwWhile), ("return", .kwReturn), ("true", .kwTrue), ("false", .kwFalse),
   ("variable", .kwVariable)]

/-- The operators of two characters. -/
def digraphs : List (String × TokenKind) :=
  [(">=", .greaterEq), ("<=", .lessEq), ("==", .eqEq), ("!=", .notEq), (":=", .assign)]

/-- The keyword with the given spelling. -/
def keyword? (text : String) : Option TokenKind :=
  keywords.lookup text

/-- The two-character operator with the given spelling. -/
def digraph? (text : String) : Option TokenKind :=
  digraphs.lookup text

/-- A token of a source text. -/
structure Token where
  kind : TokenKind
  text : List Char
  position : Position
  span : Span
deriving DecidableEq, Inhabited

namespace Token

/-- Whether the token ends its text. -/
def isEof (t : Token) : Bool :=
  t.kind == .eof

/-- The kind, the ends and the position, as in `Token(Plus, 0..1, L1 C1)`. -/
def describe? (t : Token) : Option String :=
  t.span.render?.map fun ends =>
    "Token(" ++ t.kind.name ++ ", " ++ ends ++ ", " ++ t.position.render ++ ")"

end Token

end ProcLang
