import ProcLang.Token.Lexeme

/-!
# Token streams

A `Cursor` stands somewhere in a source text and gives its tokens one at a time with `Cursor.next`.
At the end of the text it gives end tokens for ever. It stops short only where a count no longer
fits: the line, the column, or how many block comments are open. The cursor that is left then stands
behind what did not fit.

`Cursor.scan` collects all tokens of a text at once as a `Scan`.
-/

namespace ProcLang

namespace Caret

/-- Passes over a text. If a line or a column does not fit, gives the caret before the character at
fault, and the text behind that character. -/
def walk (tabWidth : Nat) : Caret → List Char → Except (Caret × List Char) Caret
  | k, [] => .ok k
  | k, c :: cs =>
    match k.pass? tabWidth c with
    | some after => after.walk tabWidth cs
    | none => .error (k, cs)

/-- Passes over the text of a lexeme. It is also cut short behind the delimiter with which too many
comments are open. -/
def read (tabWidth : Nat) (k : Caret) (text : List Char) : Except (Caret × List Char) Caret :=
  match Lexeme.tooDeep? text with
  | none => k.walk tabWidth text
  | some unread =>
    match k.walk tabWidth (text.take (text.length - unread.length)) with
    | .ok after => .error (after, unread)
    | .error (after, left) => .error (after, left ++ unread)

end Caret

/-- A place in a source text: the text ahead, the byte offset and the caret. -/
structure Cursor where
  ahead : List Char
  offset : Nat := 0
  caret : Caret := {}

namespace Cursor

/-- The start of a text. -/
def ofString (source : String) : Cursor :=
  { ahead := source.toList }

/-- The next token and the place behind it, or the place where a count did not fit. -/
def next (tabWidth : Nat) (k : Cursor) : Except Cursor (Token × Cursor) :=
  match k.caret.mark? with
  | none => .error k
  | some position =>
    let lexeme := Lexeme.first k.ahead
    let length := utf8Length lexeme.text
    match k.caret.read tabWidth lexeme.text with
    | .ok caret =>
      .ok ({ kind := lexeme.kind
             text := lexeme.text
             position
             span := ⟨k.offset, min length wordMax⟩ },
           { ahead := lexeme.rest, offset := k.offset + length, caret })
    | .error (caret, unread) =>
      .error { ahead := unread ++ lexeme.rest
               offset := k.offset + (length - utf8Length unread)
               caret }

theorem next_ahead {tabWidth : Nat} {k after : Cursor} {token : Token}
    (h : k.next tabWidth = .ok (token, after)) : after.ahead = (Lexeme.first k.ahead).rest := by
  unfold next at h
  split at h
  · simp at h
  · simp only at h
    split at h <;> simp at h
    simp [← h.2]

/-- The outcomes of a number of requests for a token, `none` where a count did not fit. -/
def nextTokens (tabWidth : Nat) : (requests : Nat) → Cursor → List (Option Token)
  | 0, _ => []
  | requests + 1, k =>
    match k.next tabWidth with
    | .ok (token, after) => some token :: after.nextTokens tabWidth requests
    | .error after => none :: after.nextTokens tabWidth requests

end Cursor

/-- The end of a text. -/
structure Ending where
  position : Position
  offset : Nat
deriving DecidableEq, Inhabited

/-- The token at the end of a text. -/
def Ending.token (e : Ending) : Token :=
  { kind := .eof, text := [], position := e.position, span := ⟨e.offset, 0⟩ }

/-- The tokens of a text, and its end. There is no end if a count did not fit; the tokens are then
those before that place. -/
structure Scan where
  tokens : List Token
  ending : Option Ending
deriving DecidableEq, Inhabited

/-- All tokens from a place on. A NUL character gives an end token among the others, because the
text goes on behind it. -/
def Cursor.scan (tabWidth : Nat) (k : Cursor) : Scan :=
  if nonempty : k.ahead = [] then
    ⟨[], k.caret.mark?.map (⟨·, k.offset⟩)⟩
  else
    match h : k.next tabWidth with
    | .error _ => ⟨[], none⟩
    | .ok (token, after) =>
      have : after.ahead.length < k.ahead.length := by
        rw [next_ahead h]
        exact Lexeme.first_rest_length_lt nonempty
      let later := after.scan tabWidth
      ⟨token :: later.tokens, later.ending⟩
termination_by k.ahead.length

namespace Scan

/-- All tokens of a source text. -/
def ofString (tabWidth : Nat) (source : String) : Scan :=
  (Cursor.ofString source).scan tabWidth

/-- The tokens up to the first one that is an end token or satisfies `stop`, with it, and whether
there is such a token before a count does not fit. -/
def through (stop : Token → Bool) (s : Scan) : List Token × Bool :=
  go (s.tokens ++ (s.ending.map Ending.token).toList)
where
  /-- The tokens of a list up to the first one that stops. -/
  go : List Token → List Token × Bool
    | [] => ([], false)
    | token :: tokens =>
      if stop token || token.isEof then
        ([token], true)
      else
        let (later, complete) := go tokens
        (token :: later, complete)

end Scan

end ProcLang
