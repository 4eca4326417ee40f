import ProcLang.Parser.Error
import ProcLang.Token.Stream

/-!
# Parser states and steps

A `Parser` sees the current token and the one after it; trivia are passed over, and stretches that
are not tokens are recorded as errors when they are passed. `Parser.advance` moves on by one token
and stays where it is at the end of the text.

`Parser.remaining` counts the tokens that can still be passed. A production of the grammar gives a
`Step`: a value, unless the text does not fit, and the parser behind it, with a proof that no
tokens were gained. Productions that call each other recurse on `remaining`; they hand on what
they call as `Here` (at the same place or later) or `Later` (behind at least one token).
-/

namespace ProcLang

/-- A place among the tokens of a text, with the errors found so far. -/
structure Parser where
  current : Token
  next : Token
  /-- The tokens behind `next`, as they were scanned. -/
  ahead : List Token
  /-- The end of the text, none if a count does not fit before it. -/
  ending : Option Ending
  /-- The errors that were not yet taken out, in order. -/
  errors : List SyntaxError
  /-- Whether a token was wanted at a column that does not fit. -/
  cutShort : Bool
deriving Inhabited

/-- A token taken from a scan: the token, the tokens behind it, and the errors passed on the way. -/
structure Pulled where
  token : Token
  ahead : List Token
  errors : List SyntaxError
  cutShort : Bool

namespace Parser

/-- The next token that is neither trivia nor an error. -/
def pull (ending : Option Ending) : List Token → Pulled
  | [] => ⟨(ending.getD default).token, [], [], ending.isNone⟩
  | token :: tokens =>
    if token.kind.isTrivia then
      pull ending tokens
    else if token.kind.isError then
      let later := pull ending tokens
      { later with errors := ⟨token.position, .lexical token.kind⟩ :: later.errors }
    else
      ⟨token, tokens, [], false⟩

/-- The start of a text. -/
def ofScan (s : Scan) : Parser :=
  let first := pull s.ending s.tokens
  let second := pull s.ending first.ahead
  { current := first.token
    next := second.token
    ahead := second.ahead
    ending := s.ending
    errors := first.errors ++ second.errors
    cutShort := first.cutShort || second.cutShort }

/-- The kind of the current token. -/
def kind (p : Parser) : TokenKind :=
  p.current.kind

/-- The line of the current token. -/
def line (p : Parser) : Nat :=
  p.current.position.line

/-- Moves on by one token, unless the text has ended. -/
def advance (p : Parser) : Parser :=
  if p.kind = .eof then
    p
  else
    let pulled := pull p.ending p.ahead
    { p with
      current := p.next
      next := pulled.token
      ahead := pulled.ahead
      errors := p.errors ++ pulled.errors
      cutShort := p.cutShort || pulled.cutShort }

/-- Records an error at a position. -/
def reportAt (p : Parser) (position : Position) (cause : SyntaxCause) : Parser :=
  { p with errors := p.errors ++ [⟨position, cause⟩] }

/-- Records an error at the current token. -/
def report (p : Parser) (cause : SyntaxCause) : Parser :=
  p.reportAt p.current.position cause

/-- The parser without the errors found so far. -/
def clearErrors (p : Parser) : Parser :=
  { p with errors := [] }

/-- An upper bound for the number of tokens before the end of the text. -/
def remaining (p : Parser) : Nat :=
  if p.kind = .eof then 0 else 1 + if p.next.kind = .eof then 0 else 1 + p.ahead.length

/-- A token that does not end the text is taken from the ones ahead. -/
theorem pull_ahead_length_lt {ending : Option Ending} {tokens : List Token}
    (h : (pull ending tokens).token.kind ≠ .eof) :
    (pull ending tokens).ahead.length < tokens.length := by
  induction tokens with
  | nil => simp [pull, Ending.token] at h
  | cons token tokens ih =>
    rw [pull] at h ⊢
    split at h <;> rename_i h1
    · rw [if_pos h1]
      have := ih h
      simp
      omega
    · rw [if_neg h1]
      split at h <;> rename_i h2
      · rw [if_pos h2]
        have := ih h
        simp
        omega
      · rw [if_neg h2]
        simp

/-- Moving on leaves fewer tokens, unless the text has ended. -/
theorem advance_remaining_lt {p : Parser} (h : p.kind ≠ .eof) :
    p.advance.remaining < p.remaining := by
  have taken := @pull_ahead_length_lt p.ending p.ahead
  unfold advance remaining
  rw [if_neg h, if_neg h]
  simp only [kind]
  by_cases h1 : p.next.kind = .eof
  · simp only [if_pos h1]
    omega
  · by_cases h2 : (pull p.ending p.ahead).token.kind = .eof
    · simp only [if_neg h1, if_pos h2]
      omega
    · have := taken h2
      simp only [if_neg h1, if_neg h2]
      omega

theorem advance_remaining_le (p : Parser) : p.advance.remaining ≤ p.remaining := by
  by_cases h : p.kind = .eof
  · simp [advance, h]
  · exact Nat.le_of_lt (advance_remaining_lt h)

@[simp]
theorem clearErrors_remaining (p : Parser) : p.clearErrors.remaining = p.remaining := rfl

end Parser

/-- The outcome of a production that starts at `p`: its value, unless it failed, and the parser
behind it. -/
structure Step (p : Parser) (α : Type) where
  value : Option α
  after : Parser
  le : after.remaining ≤ p.remaining

/-- A production at `p` or behind it. -/
abbrev Here (p : Parser) (α : Type) : Type :=
  (q : Parser) → q.remaining ≤ p.remaining → Step q α

/-- A production behind at least one token after `p`. -/
abbrev Later (p : Parser) (α : Type) : Type :=
  (q : Parser) → q.remaining < p.remaining → Step q α

/-- A production at `p` or behind it that is told what was read before. -/
abbrev HereWith (p : Parser) (α β : Type) : Type :=
  (q : Parser) → q.remaining ≤ p.remaining → α → Step q β

/-- A production behind at least one token after `p` that is told what was read before. -/
abbrev LaterWith (p : Parser) (α β : Type) : Type :=
  (q : Parser) → q.remaining < p.remaining → α → Step q β

namespace Step

variable {p q : Parser} {α β : Type}

/-- Nothing is read. -/
def done (p : Parser) (a : α) : Step p α :=
  ⟨some a, p, Nat.le_refl _⟩

/-- A step that started behind `p`, seen from `p`. -/
def within (s : Step q α) (h : q.remaining ≤ p.remaining) : Step p α :=
  ⟨s.value, s.after, Nat.le_trans s.le h⟩

/-- Changes the value. -/
def map (f : α → β) (s : Step p α) : Step p β :=
  ⟨s.value.map f, s.after, s.le⟩

/-- Goes on behind a step, unless it failed. -/
def andThen (s : Step p α) (f : HereWith p α β) : Step p β :=
  match s with
  | ⟨none, q, h⟩ => ⟨none, q, h⟩
  | ⟨some a, q, h⟩ => (f q h a).within h

end Step

/-- Runs a production right there. -/
def Here.run {p : Parser} {α : Type} (f : Here p α) : Step p α :=
  f p (Nat.le_refl _)

/-- A production at a place behind `p`, as one at a place behind `q`. -/
def Here.mono {q p : Parser} {α : Type} (f : Here p α) (h : q.remaining ≤ p.remaining) : Here q α :=
  fun r hr => f r (Nat.le_trans hr h)

/-- What may be called behind a token may be called behind a token further on. -/
def Later.mono {q p : Parser} {α : Type} (f : Later p α) (h : q.remaining ≤ p.remaining) :
    Later q α :=
  fun r hr => f r (Nat.lt_of_lt_of_le hr h)

/-- What may be called behind a token of `p` may be called right there once a token is passed. -/
def Later.here {p q : Parser} {α : Type} (f : Later p α) (h : q.remaining < p.remaining) :
    Here q α :=
  fun r hr => f r (Nat.lt_of_le_of_lt hr h)

namespace Parser

variable {α : Type}

/-- Fails with an error at a position. -/
def failAt (p : Parser) (position : Position) (cause : SyntaxCause) : Step p α :=
  ⟨none, p.reportAt position cause, Nat.le_refl _⟩

/-- Fails with an error at the current token. -/
def fail (p : Parser) (cause : SyntaxCause) : Step p α :=
  p.failAt p.current.position cause

/-- Passes a token of the given kind and goes on behind it, or fails. -/
def expect (p : Parser) (kind : TokenKind) (f : LaterWith p Token α) : Step p α :=
  if h : p.kind = kind ∧ kind ≠ .eof then
    have lt := advance_remaining_lt (h.1 ▸ h.2)
    (f p.advance lt p.current).within (Nat.le_of_lt lt)
  else
    p.fail (.unexpected kind p.kind)

/-- Passes a token of the given kind if it is the current one, and goes on either way. -/
def optional (p : Parser) (kind : TokenKind) (f : HereWith p Bool α) : Step p α :=
  if p.kind = kind then
    (f p.advance p.advance_remaining_le true).within p.advance_remaining_le
  else
    f p (Nat.le_refl _) false

/-- Succeeds only at the end of the text. -/
def expectEnd (p : Parser) (a : α) : Step p α :=
  if p.kind = .eof then Step.done p a else p.fail (.unexpected .eof p.kind)

/-- Passes a name and goes on behind it. -/
def expectName (p : Parser) (f : LaterWith p String α) : Step p α :=
  p.expect .identifier fun q lt token => f q lt (String.ofList token.text)

/-- Reads what follows the first item of a list: commas, each with an item behind it. Where an
item would have to start, `absent` says that there is none. -/
def listRest (p : Parser) (absent : TokenKind → Bool) (item : Here p α) : Step p (List α) :=
  if h : p.kind = .comma then
    have lt : p.advance.remaining < p.remaining := advance_remaining_lt (h ▸ by decide)
    if absent p.advance.kind then
      (p.advance.fail (.unexpectedAny [.identifier] p.advance.kind)).within (Nat.le_of_lt lt)
    else
      ((item p.advance (Nat.le_of_lt lt)).andThen fun q le a =>
        (q.listRest absent (item.mono (Nat.le_trans le (Nat.le_of_lt lt)))).map (a :: ·)).within
          (Nat.le_of_lt lt)
  else
    Step.done p []
termination_by p.remaining

/-- Reads a list of items with commas between them, which is empty if the first is absent. -/
def list (p : Parser) (absent : TokenKind → Bool) (item : Here p α) : Step p (List α) :=
  if absent p.kind then
    Step.done p []
  else
    item.run.andThen fun q le a => (q.listRest absent (item.mono le)).map (a :: ·)

end Parser

end ProcLang
