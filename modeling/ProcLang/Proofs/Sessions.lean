import ProcLang.Proofs.Grammar.Sound
import ProcLang.Proofs.Twins.Items

/-!
# Sessions

A parser is used by asking it for one thing after another: the heading, an expression, the next item
of a section, the place behind the next semicolon, the errors found so far. A `Session` is a parser
in such a use, together with the errors that were taken out of it. All that is done to the parser
meanwhile is that it moves on and that errors are recorded, so what these keep holds throughout
(`Session.run_kept`).

`Parser.left` are the tokens that a parser can still pass. Whatever it is asked for, it takes some
of them off the front (`Parser.Leads`).
-/

namespace ProcLang

/-- The parser behind the next item, whatever became of it. -/
def Next.after {p : Parser} : Next p → Parser
  | .item _ q _ | .recovered q _ | .finished q _ | .ended q _ => q

/-! ## What is kept -/

namespace Parser.Kept

variable {I : Parser → Prop} (h : Parser.Kept I) {p : Parser} (hp : I p)

include h hp

theorem header : I p.header.after :=
  (h.twins.header ⟨rfl, hp⟩).after.2

theorem expr : I p.expr.after :=
  (h.twins.expr ⟨rfl, hp⟩).after.2

theorem recover : I p.recover.after := by
  have hrecover := h.twins.recover ⟨rfl, hp⟩
  cases hread : p.recover with
  | resumed q lt | ended q le =>
    rw [hread] at hrecover
    exact hrecover.2

theorem nextItem (part : Section) : I (p.nextItem part).after := by
  have hnext := h.twins.nextItem part ⟨rfl, hp⟩
  cases hread : p.nextItem part with
  | item stmt q lt =>
    rw [hread] at hnext
    exact hnext.2.2
  | recovered q lt | finished q le | ended q le =>
    rw [hread] at hnext
    exact hnext.2

end Parser.Kept

/-- What a parser can be asked for. -/
inductive Parser.Action where
  | header
  | expr
  | next (part : Section)
  | recover
  | takeErrors
deriving DecidableEq

/-- A parser in use, and the errors that were taken out of it, in order. -/
structure Session where
  parser : Parser
  taken : List SyntaxError

namespace Session

/-- Asks the parser for something. -/
def act (s : Session) : Parser.Action → Session
  | .header => { s with parser := s.parser.header.after }
  | .expr => { s with parser := s.parser.expr.after }
  | .next part => { s with parser := (s.parser.nextItem part).after }
  | .recover => { s with parser := s.parser.recover.after }
  | .takeErrors => ⟨s.parser.clearErrors, s.taken ++ s.parser.errors⟩

/-- A session over a source text. -/
def run (tabWidth : Nat) (source : String) (actions : List Parser.Action) : Session :=
  actions.foldl act ⟨.ofString tabWidth source, []⟩

/-- **What is kept holds throughout a session**, if it does not depend on which of the errors were
taken out already. -/
theorem run_kept {I : List SyntaxError → Parser → Prop} (hkept : ∀ taken, Parser.Kept (I taken))
    (htake : ∀ {taken p}, I taken p → I (taken ++ p.errors) p.clearErrors) {tabWidth : Nat}
    {source : String} (hstart : I [] (.ofString tabWidth source)) (actions : List Parser.Action) :
    I (run tabWidth source actions).taken (run tabWidth source actions).parser := by
  have hact : ∀ (s : Session) (action : Parser.Action), I s.taken s.parser →
      I (s.act action).taken (s.act action).parser := by
    intro s action hs
    cases action with
    | header => exact (hkept _).header hs
    | expr => exact (hkept _).expr hs
    | next part => exact (hkept _).nextItem hs part
    | recover => exact (hkept _).recover hs
    | takeErrors => exact htake hs
  have hfold : ∀ s : Session, I s.taken s.parser →
      I (actions.foldl act s).taken (actions.foldl act s).parser := by
    induction actions with
    | nil => exact fun s hs => hs
    | cons action actions ih => exact fun s hs => ih _ (hact s action hs)
  exact hfold _ hstart

end Session

/-! ## Tokens that are left -/

/-- The tokens up to the first end token, without trivia and errors. -/
def upToEnd (tokens : List Token) : List Token :=
  (tokens.takeWhile (·.kind != .eof)).filter (·.kind.isSeen)

section UpToEnd

variable {t : Token} (tokens : List Token)

theorem upToEnd_cons_end (h : t.kind = .eof) : upToEnd (t :: tokens) = [] := by
  simp [upToEnd, h]

theorem upToEnd_cons_seen (h : t.kind.isSeen = true) :
    upToEnd (t :: tokens) = t :: upToEnd tokens := by
  have hne : t.kind ≠ .eof := by
    rintro heof
    rw [heof] at h
    cases h
  simp [upToEnd, h, hne]

theorem upToEnd_cons_unseen (h : t.kind.isSeen = false) (hne : t.kind ≠ .eof) :
    upToEnd (t :: tokens) = upToEnd tokens := by
  simp [upToEnd, h, hne]

theorem isSeen_of_mem_upToEnd {tokens : List Token} (h : t ∈ upToEnd tokens) :
    t.kind.isSeen = true :=
  (List.mem_filter.mp h).2

end UpToEnd

/-- Whether tokens of the kind are taken from a scan, and not passed over as trivia or errors. -/
def TokenKind.isTaken (kind : TokenKind) : Bool :=
  !kind.isTrivia && !kind.isError

theorem TokenKind.isSeen_of_isTaken {kind : TokenKind} (h : kind.isTaken = true)
    (hne : kind ≠ .eof) : kind.isSeen = true :=
  Bool.and_eq_true_iff.mpr ⟨h, bne_iff_ne.mpr hne⟩

theorem pull_isTaken (ending : Option Ending) (tokens : List Token) :
    (Parser.pull ending tokens).token.kind.isTaken = true := by
  induction tokens with
  | nil => rfl
  | cons t tokens ih =>
    rw [Parser.pull]
    split
    · exact ih
    · split
      · exact ih
      · rename_i htrivia herror
        simp [TokenKind.isTaken, htrivia, herror]

/-- Taking a token leaves the tokens as they are, but for what is passed over. -/
theorem pull_upToEnd (ending : Option Ending) (tokens : List Token) :
    upToEnd ((Parser.pull ending tokens).token :: (Parser.pull ending tokens).ahead) =
      upToEnd tokens := by
  induction tokens with
  | nil => exact upToEnd_cons_end _ rfl
  | cons t tokens ih =>
    have passed : t.kind.isTrivia = true ∨ t.kind.isError = true →
        upToEnd (t :: tokens) = upToEnd tokens := by
      intro h
      refine upToEnd_cons_unseen _ ?_ ?_
      · rcases h with h | h <;> simp [TokenKind.isSeen, h]
      · rintro heof
        rw [heof] at h
        rcases h with h | h <;> cases h
    rw [Parser.pull]
    split
    · rename_i htrivia
      exact ih.trans (passed (Or.inl htrivia)).symm
    · split
      · rename_i herror
        exact ih.trans (passed (Or.inr herror)).symm
      · rfl

namespace Parser

variable {p q : Parser}

/-- The tokens that a parser can still pass: those in front of it up to the first end token, without
trivia and errors. -/
def left (p : Parser) : List Token :=
  upToEnd (p.current :: p.next :: p.ahead)

/-- The tokens that a parser sees are neither trivia nor errors. -/
structure Ready (p : Parser) : Prop where
  current : p.kind.isTaken = true
  next : p.next.kind.isTaken = true

theorem ofScan_ready (s : Scan) : (ofScan s).Ready :=
  ⟨pull_isTaken _ _, pull_isTaken _ _⟩

theorem left_of_end (h : p.kind = .eof) : p.left = [] :=
  upToEnd_cons_end _ h

/-- **Moving on takes a token off the front.** -/
theorem Ready.left_advance (h : p.Ready) (hne : p.kind ≠ .eof) :
    p.left = p.current :: p.advance.left := by
  have hpull : upToEnd (p.next :: (pull p.ending p.ahead).token :: (pull p.ending p.ahead).ahead) =
      upToEnd (p.next :: p.ahead) := by
    by_cases hend : p.next.kind = .eof
    · rw [upToEnd_cons_end _ hend, upToEnd_cons_end _ hend]
    · have hseen := TokenKind.isSeen_of_isTaken h.next hend
      rw [upToEnd_cons_seen _ hseen, upToEnd_cons_seen _ hseen, pull_upToEnd]
  rw [left, upToEnd_cons_seen _ (TokenKind.isSeen_of_isTaken h.current hne), left, advance,
    if_neg hne]
  exact congrArg _ hpull.symm

theorem ready_kept : Kept Ready where
  advance {p} h := by
    unfold Parser.advance
    split
    · exact h
    · exact ⟨h.next, pull_isTaken _ _⟩
  report _ _ _ h := ⟨h.current, h.next⟩

theorem Ready.left_eq_nil (h : p.Ready) : p.left = [] ↔ p.kind = .eof := by
  refine ⟨fun hnil => ?_, left_of_end⟩
  refine Decidable.byContradiction fun hne => ?_
  rw [h.left_advance hne] at hnil
  cases hnil

theorem Ready.of_left_cons (h : p.Ready) {t : Token} {ts : List Token} (hleft : p.left = t :: ts) :
    p.kind ≠ .eof ∧ p.current = t ∧ p.advance.left = ts := by
  have hne : p.kind ≠ .eof := fun hend => by
    rw [left_of_end hend] at hleft
    cases hleft
  rw [h.left_advance hne] at hleft
  exact ⟨hne, List.cons.inj hleft⟩

/-- The kind of the current token is that of the first one left. -/
theorem Ready.kind_eq (h : p.Ready) : p.kind = firstKind (p.left.map Token.terminal) := by
  by_cases hend : p.kind = .eof
  · rw [left_of_end hend, hend]
    rfl
  · rw [h.left_advance hend]
    exact (Token.terminal_kind _).symm

theorem Ready.next_kind (h : p.Ready) {t : Token} {ts : List Token} (hleft : p.left = t :: ts) :
    p.next.kind = firstKind (ts.map Token.terminal) := by
  obtain ⟨hne, -, rfl⟩ := h.of_left_cons hleft
  rw [← (ready_kept.advance h).kind_eq, advance, if_neg hne]
  rfl

/-! ## Where a parser gets to -/

/-- The parser `q` is `p` after it has moved on over some of the tokens left, and perhaps recorded
errors. -/
structure Leads (p q : Parser) : Prop where
  ready : q.Ready
  left : q.left <:+ p.left
  /-- If no token was passed, the parser stands where it did. -/
  still : q.left = p.left → q.remaining = p.remaining
  errors : p.errors <+: q.errors

theorem Ready.leads (h : p.Ready) : p.Leads p :=
  ⟨h, List.suffix_rfl, fun _ => rfl, List.prefix_rfl⟩

theorem leads_kept (p : Parser) : Kept p.Leads where
  advance {q} h := by
    by_cases hend : q.kind = .eof
    · rwa [Parser.advance, if_pos hend]
    · have hleft := h.ready.left_advance hend
      have hsuffix : q.advance.left <:+ q.left := hleft ▸ List.suffix_cons _ _
      refine ⟨ready_kept.advance h.ready, hsuffix.trans h.left, fun hsame => ?_,
        h.errors.trans q.advance_onto.errors⟩
      -- One token fewer cannot be as many as before.
      have hle := h.left.length_le
      rw [hleft, ← hsame, List.length_cons] at hle
      omega
  report position _ _ h :=
    ⟨⟨h.ready.current, h.ready.next⟩, h.left, h.still, h.errors.trans (List.prefix_append _ _)⟩

/-- If the bound of what remains has gone down, a token was passed. -/
theorem Leads.length_lt (h : p.Leads q) (hlt : q.remaining < p.remaining) :
    q.left.length < p.left.length := by
  rcases Nat.lt_or_ge q.left.length p.left.length with hless | hge
  · exact hless
  · have hsame := h.still (h.left.eq_of_length_le hge)
    omega

end Parser

/-- **Throughout a session** the parser sees neither trivia nor errors. -/
theorem Session.run_ready (tabWidth : Nat) (source : String) (actions : List Parser.Action) :
    (run tabWidth source actions).parser.Ready :=
  run_kept (I := fun _ p => p.Ready) (fun _ => Parser.ready_kept) (fun h => ⟨h.current, h.next⟩)
    (Parser.ofScan_ready _) actions

end ProcLang
