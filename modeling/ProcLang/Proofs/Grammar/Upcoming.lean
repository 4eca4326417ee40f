import ProcLang.Proofs.Grammar

/-!
# What a parser has in front of it

The grammar speaks of lists of terminals, and a parser stands somewhere among the tokens of a text.
The two meet in `Parser.upcoming`, the terminals in front of the parser: moving on takes one off the
front. `Parser.Of` says what holds of every parser for a scan without end tokens in it. Besides the
tokens it knows of the stretches that are not tokens: as long as there is no error, none was passed.
-/

namespace ProcLang

open Grammar

/-- Whether the grammar sees tokens of the kind. -/
def TokenKind.isSeen (kind : TokenKind) : Bool :=
  !kind.isTrivia && !kind.isError && kind != .eof

variable {t : Token} {kind : TokenKind}

theorem TokenKind.isError_of_isTrivia (h : kind.isTrivia = true) : kind.isError = false := by
  cases kind <;> first | rfl | cases h

/-- Whether tokens of the kind stand for nothing but their kind. -/
def TokenKind.isFixed : TokenKind → Bool
  | .identifier | .integer | .float | .string => false
  | _ => true

theorem Level.isFixed_of_op? {level : Level} {op : BinaryOp} (h : level.op? kind = some op) :
    kind.isFixed = true := by
  cases level <;> unfold op? at h <;> split at h <;> simp_all [TokenKind.isFixed]

theorem TokenKind.of_type? {ty : Ty} (h : kind.type? = some ty) :
    kind ≠ .eof ∧ kind.isFixed = true := by
  unfold type? at h
  split at h <;> simp_all [isFixed]

theorem Token.terminal_kind (t : Token) : t.terminal.kind = t.kind := by
  unfold terminal
  split <;> simp_all [Terminal.kind]

theorem Token.terminal_of_fixed (h : t.kind = kind) (hfixed : kind.isFixed = true) :
    t.terminal = .sym kind := by
  subst h
  unfold terminal
  split
  case h_5 => rfl
  all_goals
    rename_i hkind
    rw [hkind] at hfixed
    cases hfixed

theorem Token.terminal_integer (h : t.kind = .integer) :
    t.terminal = .integer (Literal.digitsValue t.text) := by
  rw [terminal, h]

theorem Token.terminal_float (h : t.kind = .float) :
    t.terminal = .float (Literal.floatValue t.text) := by
  rw [terminal, h]

theorem integerValue?_eq_some {text : List Char} {n : Nat} :
    Literal.integerValue? text = some n ↔
      n = Literal.digitsValue text ∧ n < 0x8000000000000000 := by
  unfold Literal.integerValue? Literal.integerMax
  dsimp only
  rw [Option.ite_none_right_eq_some, Option.some.injEq]
  omega

/-- The numbers of expressions are those that fit. -/
theorem numberValue?_eq_some (h : t.kind = .integer ∨ t.kind = .float) {negated : Bool}
    {value : Literal} :
    Parser.numberValue? negated t = some value ↔ IsNumber negated [t.terminal] value := by
  rcases h with h | h
  · rw [Token.terminal_integer h, Parser.numberValue?, if_neg (by rw [h]; decide)]
    simp only [Option.bind_eq_some_iff, integerValue?_eq_some, Option.ite_none_right_eq_some,
      Option.some.injEq, Parser.inLiteralRange, decide_eq_true_eq]
    generalize Literal.digitsValue t.text = n
    cases negated with
    | false =>
      simp only [Bool.false_eq_true, if_false]
      constructor
      · rintro ⟨_, ⟨rfl, -⟩, hrange, rfl⟩
        exact .integer (by omega)
      · rintro ⟨hn⟩
        exact ⟨n, ⟨rfl, by omega⟩, by omega, rfl⟩
    | true =>
      simp only [if_true]
      constructor
      · rintro ⟨_, ⟨rfl, -⟩, hrange, rfl⟩
        exact .negative (by omega)
      · rintro ⟨hn⟩
        exact ⟨n, ⟨rfl, by omega⟩, by omega, rfl⟩
  · rw [Token.terminal_float h, Parser.numberValue?, if_pos h]
    cases negated with
    | false =>
      refine ⟨?_, ?_⟩ <;> rintro ⟨⟩
      · exact .float
      · rfl
    | true =>
      refine ⟨?_, ?_⟩ <;> rintro ⟨⟩
      · exact .negativeFloat
      · rfl

/-- What the grammar sees of tokens. -/
def terminals (tokens : List Token) : List Terminal :=
  (tokens.filter (·.kind.isSeen)).map Token.terminal

theorem terminals_cons_seen (h : t.kind.isSeen = true) (tokens : List Token) :
    terminals (t :: tokens) = t.terminal :: terminals tokens := by
  simp [terminals, h]

theorem terminals_cons_unseen (h : t.kind.isSeen = false) (tokens : List Token) :
    terminals (t :: tokens) = terminals tokens := by
  simp [terminals, h]

/-- The kind of the first terminal, or of the end. -/
def firstKind : List Terminal → TokenKind
  | [] => .eof
  | t :: _ => t.kind

/-! ## Taking a token -/

/-- What a token is that was taken from tokens without an end token. -/
structure Pulled.Fits (pulled : Pulled) (ending : Option Ending) (tokens : List Token) : Prop where
  passed : ∃ passed, tokens = passed ++ pulled.ahead ∧
    (pulled.errors = [] ↔ ∀ t ∈ passed, t.kind.isError = false)
  terminals : terminals (pulled.token :: pulled.ahead) = terminals tokens
  token : pulled.token.kind = .eof ∨ pulled.token.kind.isSeen = true
  last : pulled.token.kind = .eof → pulled.ahead = [] ∧ pulled.cutShort = ending.isNone
  whole : pulled.cutShort = true → ending = none

theorem Pulled.Fits.cons {pulled : Pulled} {ending : Option Ending} {tokens : List Token}
    (h : pulled.Fits ending tokens) (ht : t.kind.isSeen = false) {errors : List SyntaxError}
    (herrors : errors = [] ↔ t.kind.isError = false ∧ pulled.errors = []) :
    { pulled with errors }.Fits ending (t :: tokens) where
  passed := by
    obtain ⟨passed, hsplit, hpassed⟩ := h.passed
    refine ⟨t :: passed, by rw [hsplit]; rfl, ?_⟩
    rw [herrors, hpassed, List.forall_mem_cons]
  terminals := (h.terminals).trans (terminals_cons_unseen ht tokens).symm
  token := h.token
  last := h.last
  whole := h.whole

theorem pull_fits (ending : Option Ending) : ∀ {tokens : List Token},
    (∀ t ∈ tokens, t.kind ≠ .eof) → (Parser.pull ending tokens).Fits ending tokens
  | [], _ => by
    refine ⟨⟨[], rfl, by simp [Parser.pull]⟩, ?_, Or.inl rfl, fun _ => ⟨rfl, rfl⟩, fun h => ?_⟩
    · exact terminals_cons_unseen rfl []
    · exact Option.isNone_iff_eq_none.mp h
  | t :: tokens, h => by
    have rest := pull_fits ending fun t ht => h t (List.mem_cons_of_mem _ ht)
    have heof := h t List.mem_cons_self
    unfold Parser.pull
    cases htrivia : t.kind.isTrivia with
    | true =>
      have herror := TokenKind.isError_of_isTrivia htrivia
      exact rest.cons (by simp [TokenKind.isSeen, htrivia]) (by simp [herror])
    | false =>
      cases herror : t.kind.isError with
      | true => exact rest.cons (by simp [TokenKind.isSeen, herror]) (by simp [herror])
      | false =>
        have hseen : t.kind.isSeen = true := by simp [TokenKind.isSeen, htrivia, herror, heof]
        refine ⟨⟨[t], rfl, by simp [herror]⟩, rfl, Or.inr hseen, fun hend => ?_, ?_⟩
        · exact absurd hend heof
        · simp

/-! ## Parsers of a scan -/

namespace Parser

/-- The terminals in front of a parser. -/
def upcoming (p : Parser) : List Terminal :=
  terminals (p.current :: p.next :: p.ahead)

/-- What holds of every parser for a scan without end tokens in it. -/
structure Of (p : Parser) (s : Scan) : Prop where
  current : p.kind = .eof ∨ p.kind.isSeen = true
  next : p.next.kind = .eof ∨ p.next.kind.isSeen = true
  ended : p.kind = .eof → p.next.kind = .eof
  last : p.next.kind = .eof → p.ahead = []
  unbroken : ∀ t ∈ s.tokens, t.kind ≠ .eof
  /-- As long as there is no error, only tokens were passed. -/
  passed : ∃ passed, s.tokens = passed ++ p.ahead ∧
    (p.errors = [] → ∀ t ∈ passed, t.kind.isError = false)
  ending : p.ending = s.ending
  /-- At the end of the text the parser knows whether a count did not fit. -/
  cut : p.next.kind = .eof → p.ending = none → p.cutShort = true
  whole : p.cutShort = true → p.ending = none

variable {p q : Parser} {s : Scan}

theorem Of.ahead (h : p.Of s) : ∀ t ∈ p.ahead, t.kind ≠ .eof := by
  obtain ⟨passed, hsplit, -⟩ := h.passed
  intro t ht
  exact h.unbroken t (hsplit ▸ List.mem_append_right _ ht)

theorem Of.pull (h : p.Of s) : (Parser.pull p.ending p.ahead).Fits p.ending p.ahead :=
  pull_fits p.ending h.ahead

/-- At the end of the text nothing is in front of a parser. -/
theorem Of.upcoming_end (h : p.Of s) (hp : p.kind = .eof) : p.upcoming = [] := by
  have hnext := h.ended hp
  rw [upcoming, h.last hnext, terminals_cons_unseen (by rw [← kind, hp]; rfl),
    terminals_cons_unseen (by rw [hnext]; rfl)]
  rfl

/-- **Moving on takes a terminal off the front.** -/
theorem Of.upcoming_advance (h : p.Of s) (hp : p.kind ≠ .eof) :
    p.upcoming = p.current.terminal :: p.advance.upcoming := by
  have hpull : terminals (p.next :: (Parser.pull p.ending p.ahead).token ::
      (Parser.pull p.ending p.ahead).ahead) = terminals (p.next :: p.ahead) := by
    rcases h.next with hnext | hnext
    · have hunseen : p.next.kind.isSeen = false := by rw [hnext]; rfl
      rw [terminals_cons_unseen hunseen, terminals_cons_unseen hunseen, h.pull.terminals]
    · rw [terminals_cons_seen hnext, terminals_cons_seen hnext, h.pull.terminals]
  have hadvance : p.advance.upcoming = terminals (p.next :: p.ahead) := by
    rw [upcoming, advance, if_neg hp]
    exact hpull
  rw [upcoming, terminals_cons_seen (h.current.resolve_left hp), hadvance]

theorem Of.firstKind_upcoming (h : p.Of s) : firstKind p.upcoming = p.kind := by
  by_cases hp : p.kind = .eof
  · rw [h.upcoming_end hp, hp]
    rfl
  · rw [h.upcoming_advance hp]
    exact Token.terminal_kind _

/-- The token behind the current one. -/
theorem Of.kind_advance (h : p.Of s) : p.advance.kind = p.next.kind := by
  by_cases hp : p.kind = .eof
  · rw [advance, if_pos hp, hp, h.ended hp]
  · rw [advance, if_neg hp]
    rfl

theorem Of.advance (h : p.Of s) : p.advance.Of s := by
  by_cases hp : p.kind = .eof
  · rwa [Parser.advance, if_pos hp]
  · have hpull := h.pull
    rw [Parser.advance, if_neg hp]
    exact
      { current := h.next
        next := hpull.token
        ended := fun hend => by
          have hahead := h.last hend
          dsimp only
          rw [hahead]
          rfl
        last := fun hend => (hpull.last hend).1
        unbroken := h.unbroken
        passed := by
          obtain ⟨passed, hsplit, hpassed⟩ := h.passed
          obtain ⟨more, hmore, herrors⟩ := hpull.passed
          refine ⟨passed ++ more, by rw [hsplit, List.append_assoc, ← hmore], fun hnone => ?_⟩
          rw [List.append_eq_nil_iff] at hnone
          exact List.forall_mem_append.mpr ⟨hpassed hnone.1, herrors.mp hnone.2⟩
        ending := h.ending
        cut := fun hend hnone => by
          dsimp only at hnone
          have hcut := (hpull.last hend).2
          rw [hnone] at hcut
          simp [hnone, hcut]
        whole := fun hcut => by
          rw [Bool.or_eq_true] at hcut
          exact hcut.elim h.whole hpull.whole }

theorem Of.reportAt (h : p.Of s) (position : Position) (cause : SyntaxCause) :
    (p.reportAt position cause).Of s :=
  { h with
    passed := by
      obtain ⟨passed, hsplit, -⟩ := h.passed
      exact ⟨passed, hsplit, fun hnone => absurd hnone (by simp [Parser.reportAt])⟩ }

/-! ## Where a parser can get to -/

/-- The parser `q` is one that `p` can get to: it stands in the same text, and has the errors of `p`
and perhaps more. -/
structure Onto (p q : Parser) : Prop where
  errors : p.errors <+: q.errors
  of : ∀ {s : Scan}, p.Of s → q.Of s

theorem Onto.refl (p : Parser) : p.Onto p :=
  ⟨List.prefix_rfl, id⟩

theorem Onto.trans {r : Parser} (h1 : p.Onto q) (h2 : q.Onto r) : p.Onto r :=
  ⟨h1.errors.trans h2.errors, fun h => h2.of (h1.of h)⟩

/-- If no errors are added on a way, none are added on its parts. -/
theorem Onto.errors_between {r : Parser} (h1 : p.Onto q) (h2 : q.Onto r)
    (h : r.errors = p.errors) : q.errors = p.errors ∧ r.errors = q.errors := by
  have hle := h2.errors.length_le
  rw [h] at hle
  have hq : q.errors = p.errors := (h1.errors.eq_of_length_le hle).symm
  exact ⟨hq, h.trans hq.symm⟩

theorem advance_onto (p : Parser) : p.Onto p.advance := by
  refine ⟨?_, fun h => h.advance⟩
  unfold advance
  split
  · exact List.prefix_rfl
  · exact List.prefix_append _ _

theorem reportAt_onto (p : Parser) (position : Position) (cause : SyntaxCause) :
    p.Onto (p.reportAt position cause) :=
  ⟨List.prefix_append _ _, fun h => h.reportAt position cause⟩

theorem reportAt_errors_ne (p : Parser) (position : Position) (cause : SyntaxCause) :
    (p.reportAt position cause).errors ≠ p.errors := by
  simp [reportAt]

/-! ## The start of a text -/

variable (h : ∀ t ∈ s.tokens, t.kind ≠ .eof)

include h

theorem ofScan_of : (ofScan s).Of s := by
  have first := pull_fits s.ending h
  obtain ⟨passed, hsplit, hpassed⟩ := first.passed
  have second := pull_fits s.ending fun t ht => h t (hsplit ▸ List.mem_append_right _ ht)
  obtain ⟨more, hmore, herrors⟩ := second.passed
  exact
    { current := first.token
      next := second.token
      ended := fun hend => by
        have hahead := (first.last hend).1
        dsimp only [ofScan]
        rw [hahead]
        rfl
      last := fun hend => (second.last hend).1
      unbroken := h
      passed := by
        refine ⟨passed ++ more, ?_, fun hnone => ?_⟩
        · rw [List.append_assoc]
          exact hsplit.trans (congrArg _ hmore)
        · obtain ⟨hnone1, hnone2⟩ := List.append_eq_nil_iff.mp hnone
          exact List.forall_mem_append.mpr ⟨hpassed.mp hnone1, herrors.mp hnone2⟩
      ending := rfl
      cut := fun hend hnone => by
        have hcut := (second.last hend).2
        dsimp only [ofScan] at hnone ⊢
        rw [hcut, hnone]
        simp
      whole := fun hcut => by
        rcases Bool.or_eq_true _ _ ▸ hcut with hcut | hcut
        · exact first.whole hcut
        · exact second.whole hcut }

theorem ofScan_upcoming : (ofScan s).upcoming = terminals s.tokens := by
  have first := pull_fits s.ending h
  obtain ⟨passed, hsplit, -⟩ := first.passed
  have second := pull_fits s.ending fun t ht => h t (hsplit ▸ List.mem_append_right _ ht)
  rw [← first.terminals]
  rcases first.token with hend | hseen
  · have hunseen : (pull s.ending s.tokens).token.kind.isSeen = false := by rw [hend]; rfl
    rw [terminals_cons_unseen hunseen, ← second.terminals]
    exact terminals_cons_unseen hunseen _
  · rw [terminals_cons_seen hseen, ← second.terminals]
    exact terminals_cons_seen hseen _

theorem ofScan_errors (herror : ∀ t ∈ s.tokens, t.kind.isError = false) :
    (ofScan s).errors = [] := by
  have first := pull_fits s.ending h
  obtain ⟨passed, hsplit, hpassed⟩ := first.passed
  obtain ⟨more, hmore, herrors⟩ :=
    (pull_fits s.ending fun t ht => h t (hsplit ▸ List.mem_append_right _ ht)).passed
  rw [hsplit, List.forall_mem_append] at herror
  rw [hmore, List.forall_mem_append] at herror
  exact List.append_eq_nil_iff.mpr ⟨hpassed.mpr herror.1, herrors.mpr herror.2.1⟩

end Parser

end ProcLang
