import ProcLang.Proofs.Grammar.Upcoming

/-!
# What is read was written so

A production that gives a value without an error has read terminals that its rule of the grammar
allows for that value, and one that gives no value has left an error behind (`Step.Sound`). There is
a lemma for every way to put productions together, and one for every production, up to `expr_sound`
and `item_sound`.
-/

namespace ProcLang

open Grammar

variable {p : Parser}

/-- The terminals that a step passes are those of a rule, unless there is an error. -/
structure Step.Sound {p : Parser} {α : Type} (s : Step p α) (rule : Rule α) : Prop where
  onto : p.Onto s.after
  fails : s.value = none → s.after.errors ≠ p.errors
  derives : ∀ {a : α} {scan : Scan}, s.value = some a → s.after.errors = p.errors → p.Of scan →
    ∃ ts, p.upcoming = ts ++ s.after.upcoming ∧ rule ts a

section Steps

variable {p : Parser} {α β : Type} {rule : Rule α} {rule' : Rule β}

theorem Step.Sound.mono {s : Step p α} (h : s.Sound rule) {rule' : Rule α}
    (hrule : ∀ ts a, rule ts a → rule' ts a) : s.Sound rule' where
  onto := h.onto
  fails := h.fails
  derives hvalue herrors hp := by
    obtain ⟨ts, hts, ha⟩ := h.derives hvalue herrors hp
    exact ⟨ts, hts, hrule ts _ ha⟩

theorem sound_done (p : Parser) {a : α} (h : rule [] a) : (Step.done p a).Sound rule where
  onto := .refl p
  fails hvalue := by cases hvalue
  derives := by
    rintro _ _ ⟨⟩ - -
    exact ⟨[], rfl, h⟩

theorem sound_failAt (p : Parser) (position : Position) (cause : SyntaxCause) :
    (p.failAt position cause : Step p α).Sound rule where
  onto := p.reportAt_onto position cause
  fails _ := p.reportAt_errors_ne position cause
  derives hvalue := by cases hvalue

theorem Step.Sound.map {s : Step p α} (h : s.Sound rule) {f : α → β}
    (hf : ∀ ts a, rule ts a → rule' ts (f a)) : (s.map f).Sound rule' where
  onto := h.onto
  fails hnone := h.fails (Option.map_eq_none_iff.mp hnone)
  derives hvalue herrors hp := by
    obtain ⟨a, ha, rfl⟩ := Option.map_eq_some_iff.mp hvalue
    obtain ⟨ts, hts, hrule⟩ := h.derives ha herrors hp
    exact ⟨ts, hts, hf ts a hrule⟩

/-- A step further on, where something was read before it. -/
theorem Step.Sound.within {q : Parser} (front : List Terminal → Prop) (honto : p.Onto q)
    (hread : ∀ {scan : Scan}, q.errors = p.errors → p.Of scan →
      ∃ ts, p.upcoming = ts ++ q.upcoming ∧ front ts)
    {s : Step q α} (h : s.Sound fun us a => ∀ ts, front ts → rule (ts ++ us) a)
    (le : q.remaining ≤ p.remaining) : (s.within le).Sound rule where
  onto := honto.trans h.onto
  fails hnone hsame := h.fails hnone (honto.errors_between h.onto hsame).2
  derives hvalue hsame hp := by
    obtain ⟨hsame1, hsame2⟩ := honto.errors_between h.onto hsame
    obtain ⟨ts, hts, hfront⟩ := hread hsame1 hp
    obtain ⟨us, hus, ha⟩ := h.derives hvalue hsame2 (honto.of hp)
    refine ⟨ts ++ us, ?_, ha ts hfront⟩
    rw [hts, hus, List.append_assoc]
    rfl

/-- A step further on, where something went wrong before it. -/
theorem Step.Sound.failed {q : Parser} (honto : p.Onto q) (herrors : q.errors ≠ p.errors)
    {s : Step q α} (h : s.Sound rule) (le : q.remaining ≤ p.remaining) {rule' : Rule α} :
    (s.within le).Sound rule' :=
  Step.Sound.within (fun _ => False) honto (fun hsame => absurd hsame herrors)
    (h.mono fun _ _ _ _ hfalse => False.elim hfalse) le

/-- A step and what follows it. -/
theorem Step.Sound.andThen {s : Step p α} (h : s.Sound rule) {f : HereWith p α β}
    (hf : ∀ q le a, (f q le a).Sound fun us b => ∀ ts, rule ts a → rule' (ts ++ us) b) :
    (s.andThen f).Sound rule' := by
  obtain ⟨value, q, le⟩ := s
  cases value with
  | none => exact ⟨h.onto, fun _ => h.fails rfl, fun hvalue => by cases hvalue⟩
  | some a => exact Step.Sound.within (rule · a) h.onto (h.derives rfl) (hf q le a) le

/-- A step behind the current token. -/
theorem Step.Sound.behind (hp : p.kind ≠ .eof) {s : Step p.advance α}
    (h : s.Sound fun us a => rule (p.current.terminal :: us) a)
    (le : p.advance.remaining ≤ p.remaining) : (s.within le).Sound rule := by
  refine Step.Sound.within (· = [p.current.terminal]) p.advance_onto
    (fun _ hof => ⟨_, hof.upcoming_advance hp, rfl⟩) (h.mono ?_) le
  rintro us a ha ts rfl
  exact ha

theorem sound_expectToken (p : Parser) {kind : TokenKind} {f : LaterWith p Token α}
    (hf : ∀ q lt token, token.kind = kind →
      (f q lt token).Sound fun us a => rule (token.terminal :: us) a) :
    (p.expect kind f).Sound rule := by
  unfold Parser.expect
  split
  · rename_i h
    exact Step.Sound.behind (h.1 ▸ h.2) (hf _ _ _ h.1) _
  · exact sound_failAt _ _ _

theorem sound_expect (p : Parser) {kind : TokenKind} (hfixed : kind.isFixed = true)
    {f : LaterWith p Token α}
    (hf : ∀ q lt token, (f q lt token).Sound fun us a => rule (.sym kind :: us) a) :
    (p.expect kind f).Sound rule := by
  refine sound_expectToken p fun q lt token hkind => ?_
  rw [Token.terminal_of_fixed hkind hfixed]
  exact hf q lt token

theorem sound_expectName (p : Parser) {f : LaterWith p String α}
    (hf : ∀ q lt name, (f q lt name).Sound fun us a => rule (.name name :: us) a) :
    (p.expectName f).Sound rule := by
  refine sound_expectToken p fun q lt token hkind => ?_
  have hterminal : token.terminal = .name (String.ofList token.text) := by
    rw [Token.terminal, hkind]
  rw [hterminal]
  exact hf q lt _

theorem sound_optional (p : Parser) {kind : TokenKind} (hfixed : kind.isFixed = true)
    (hne : kind ≠ .eof) {f : HereWith p Bool α}
    (hthere : ∀ q le, (f q le true).Sound fun us a => rule (.sym kind :: us) a)
    (habsent : ∀ q le, (f q le false).Sound rule) : (p.optional kind f).Sound rule := by
  unfold Parser.optional
  split
  · rename_i hkind
    refine Step.Sound.behind (hkind ▸ hne) ?_ _
    rw [Token.terminal_of_fixed hkind hfixed]
    exact hthere _ _
  · exact habsent _ _

/-! ## Lists -/

variable {γ : Type} {g : α → γ} {item : Rule γ}

theorem listRest_sound (absent : TokenKind → Bool) : ∀ (p : Parser) (production : Here p α),
    (∀ q le, (production q le).Sound fun ts a => item ts (g a)) →
      (p.listRest absent production).Sound fun us as =>
        ∀ ts a, item ts (g a) → Separated item (ts ++ us) (g a :: as.map g)
  | p, production, hitem => by
    rw [Parser.listRest]
    split
    · rename_i h
      have hne : p.kind ≠ .eof := h ▸ by decide
      have lt : p.advance.remaining < p.remaining := Parser.advance_remaining_lt hne
      dsimp only
      split
      · exact Step.Sound.behind hne (sound_failAt _ _ _) _
      · refine Step.Sound.behind hne ((hitem _ _).andThen fun q le a => ?_) _
        rw [Token.terminal_of_fixed h rfl]
        have hrest := listRest_sound absent q (production.mono (Nat.le_trans le (Nat.le_of_lt lt)))
          fun r hr => hitem r _
        exact hrest.map fun us as hus ts hts ts0 a0 h0 => .more h0 (hus ts a hts)
    · refine sound_done p fun ts a ha => ?_
      rw [List.append_nil]
      exact .one ha
termination_by p => p.remaining

theorem list_sound (absent : TokenKind → Bool) (p : Parser) {production : Here p α}
    (hitem : ∀ q le, (production q le).Sound fun ts a => item ts (g a)) :
    (p.list absent production).Sound fun ts as => Listed item ts (as.map g) := by
  unfold Parser.list
  split
  · exact sound_done p .none
  · refine (hitem p _).andThen fun q le a => ?_
    have hrest := listRest_sound absent q (production.mono le) fun r hr => hitem r _
    exact hrest.map fun us as hus ts hts => .some (hus ts a hts)

theorem separated_sound (p : Parser) {production : Here p α}
    (hitem : ∀ q le, (production q le).Sound fun ts a => item ts (g a)) :
    (p.list (fun _ => false) production).Sound fun ts as => Separated item ts (as.map g) := by
  refine (hitem p _).andThen fun q le a => ?_
  have hrest := listRest_sound (fun _ => false) q (production.mono le) fun r hr => hitem r _
  exact hrest.map fun us as hus ts hts => hus ts a hts

end Steps

/-! ## Expressions -/

section Expressions

variable {rule : Rule Expr}

theorem chainRest_sound (level : Level) : ∀ (p : Parser) {operand : Here p Expr} {lhs : Expr},
    (∀ q le, (operand q le).Sound fun ts e => rule ts e.unlined) →
      (p.chainRest level operand lhs).Sound fun us e =>
        ∃ links, Links level rule us links ∧ e.unlined = joined lhs.unlined links
  | p, operand, lhs, hoperand => by
    rw [Parser.chainRest]
    split
    · exact sound_done p ⟨[], .nil, rfl⟩
    · rename_i op h
      have lt : p.advance.remaining < p.remaining :=
        Parser.advance_remaining_lt (Level.ne_eof_of_op? h)
      have hfixed : p.kind.isFixed = true := Level.isFixed_of_op? h
      refine Step.Sound.behind (Level.ne_eof_of_op? h) ((hoperand _ _).andThen fun q le rhs => ?_) _
      rw [Token.terminal_of_fixed rfl hfixed]
      refine (chainRest_sound level q fun r hr => hoperand r _).mono ?_
      rintro us e ⟨links, hlinks, he⟩ ts hts
      exact ⟨(op, rhs.unlined) :: links, .cons h hts hlinks, he⟩
termination_by p => p.remaining

theorem chain_sound (level : Level) (p : Parser) {operand : Here p Expr}
    (hoperand : ∀ q le, (operand q le).Sound fun ts e => rule ts e.unlined) :
    (p.chain level operand).Sound fun ts e => Chain level rule ts e.unlined := by
  refine (hoperand p _).andThen fun q le lhs => ?_
  refine (chainRest_sound level q fun r hr => hoperand r _).mono ?_
  rintro us e ⟨links, hlinks, he⟩ ts hts
  rw [he]
  exact .intro hts hlinks

theorem negation_sound (p : Parser) {operand : Here p Expr}
    (hoperand : ∀ q le, (operand q le).Sound fun ts e => rule ts e.unlined) :
    (p.negation operand).Sound fun ts e => Negation rule ts e.unlined := by
  unfold Parser.negation
  split
  · rename_i h
    refine Step.Sound.behind (h ▸ by decide) ((hoperand _ _).map fun ts e he => ?_) _
    rw [Token.terminal_of_fixed h rfl]
    exact .not he
  · exact (hoperand p _).mono fun ts e he => .plain he

theorem number_sound (p : Parser) (negated : Bool) (hkind : p.kind = .integer ∨ p.kind = .float) :
    (p.number negated).Sound (IsNumber negated) := by
  have hne : p.kind ≠ .eof := by rcases hkind with h | h <;> rw [h] <;> decide
  unfold Parser.number
  dsimp only
  split
  · rename_i value hvalue
    exact Step.Sound.behind hne (sound_done _ ((numberValue?_eq_some hkind).mp hvalue)) _
  · exact Step.Sound.behind hne (sound_failAt _ _ _) _

theorem literal_sound (p : Parser) {value : Literal} (hne : p.kind ≠ .eof)
    (h : Factor rule [p.current.terminal] (.literal value 0 none)) :
    (p.literal value).Sound fun ts e => Factor rule ts e.unlined := by
  refine Step.Sound.behind hne ?_ _
  exact sound_done p.advance h

section Operands

variable (p : Parser) {expr : Later p Expr}
  (hexpr : ∀ q lt, (expr q lt).Sound fun ts e => rule ts e.unlined)

include hexpr

theorem place_sound (negated : Bool) :
    (p.place negated expr).Sound fun ts x => IsPlace rule negated ts x.unlined := by
  refine sound_expectName p fun q lt name => ?_
  split
  · refine sound_expect q rfl fun r _ _ => (hexpr r _).andThen fun s _ index => ?_
    refine sound_expect s rfl fun t _ _ => sound_done t fun ts hts => ?_
    exact .element hts
  · exact sound_done q .whole

theorem call_sound :
    (p.call expr).Sound fun ts e => IsCall rule ts e.unlined := by
  refine sound_expectName p fun q lt callee => sound_expect q rfl fun r ltr _ => ?_
  refine (list_sound _ r fun s _ => hexpr s _).andThen fun s _ args => ?_
  refine sound_expect s rfl fun t _ _ => sound_done t fun ts hts => ?_
  rw [Expr.unlined, argsUnlined_eq_map]
  exact .intro hts

theorem signed_sound (line : Nat) :
    (p.signed line expr).Sound fun ts e => Factor rule (.sym .minus :: ts) e.unlined := by
  unfold Parser.signed
  split
  · exact (place_sound p hexpr true).map fun ts place hplace => .minusRead hplace
  · rename_i h
    exact (number_sound p true (Or.inl h)).map fun ts value hvalue => .minusNumber hvalue
  · rename_i h
    exact (number_sound p true (Or.inr h)).map fun ts value hvalue => .minusNumber hvalue
  · exact sound_failAt _ _ _

theorem factor_sound :
    (p.factor expr).Sound fun ts e => Factor rule ts e.unlined := by
  have number : p.kind = .integer ∨ p.kind = .float →
      ((p.number false).map fun value => Expr.literal value p.line none).Sound
        fun ts e => Factor rule ts e.unlined :=
    fun h => (number_sound p false h).map fun ts value hvalue => .number hvalue
  unfold Parser.factor
  split
  · refine sound_expect p rfl fun q lt _ => (hexpr q lt).andThen fun r _ inner => ?_
    exact sound_expect r rfl fun s _ _ => sound_done s fun ts hts => .paren hts
  · split
    · exact (call_sound p hexpr).mono fun ts e he => .call he
    · exact (place_sound p hexpr false).map fun ts place hplace => .read hplace
  · rename_i h
    refine Step.Sound.behind (h ▸ by decide) ?_ _
    rw [Token.terminal_of_fixed h rfl]
    exact signed_sound p.advance (fun q lt => hexpr q _) p.line
  · rename_i h
    exact number (Or.inl h)
  · rename_i h
    exact number (Or.inr h)
  · rename_i h
    refine literal_sound p (h ▸ by decide) ?_
    have hterminal : p.current.terminal =
        .string (String.ofList (Literal.stringValue p.current.text)) := by
      rw [Token.terminal, show p.current.kind = .string from h]
    rw [hterminal]
    exact .string
  · rename_i h
    refine literal_sound p (h ▸ by decide) ?_
    rw [Token.terminal_of_fixed h rfl]
    exact .true
  · rename_i h
    refine literal_sound p (h ▸ by decide) ?_
    rw [Token.terminal_of_fixed h rfl]
    exact .false
  · exact sound_failAt _ _ _

end Operands

/-- **Expressions** are read as the grammar has them. -/
theorem expr_sound : ∀ p : Parser, p.expr.Sound fun ts e => IsExpr ts e.unlined
  | p => by
    rw [Parser.expr]
    refine (chain_sound .logic p fun q hq => negation_sound q fun r hr => ?_).mono
      fun ts e he => .intro he
    refine chain_sound .sum r fun s hs => chain_sound .relation s fun t ht => ?_
    refine chain_sound .product t fun u hu => factor_sound u fun v hv => ?_
    have : v.remaining < p.remaining := by omega
    exact expr_sound v
termination_by p => p.remaining

end Expressions

/-! ## Declarations -/

/-- A step behind an integer, which may not fit. -/
theorem sound_expectInteger {α : Type} {rule : Rule α} (p : Parser) {f : LaterWith p Token α}
    (hnone : ∀ q lt token, Literal.integerValue? token.text = none →
      (f q lt token).Sound fun us a => rule (token.terminal :: us) a)
    (hsome : ∀ q lt token n, Literal.integerValue? token.text = some n →
      n < 0x8000000000000000 → (f q lt token).Sound fun us a => rule (.integer n :: us) a) :
    (p.expect .integer f).Sound rule := by
  refine sound_expectToken p fun q lt token hkind => ?_
  cases hvalue : Literal.integerValue? token.text with
  | none => exact hnone q lt token hvalue
  | some n =>
    obtain ⟨rfl, hlt⟩ := integerValue?_eq_some.mp hvalue
    rw [Token.terminal_integer hkind]
    exact hsome q lt token _ hvalue hlt

theorem bound_sound (p : Parser) : p.bound.Sound IsBound := by
  unfold Parser.bound
  split
  · refine sound_expect p rfl fun q _ _ => ?_
    refine sound_optional q rfl (by decide) (fun r _ => ?_) fun r _ => ?_
    · refine sound_expectInteger r (fun s _ token hn => ?_) fun s _ token n hn hlt => ?_ <;> rw [hn]
      · exact sound_failAt _ _ _
      · exact sound_expect s rfl fun t _ _ => sound_done t (.negative hlt)
    · refine sound_expectInteger r (fun s _ token hn => ?_) fun s _ token n hn hlt => ?_ <;> rw [hn]
      · exact sound_failAt _ _ _
      · exact sound_expect s rfl fun t _ _ => sound_done t (.some hlt)
  · exact sound_done p .none

theorem typeMark_sound (p : Parser) : p.typeMark.Sound IsMark := by
  unfold Parser.typeMark
  split
  · rename_i ty hty
    obtain ⟨hne, hfixed⟩ := TokenKind.of_type? hty
    refine Step.Sound.behind hne (sound_done _ ?_) _
    rw [Token.terminal_of_fixed rfl hfixed]
    exact .builtin hty
  · split
    · exact sound_expectName p fun q _ name => sound_done q .named
    · refine sound_expect p rfl fun q _ _ => sound_expect q rfl fun r _ _ => ?_
      have names : ∀ s : Parser, s.remaining ≤ r.remaining →
          (s.expectName fun t _ name => Step.done t name).Sound fun ts x => IsName ts (id x) :=
        fun s _ => sound_expectName s fun t _ name => sound_done t .intro
      refine (separated_sound r names).andThen fun s _ variants => ?_
      refine sound_expect s rfl fun t _ _ => sound_done t fun ts hts => ?_
      rw [List.map_id] at hts
      exact .enum hts
    · exact sound_failAt _ _ _

theorem longVariable_sound (p : Parser) (isGlobal : Bool) :
    (p.longVariable isGlobal).Sound fun ts decl => IsVariable isGlobal ts decl.unlined := by
  refine sound_expect p rfl fun q _ token => sound_expectName q fun r _ name => ?_
  refine sound_expect r rfl fun s _ _ => (typeMark_sound s).andThen fun t _ mark => ?_
  exact (bound_sound t).map fun us bound hus ts hts => .long hts hus

theorem shortVariable_sound (p : Parser) {ty : Ty} (hty : p.kind.type? = some ty)
    (isGlobal : Bool) :
    (p.shortVariable ty isGlobal).Sound fun ts decl => IsVariable isGlobal ts decl.unlined := by
  obtain ⟨hne, hfixed⟩ := TokenKind.of_type? hty
  refine Step.Sound.behind hne ?_ _
  rw [Token.terminal_of_fixed rfl hfixed]
  refine sound_expectName _ fun q _ name => ?_
  exact (bound_sound q).map fun us bound hus => .short hty hus

theorem parameter_sound (p : Parser) :
    p.parameter.Sound fun ts decl => IsVariable false ts decl.unlined := by
  unfold Parser.parameter
  split
  · rename_i ty hty
    exact shortVariable_sound p hty false
  · exact longVariable_sound p false

/-! ## Items of a section -/

/-- The parser behind what was skipped. -/
def Recovery.after {p : Parser} : Recovery p → Parser
  | .resumed q _ | .ended q _ => q

theorem recover_onto : ∀ p : Parser, p.Onto p.recover.after
  | p => by
    rw [Parser.recover]
    split
    · exact .refl p
    · rename_i h
      have lt := Parser.advance_remaining_lt h
      have rest := recover_onto p.advance
      dsimp only
      split
      · exact p.advance_onto
      · cases hrec : p.advance.recover with
        | resumed q ltq | ended q ltq =>
          rw [hrec] at rest
          exact p.advance_onto.trans rest
termination_by p => p.remaining

/-- What an item with its semicolon is that was read or skipped. -/
def Item.Sound {p : Parser} (rule : Rule Stmt) : Item p → Prop
  | .parsed stmt q _ => p.Onto q ∧ ∀ {scan : Scan}, q.errors = p.errors → p.Of scan →
      ∃ ts, p.upcoming = ts ++ .sym .semicolon :: q.upcoming ∧ rule ts stmt
  | .skipped q _ | .ended q _ => p.Onto q ∧ q.errors ≠ p.errors

theorem skip_sound {rule : Rule Stmt} {q : Parser} (le : q.remaining ≤ p.remaining) (h : p.Onto q)
    (herrors : q.errors ≠ p.errors) : (Step.item.skip q le).Sound rule := by
  have hrec := recover_onto q
  unfold Step.item.skip
  cases hq : q.recover with
  | resumed r lt | ended r lt =>
    rw [hq] at hrec
    exact ⟨h.trans hrec, fun hsame => herrors (h.errors_between hrec hsame).1⟩

theorem Step.Sound.item {rule : Rule Stmt} {s : Step p Stmt} (h : s.Sound rule) :
    s.item.Sound rule := by
  obtain ⟨value, q, le⟩ := s
  unfold Step.item
  cases value with
  | none => exact skip_sound le h.onto (h.fails rfl)
  | some stmt =>
    dsimp only
    split
    · rename_i hkind
      refine ⟨h.onto.trans q.advance_onto, fun hsame hp => ?_⟩
      obtain ⟨hsame1, -⟩ := h.onto.errors_between q.advance_onto hsame
      obtain ⟨ts, hts, hstmt⟩ := h.derives rfl hsame1 hp
      refine ⟨ts, ?_, hstmt⟩
      rw [hts, (h.onto.of hp).upcoming_advance (hkind ▸ by decide),
        Token.terminal_of_fixed hkind rfl]
    · refine skip_sound _ (h.onto.trans (q.reportAt_onto _ _)) fun hsame => ?_
      exact q.reportAt_errors_ne _ _ (h.onto.errors_between (q.reportAt_onto _ _) hsame).2

/-- A step behind an item and its semicolon. -/
theorem Step.Sound.behindItem {q : Parser} {stmt : Stmt} {rule : Rule Stmt} (honto : p.Onto q)
    (hread : ∀ {scan : Scan}, q.errors = p.errors → p.Of scan →
      ∃ ts, p.upcoming = ts ++ .sym .semicolon :: q.upcoming ∧ rule ts stmt.unlined)
    {rule' : Rule (List Stmt)} {s : Step q (List Stmt)}
    (h : s.Sound fun us stmts => ∀ ts, rule ts stmt.unlined →
      rule' (ts ++ .sym .semicolon :: us) stmts) (le : q.remaining ≤ p.remaining) :
    (s.within le).Sound rule' := by
  refine Step.Sound.within
    (fun ts => ∃ us, ts = us ++ [.sym .semicolon] ∧ rule us stmt.unlined) honto
    (fun hsame hp => ?_) (h.mono ?_) le
  · obtain ⟨ts, hts, hstmt⟩ := hread hsame hp
    exact ⟨ts ++ [.sym .semicolon], by rw [hts, List.append_assoc]; rfl, ts, rfl, hstmt⟩
  · rintro us stmts hus _ ⟨ts, rfl, hts⟩
    rw [List.append_assoc]
    exact hus ts hts

theorem block_sound {rule : Rule Stmt} (stops : List TokenKind) :
    ∀ (p : Parser) (item : Here p Stmt),
      (∀ q le, (item q le).Sound fun ts stmt => rule ts stmt.unlined) →
        (p.block stops item).Sound fun ts stmts => Repeated rule ts (stmts.map Stmt.unlined)
  | p, item, hitem => by
    rw [Parser.block]
    split
    · exact sound_done p .nil
    · split
      · exact sound_failAt _ _ _
      · have hfirst : item.run.item.Sound _ := (hitem p (Nat.le_refl _)).item
        cases hrun : item.run.item with
        | parsed stmt q lt =>
          rw [hrun] at hfirst
          obtain ⟨honto, hread⟩ := hfirst
          have rest := block_sound stops q (item.mono (Nat.le_of_lt lt)) fun r hr => hitem r _
          exact Step.Sound.behindItem honto hread
            (rest.map fun us stmts hus ts hts => .cons hts hus) _
        | skipped q lt =>
          rw [hrun] at hfirst
          exact Step.Sound.failed hfirst.1 hfirst.2
            (block_sound stops q (item.mono (Nat.le_of_lt lt)) fun r hr => hitem r _) _
        | ended q le =>
          rw [hrun] at hfirst
          have hfail : (q.fail .endOfInput).Sound fun _ (_ : List Stmt) => True :=
            sound_failAt _ _ _
          exact Step.Sound.failed hfirst.1 hfirst.2 hfail _
termination_by p => p.remaining

/-! ## Declarations and statements -/

section Statements

variable {rule : Section → Rule Stmt}

theorem assignment_sound (p : Parser) :
    p.assignment.Sound fun ts r => IsAssignment ts (r.1.unlined, r.2.unlined) := by
  refine (place_sound p (fun q _ => expr_sound q) false).andThen fun q _ dest => ?_
  refine sound_expect q rfl fun r _ _ => (expr_sound r).map fun us value hus ts hts => ?_
  exact .intro hts hus

theorem alternative_sound (q : Parser) (item : Later p Stmt) (lt : q.remaining < p.remaining)
    (hitem : ∀ q lt, (item q lt).Sound fun ts stmt => rule .statements ts stmt.unlined) :
    (Parser.branch.alternative p q item lt).Sound fun ts no =>
      Alternative rule ts (no.map (·.map Stmt.unlined)) := by
  unfold Parser.branch.alternative
  split
  · refine sound_expect q rfl fun r hr _ => ?_
    refine (block_sound _ r _ fun s hs => hitem s _).map fun ts no hno => ?_
    exact .some hno
  · exact sound_done q .none

variable (p : Parser) {item : Section → Later p Stmt}
  (hitem : ∀ part q lt, (item part q lt).Sound fun ts stmt => rule part ts stmt.unlined)

include hitem

theorem procedure_sound (isGlobal : Bool) (line : Nat) :
    (p.procedure isGlobal line item).Sound fun ts stmt =>
      Declared rule isGlobal ts stmt.unlined := by
  refine sound_expect p rfl fun q lt _ => sound_expectName q fun r hr name => ?_
  refine sound_expect r rfl fun s hs _ => (typeMark_sound s).andThen fun t ht result => ?_
  refine sound_expect t rfl fun u hu _ => ?_
  refine (list_sound _ u fun v _ => parameter_sound v).andThen fun v hv params => ?_
  refine sound_expect v rfl fun w hw _ => ?_
  refine (block_sound _ w _ fun x hx => hitem _ x _).andThen fun x hx locals => ?_
  refine sound_expect x rfl fun y hy _ => ?_
  refine (block_sound _ y _ fun z hz => hitem _ z _).andThen fun z hz body => ?_
  refine sound_expect z rfl fun z' _ _ => sound_expect z' rfl fun z'' _ _ => ?_
  refine sound_done z'' fun ws hws vs hvs us hus ts hts => ?_
  rw [Stmt.unlined, Heading.unlined, blockUnlined_eq_map, List.map_append]
  have hproc : Declared rule isGlobal _ _ := .procedure (x := name) hts hus hvs hws
  simpa only [List.cons_append, List.append_assoc] using hproc

theorem declarationRest_sound (isGlobal : Bool) (line : Nat) :
    (p.declarationRest isGlobal line item).Sound fun ts stmt =>
      Declared rule isGlobal ts stmt.unlined := by
  unfold Parser.declarationRest
  split
  · rename_i ty hty
    exact (shortVariable_sound p hty isGlobal).map fun ts decl hdecl => .variable hdecl
  · split
    · exact procedure_sound p hitem isGlobal line
    · exact (longVariable_sound p isGlobal).map fun ts decl hdecl => .variable hdecl
    · refine sound_expect p rfl fun q _ _ => sound_expectName q fun r _ name => ?_
      refine sound_expect r rfl fun s _ _ => (typeMark_sound s).map fun ts mark hmark => ?_
      exact .type hmark
    · exact sound_failAt _ _ _

theorem declaration_sound :
    (p.declaration item).Sound fun ts stmt => Declaration rule ts stmt.unlined := by
  refine sound_optional p rfl (by decide) (fun q le => ?_) fun q le => ?_
  · exact (declarationRest_sound q (fun part r lt => hitem part r _) true p.line).mono
      fun ts stmt h => .global h
  · exact (declarationRest_sound q (fun part r lt => hitem part r _) false p.line).mono
      fun ts stmt h => .inner h

theorem branch_sound :
    (p.branch item).Sound fun ts stmt => Statement rule ts stmt.unlined := by
  refine sound_expect p rfl fun q lt _ => sound_expect q rfl fun r hr _ => ?_
  refine (expr_sound r).andThen fun s hs cond => sound_expect s rfl fun t ht _ => ?_
  refine sound_expect t rfl fun u hu _ => ?_
  refine (block_sound _ u _ fun v hv => hitem _ v _).andThen fun v hv yes => ?_
  refine (alternative_sound v _ _ (hitem .statements)).andThen fun w _ no => ?_
  refine sound_expect w rfl fun x _ _ => sound_expect x rfl fun y _ _ => ?_
  refine sound_done y fun vs hvs us hus ts hts => ?_
  rw [Stmt.unlined_branch]
  have hbranch : Statement rule _ _ := .branch hts hus hvs
  simpa only [List.cons_append, List.append_assoc] using hbranch

theorem loop_sound :
    (p.loop item).Sound fun ts stmt => Statement rule ts stmt.unlined := by
  refine sound_expect p rfl fun q lt _ => sound_expect q rfl fun r hr _ => ?_
  refine (assignment_sound r).andThen fun s hs assigned => ?_
  refine sound_expect s rfl fun t ht _ => (expr_sound t).andThen fun u hu cond => ?_
  refine sound_expect u rfl fun v hv _ => ?_
  refine (block_sound _ v _ fun w hw => hitem _ w _).andThen fun w hw body => ?_
  refine sound_expect w rfl fun x _ _ => sound_expect x rfl fun y _ _ => ?_
  refine sound_done y fun vs hvs us hus ts hts => ?_
  rw [Stmt.unlined, blockUnlined_eq_map]
  have hloop : Statement rule _ _ := .loop hts hus hvs
  simpa only [List.cons_append, List.append_assoc] using hloop

theorem statement_sound :
    (p.statement item).Sound fun ts stmt => Statement rule ts stmt.unlined := by
  have declaration : (p.declaration item).Sound fun ts stmt => Statement rule ts stmt.unlined :=
    (declaration_sound p hitem).mono fun ts stmt h => .declaration h
  unfold Parser.statement
  split
  · exact branch_sound p hitem
  · exact loop_sound p hitem
  · refine sound_expect p rfl fun q _ _ => (expr_sound q).map fun ts value hvalue => ?_
    exact .result hvalue
  · split
    · exact (call_sound p fun q _ => expr_sound q).map fun ts call hcall => .call hcall
    · exact (assignment_sound p).map fun ts assigned hassigned => .assign hassigned
  iterate 8 exact declaration
  exact sound_failAt _ _ _

end Statements

/-- **Items of a section** are read as the grammar has them. -/
theorem item_sound : ∀ (part : Section) (p : Parser),
    (p.item part).Sound fun ts stmt => IsItem part ts stmt.unlined
  | .declarations, p => by
    rw [Parser.item]
    refine (declaration_sound p fun part q lt => item_sound part q).mono fun ts stmt h => ?_
    exact .declaration h
  | .statements, p => by
    rw [Parser.item]
    refine (statement_sound p fun part q lt => item_sound part q).mono fun ts stmt h => ?_
    exact .statement h
termination_by _ p => p.remaining

end ProcLang
