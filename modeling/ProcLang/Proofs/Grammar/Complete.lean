import ProcLang.Proofs.Grammar.Upcoming

/-!
# What is written so is read

In front of terminals that a rule of the grammar allows, a production reads them and gives the tree
that they stand for, without an error (`Step.Complete`). It has to stop where the rule does, so the
terminal behind must not be one that could belong to what is read: a production comes with the kinds
of token that may follow it. There is a lemma for every production, up to `expr_complete` and
`item_complete`.
-/

namespace ProcLang

open Grammar

variable {scan : Scan} {p : Parser} {ts us rest : List Terminal}

/-- A parser stands in front of terminals, in a text without errors. -/
structure Parser.Faces (p : Parser) (scan : Scan) (ts : List Terminal) : Prop where
  of : p.Of scan
  clean : ∀ t ∈ scan.tokens, t.kind.isError = false
  upcoming : p.upcoming = ts

namespace Parser.Faces

variable {t : Terminal}

theorem kind_eq (h : p.Faces scan ts) : p.kind = firstKind ts := by
  rw [← h.of.firstKind_upcoming, h.upcoming]

theorem kind_ne_eof (h : p.Faces scan (t :: ts)) : p.kind ≠ .eof := by
  intro hend
  have hnil := h.of.upcoming_end hend
  rw [h.upcoming] at hnil
  cases hnil

theorem terminal (h : p.Faces scan (t :: ts)) : p.current.terminal = t := by
  have hcons := h.of.upcoming_advance h.kind_ne_eof
  rw [h.upcoming] at hcons
  exact (List.cons.inj hcons).1.symm

theorem advance (h : p.Faces scan (t :: ts)) : p.advance.Faces scan ts := by
  have hcons := h.of.upcoming_advance h.kind_ne_eof
  rw [h.upcoming] at hcons
  exact ⟨h.of.advance, h.clean, (List.cons.inj hcons).2.symm⟩

theorem next_kind (h : p.Faces scan (t :: ts)) : p.next.kind = firstKind ts := by
  rw [← h.of.kind_advance, h.advance.kind_eq]

/-- No error is found where there is none. -/
theorem advance_errors (h : p.Faces scan ts) : p.advance.errors = p.errors := by
  unfold Parser.advance
  split
  · rfl
  · obtain ⟨passed, hsplit, -⟩ := h.of.passed
    obtain ⟨more, hmore, herrors⟩ := h.of.pull.passed
    have hnone : (pull p.ending p.ahead).errors = [] := by
      refine herrors.mpr fun t ht => h.clean t ?_
      rw [hsplit, hmore]
      exact List.mem_append_right _ (List.mem_append_left _ ht)
    dsimp only
    rw [hnone, List.append_nil]

end Parser.Faces

/-- A step gives a value and stands in front of the rest, without an error. -/
def Step.Reads {p : Parser} {α : Type} (s : Step p α) (scan : Scan) (fine : α → Prop)
    (rest : List Terminal) : Prop :=
  ∃ a, s.value = some a ∧ fine a ∧ s.after.Faces scan rest ∧ s.after.errors = p.errors

/-- A step reads what a rule allows, if what stands behind it may follow. -/
def Step.Complete {p : Parser} {α β : Type} (s : Step p α) (scan : Scan) (rule : Rule β)
    (erase : α → β) (follow : TokenKind → Prop) : Prop :=
  ∀ ⦃ts rest : List Terminal⦄ ⦃b : β⦄, p.Faces scan (ts ++ rest) → rule ts b →
    follow (firstKind rest) → s.Reads scan (fun a => erase a = b) rest

variable {kind : TokenKind} {x : String}

section Steps

variable {α β : Type} {fine : α → Prop} {fine' : β → Prop}

theorem reads_done (h : p.Faces scan rest) {a : α} (ha : fine a) :
    (Step.done p a).Reads scan fine rest :=
  ⟨a, rfl, ha, h, rfl⟩

theorem Step.Reads.map {s : Step p α} (h : s.Reads scan fine rest) {f : α → β}
    (hf : ∀ a, fine a → fine' (f a)) : (s.map f).Reads scan fine' rest := by
  obtain ⟨a, hvalue, ha, hafter, herrors⟩ := h
  exact ⟨f a, by rw [Step.map, hvalue]; rfl, hf a ha, hafter, herrors⟩

theorem Step.Reads.within {q : Parser} (hq : q.errors = p.errors) {s : Step q α}
    (h : s.Reads scan fine rest) (le : q.remaining ≤ p.remaining) :
    (s.within le).Reads scan fine rest := by
  obtain ⟨a, hvalue, ha, hafter, herrors⟩ := h
  exact ⟨a, hvalue, ha, hafter, herrors.trans hq⟩

theorem Step.Reads.andThen {s : Step p α} (h : s.Reads scan fine ts) {f : HereWith p α β}
    (hf : ∀ q le a, q.Faces scan ts → fine a → (f q le a).Reads scan fine' rest) :
    (s.andThen f).Reads scan fine' rest := by
  obtain ⟨value, q, le⟩ := s
  obtain ⟨a, rfl, ha, hafter, herrors⟩ := h
  exact (hf q le a hafter ha).within herrors le

/-- A step behind the current token. -/
theorem Step.Reads.behind {t : Terminal} (h : p.Faces scan (t :: ts)) {s : Step p.advance α}
    (hs : p.advance.Faces scan ts → s.Reads scan fine rest)
    (le : p.advance.remaining ≤ p.remaining) : (s.within le).Reads scan fine rest :=
  (hs h.advance).within h.advance_errors le

theorem Parser.Faces.expectToken {t : Terminal} (h : p.Faces scan (t :: ts))
    {f : LaterWith p Token α} (hf : ∀ q lt token, q.Faces scan ts → token.terminal = t →
      (f q lt token).Reads scan fine rest) : (p.expect t.kind f).Reads scan fine rest := by
  have hkind : p.kind = t.kind := h.kind_eq
  unfold Parser.expect
  rw [dif_pos ⟨hkind, hkind ▸ h.kind_ne_eof⟩]
  exact Step.Reads.behind h (fun hq => hf _ _ _ hq h.terminal) _

theorem Parser.Faces.expect (h : p.Faces scan (.sym kind :: ts)) {f : LaterWith p Token α}
    (hf : ∀ q lt token, q.Faces scan ts → (f q lt token).Reads scan fine rest) :
    (p.expect kind f).Reads scan fine rest :=
  Parser.Faces.expectToken h fun q lt token hq _ => hf q lt token hq

theorem Token.text_of_name {t : Token} (h : t.terminal = .name x) : String.ofList t.text = x := by
  unfold terminal at h
  split at h <;> cases h
  rfl

theorem Token.value_of_string {t : Token} (h : t.terminal = .string x) :
    String.ofList (Literal.stringValue t.text) = x := by
  unfold terminal at h
  split at h <;> cases h
  rfl

theorem Parser.Faces.expectName (h : p.Faces scan (.name x :: ts)) {f : LaterWith p String α}
    (hf : ∀ q lt, q.Faces scan ts → (f q lt x).Reads scan fine rest) :
    (p.expectName f).Reads scan fine rest :=
  Parser.Faces.expectToken h fun q lt token hq hname => by
    rw [Token.text_of_name hname]
    exact hf q lt hq

theorem Parser.Faces.optional_there (h : p.Faces scan (.sym kind :: ts)) {f : HereWith p Bool α}
    (hf : ∀ q le, q.Faces scan ts → (f q le true).Reads scan fine rest) :
    (p.optional kind f).Reads scan fine rest := by
  unfold Parser.optional
  rw [if_pos (show p.kind = kind from h.kind_eq)]
  exact Step.Reads.behind h (hf _ _) _

theorem Parser.Faces.optional_absent (h : p.Faces scan ts) (hne : firstKind ts ≠ kind)
    {f : HereWith p Bool α} (hf : ∀ q le, q.Faces scan ts → (f q le false).Reads scan fine rest) :
    (p.optional kind f).Reads scan fine rest := by
  unfold Parser.optional
  rw [if_neg (h.kind_eq ▸ hne)]
  exact hf _ _ h

end Steps

/-! ## How rules begin -/

namespace Grammar

/-- What a rule allows begins with a token of one of the given kinds. -/
def Starts {α : Type} (rule : Rule α) (kinds : List TokenKind) : Prop :=
  ∀ ⦃ts : List Terminal⦄ ⦃a : α⦄, rule ts a → ∀ rest, firstKind (ts ++ rest) ∈ kinds

/-- The kinds of token that an operand of the tightest level begins with. -/
def factorKinds : List TokenKind :=
  [.lParen, .identifier, .minus, .integer, .float, .string, .kwTrue, .kwFalse]

/-- The kinds of token that a variable begins with. -/
def variableKinds : List TokenKind :=
  [.kwVariable, .kwInteger, .kwFloat, .kwString, .kwBool]

/-- The kinds of token that a declaration begins with, behind `global`. -/
def declaredKinds : List TokenKind :=
  .kwProcedure :: .kwType :: variableKinds

/-- The kinds of token that a statement begins with. -/
def statementKinds : List TokenKind :=
  .identifier :: .kwReturn :: .kwIf :: .kwFor :: .kwGlobal :: declaredKinds

section Starts

variable {α : Type} {item : Rule α} {rule : Rule Expr} {kinds : List TokenKind}

theorem separated_starts (h : Starts item kinds) : Starts (Separated item) kinds := by
  intro ts as hts rest
  cases hts with
  | one ha => exact h ha rest
  | more ha _ =>
    rw [List.append_assoc]
    exact h ha _

theorem chain_starts {level : Level} (h : Starts rule kinds) : Starts (Chain level rule) kinds := by
  rintro ts e ⟨hfirst, -⟩ rest
  rw [List.append_assoc]
  exact h hfirst _

theorem negation_starts (h : Starts rule kinds) : Starts (Negation rule) (.kwNot :: kinds) := by
  intro ts e he rest
  cases he with
  | plain he => exact List.mem_cons_of_mem _ (h he rest)
  | not _ => exact List.mem_cons_self

theorem factor_starts : Starts (Factor rule) factorKinds := by
  intro ts e he rest
  cases he with
  | call h =>
    obtain ⟨-⟩ := h
    exact List.mem_of_elem_eq_true rfl
  | read h | number h => cases h <;> exact List.mem_of_elem_eq_true rfl
  | _ => exact List.mem_of_elem_eq_true rfl

/-- The levels of operators between a factor and `not` begin as factors do. -/
theorem sum_starts :
    Starts (Chain .sum (Chain .relation (Chain .product (Factor rule)))) factorKinds :=
  chain_starts (chain_starts (chain_starts factor_starts))

theorem expr_starts : Starts IsExpr (.kwNot :: factorKinds) := by
  rintro ts e ⟨he⟩ rest
  exact chain_starts (negation_starts sum_starts) he rest

theorem type?_mem {ty : Ty} (h : kind.type? = some ty) : kind ∈ variableKinds := by
  unfold TokenKind.type? at h
  split at h <;> first | exact List.mem_of_elem_eq_true rfl | cases h

theorem variable_starts {isGlobal : Bool} : Starts (IsVariable isGlobal) variableKinds := by
  intro ts decl hdecl rest
  cases hdecl with
  | long _ _ => exact List.mem_cons_self
  | short hty _ => exact type?_mem hty

variable {items : Section → Rule Stmt}

theorem declared_starts {isGlobal : Bool} : Starts (Declared items isGlobal) declaredKinds := by
  intro ts stmt hstmt rest
  cases hstmt with
  | «variable» h => exact List.mem_cons_of_mem _ (List.mem_cons_of_mem _ (variable_starts h rest))
  | type _ | procedure _ _ _ _ => exact List.mem_of_elem_eq_true rfl

theorem declaration_starts : Starts (Declaration items) (.kwGlobal :: declaredKinds) := by
  intro ts stmt hstmt rest
  cases hstmt with
  | inner h => exact List.mem_cons_of_mem _ (declared_starts h rest)
  | global _ => exact List.mem_cons_self

theorem statement_starts : Starts (Statement items) statementKinds := by
  intro ts stmt hstmt rest
  cases hstmt with
  | assign h =>
    obtain ⟨hplace, -⟩ := h
    cases hplace <;> exact List.mem_of_elem_eq_true rfl
  | declaration h => exact List.mem_append_right [_, _, _, _] (declaration_starts h rest)
  | call h =>
    obtain ⟨-⟩ := h
    exact List.mem_of_elem_eq_true rfl
  | _ => exact List.mem_of_elem_eq_true rfl

theorem item_starts (part : Section) : Starts (IsItem part) statementKinds := by
  intro ts stmt hstmt rest
  cases hstmt with
  | declaration h => exact List.mem_append_right [_, _, _, _] (declaration_starts h rest)
  | statement h => exact statement_starts h rest

end Starts

end Grammar

/-! ## Lists -/

section Lists

variable {α γ : Type} {g : α → γ} {item : Rule γ} {kinds : List TokenKind}
  {follow : TokenKind → Prop} {absent : TokenKind → Bool}

theorem separated_reads (hstarts : Starts item kinds)
    (habsent : ∀ kind ∈ kinds, absent kind = false) (hcomma : follow .comma) {bs : List γ}
    (h : Separated item ts bs) :
    ∀ {p : Parser} {rest : List Terminal} (production : Here p α),
      (∀ q le, (production q le).Complete scan item g follow) → p.Faces scan (ts ++ rest) →
      follow (firstKind rest) → firstKind rest ≠ .comma →
      (production.run.andThen fun q le a =>
        (q.listRest absent (production.mono le)).map (a :: ·)).Reads scan
          (fun as => as.map g = bs) rest := by
  -- The derivation takes one item off the front, as the parser does, and the production moves on
  -- with the parser.
  induction h with
  | one hts =>
    intro p rest production hitem hp hrest hne
    refine (hitem p _ hp hts hrest).andThen fun q le a hq ha => ?_
    rw [Parser.listRest, dif_neg (hq.kind_eq ▸ hne)]
    exact reads_done hq (by rw [List.map_cons, ha]; rfl)
  | more hts hus ih =>
    intro p rest production hitem hp hrest hne
    rw [List.append_assoc] at hp
    refine (hitem p _ hp hts hcomma).andThen fun q le a hq ha => ?_
    have hkind : q.kind = .comma := hq.kind_eq
    have hpresent : absent q.advance.kind = false := by
      rw [hq.advance.kind_eq]
      exact habsent _ (separated_starts hstarts hus rest)
    rw [Parser.listRest, dif_pos hkind]
    dsimp only
    rw [if_neg (Bool.eq_false_iff.mp hpresent)]
    have hrest := Step.Reads.behind hq
      (fun hq' => ih (production.mono (Nat.le_trans q.advance_remaining_le le))
        (fun r hr => hitem r _) hq' hrest hne) q.advance_remaining_le
    exact hrest.map fun as has => by rw [List.map_cons, ha, has]

/-- A list that may be empty, up to a token of the kind that closes it. -/
theorem list_complete (hstarts : Starts item kinds)
    (habsent : ∀ kind ∈ kinds, absent kind = false) (hcomma : follow .comma) (close : TokenKind)
    (hclose : absent close = true ∧ follow close ∧ close ≠ .comma) (p : Parser)
    (production : Here p α) (hitem : ∀ q le, (production q le).Complete scan item g follow) :
    (p.list absent production).Complete scan (Listed item) (List.map g) (· = close) := by
  intro ts rest bs hp hts hrest
  unfold Parser.list
  cases hts with
  | none =>
    rw [if_pos (by rw [hp.kind_eq, List.nil_append, hrest]; exact hclose.1)]
    exact reads_done hp rfl
  | some hts =>
    have hpresent : absent p.kind = false := by
      rw [hp.kind_eq]
      exact habsent _ (separated_starts hstarts hts rest)
    rw [if_neg (Bool.eq_false_iff.mp hpresent)]
    exact separated_reads hstarts habsent hcomma hts production hitem hp (hrest ▸ hclose.2.1)
      (hrest ▸ hclose.2.2)

end Lists

/-! ## Expressions -/

/-- Whether a token of the kind may follow what has no operators of the given levels outside
parentheses. -/
def Ends (levels : List Level) (kind : TokenKind) : Prop :=
  kind ≠ .lBracket ∧ kind ≠ .lParen ∧ ∀ level ∈ levels, level.op? kind = none

instance (levels : List Level) (kind : TokenKind) : Decidable (Ends levels kind) :=
  inferInstanceAs (Decidable (_ ∧ _ ∧ _))

/-- Whether a token of the kind may follow an expression. -/
abbrev EndsExpr : TokenKind → Prop :=
  Ends [.logic, .sum, .relation, .product]

section Expressions

variable {rule : Rule Expr} {level : Level} {levels : List Level}

theorem Ends.tail (h : Ends (level :: levels) kind) : Ends levels kind :=
  ⟨h.1, h.2.1, fun tighter htighter => h.2.2 tighter (List.mem_cons_of_mem _ htighter)⟩

/-- A token is an operator of one level only. -/
theorem Level.eq_of_op? {other : Level} {op op' : BinaryOp} (h : level.op? kind = some op)
    (h' : other.op? kind = some op') : other = level := by
  unfold op? at h
  split at h <;> cases h <;> cases other <;> first | rfl | cases h'

theorem ends_of_op? {op : BinaryOp} (h : level.op? kind = some op) (hlevel : level ∉ levels) :
    Ends levels kind := by
  refine ⟨?_, ?_, fun other hother => ?_⟩
  · rintro rfl
    cases level <;> cases h
  · rintro rfl
    cases level <;> cases h
  · refine Option.eq_none_iff_forall_ne_some.mpr fun op' h' => ?_
    exact hlevel (Level.eq_of_op? h h' ▸ hother)

/-- What follows an operand of a level: an operator of the level, or what follows the whole. -/
theorem links_follow {links : List (BinaryOp × Expr)} (h : Links level rule us links)
    (hlevel : level ∉ levels) (hrest : Ends (level :: levels) (firstKind rest)) :
    Ends levels (firstKind (us ++ rest)) := by
  cases h with
  | nil => exact hrest.tail
  | cons hop _ _ => exact ends_of_op? hop hlevel

theorem chainRest_reads (hlevel : level ∉ levels) {links : List (BinaryOp × Expr)}
    (h : Links level rule us links) :
    ∀ {p : Parser} {rest : List Terminal} (operand : Here p Expr) (lhs : Expr),
      (∀ q le, (operand q le).Complete scan rule Expr.unlined (Ends levels)) →
      p.Faces scan (us ++ rest) → Ends (level :: levels) (firstKind rest) →
      (p.chainRest level operand lhs).Reads scan (·.unlined = joined lhs.unlined links) rest := by
  -- What was read so far is the left operand of the next operator, so it varies in the induction.
  induction h with
  | nil =>
    intro p rest operand lhs _ hp hrest
    have hop : level.op? p.kind = none := by
      rw [hp.kind_eq]
      exact hrest.2.2 level List.mem_cons_self
    rw [Parser.chainRest]
    split
    · exact reads_done hp rfl
    · rename_i hsome
      rw [hop] at hsome
      cases hsome
  | @cons kind op ts us e links hop hts hus ih =>
    intro p rest operand lhs hoperand hp hrest
    rw [List.append_assoc] at hp
    have hkind : p.kind = kind := hp.kind_eq
    rw [Parser.chainRest]
    split
    · rename_i hnone
      rw [hkind, hop] at hnone
      cases hnone
    · rename_i op' hsome
      rw [hkind, hop] at hsome
      cases hsome
      refine Step.Reads.behind hp (fun hq => ?_) _
      have hfollow := links_follow hus hlevel hrest
      refine (hoperand _ _ hq hts hfollow).andThen fun q le rhs hq' hrhs => ?_
      have hrest' := ih (operand.mono (Nat.le_trans le p.advance_remaining_le))
        (.binary op lhs rhs lhs.line none) (fun r hr => hoperand r _) hq' hrest
      rw [Expr.unlined, hrhs] at hrest'
      exact hrest'

theorem chain_complete (hlevel : level ∉ levels) (p : Parser) {operand : Here p Expr}
    (hoperand : ∀ q le, (operand q le).Complete scan rule Expr.unlined (Ends levels)) :
    (p.chain level operand).Complete scan (Chain level rule) Expr.unlined
      (Ends (level :: levels)) := by
  rintro ts rest e hp ⟨hfirst, hlinks⟩ hrest
  rw [List.append_assoc] at hp
  have hfollow := links_follow hlinks hlevel hrest
  refine (hoperand p _ hp hfirst hfollow).andThen fun q le lhs hq hlhs => ?_
  subst hlhs
  exact chainRest_reads hlevel hlinks (operand.mono le) lhs (fun r hr => hoperand r _) hq hrest

theorem negation_complete {kinds : List TokenKind} (hstarts : Starts rule kinds)
    (hnot : .kwNot ∉ kinds) {follow : TokenKind → Prop} (p : Parser) {operand : Here p Expr}
    (hoperand : ∀ q le, (operand q le).Complete scan rule Expr.unlined follow) :
    (p.negation operand).Complete scan (Negation rule) Expr.unlined follow := by
  intro ts rest e hp he hrest
  unfold Parser.negation
  cases he with
  | plain he =>
    have hkind : p.kind ≠ .kwNot := fun hkind => hnot (hkind ▸ hp.kind_eq ▸ hstarts he rest)
    rw [if_neg hkind]
    exact hoperand p _ hp he hrest
  | not he =>
    rw [if_pos (show p.kind = .kwNot from hp.kind_eq)]
    refine Step.Reads.behind hp (fun hq => ?_) _
    exact (hoperand _ _ hq he hrest).map fun a ha => by rw [Expr.unlined, ha]

theorem number_kind {negated : Bool} {value : Literal} (h : IsNumber negated ts value) :
    ∃ t : Terminal, ts = [t] ∧ (t.kind = .integer ∨ t.kind = .float) := by
  cases h with
  | integer _ | negative _ => exact ⟨_, rfl, Or.inl rfl⟩
  | float | negativeFloat => exact ⟨_, rfl, Or.inr rfl⟩

theorem number_reads {negated : Bool} {value : Literal} (hp : p.Faces scan (ts ++ rest))
    (h : IsNumber negated ts value) (line : Nat) :
    (p.kind = .integer ∨ p.kind = .float) ∧
      ((p.number negated).map fun read => Expr.literal read line none).Reads scan
        (·.unlined = .literal value 0 none) rest := by
  obtain ⟨t, rfl, hkind⟩ := number_kind h
  rw [← show p.kind = t.kind from hp.kind_eq] at hkind
  have hread : Parser.numberValue? negated p.current = some value :=
    (numberValue?_eq_some hkind).mpr (hp.terminal ▸ h)
  have hnumber : (p.number negated).Reads scan (· = value) rest := by
    unfold Parser.number
    rw [hread]
    refine Step.Reads.behind hp (fun hq => ?_) _
    exact reads_done hq rfl
  exact ⟨hkind, hnumber.map fun a ha => by rw [Expr.unlined, ha]⟩

theorem literal_reads {t : Terminal} (hp : p.Faces scan (t :: rest)) (value : Literal) :
    (p.literal value).Reads scan (·.unlined = .literal value 0 none) rest := by
  refine Step.Reads.behind hp (fun hq => ?_) _
  exact reads_done hq rfl

/-- The name of a call has a parenthesis behind it. -/
theorem call_facing {e : Expr} (hp : p.Faces scan (ts ++ rest)) (h : IsCall rule ts e) :
    p.kind = .identifier ∧ p.next.kind = .lParen := by
  obtain ⟨-⟩ := h
  exact ⟨hp.kind_eq, Parser.Faces.next_kind hp⟩

/-- The name of a place has none, unless one follows the place. -/
theorem place_facing {negated : Bool} {place : Place} (hp : p.Faces scan (ts ++ rest))
    (h : IsPlace rule negated ts place) (hrest : firstKind rest ≠ .lParen) :
    p.kind = .identifier ∧ p.next.kind ≠ .lParen := by
  cases h with
  | whole => exact ⟨hp.kind_eq, Parser.Faces.next_kind hp ▸ hrest⟩
  | element _ =>
    have hnext : p.next.kind = .lBracket := Parser.Faces.next_kind hp
    exact ⟨hp.kind_eq, by rw [hnext]; decide⟩

section Operands

variable (p : Parser) {expr : Later p Expr}
  (hexpr : ∀ q lt, (expr q lt).Complete scan IsExpr Expr.unlined EndsExpr)

include hexpr

theorem place_complete (negated : Bool) :
    (p.place negated expr).Complete scan (IsPlace IsExpr negated) Place.unlined
      (· ≠ .lBracket) := by
  intro ts rest place hp hplace hrest
  cases hplace with
  | whole =>
    refine Parser.Faces.expectName hp fun q lt hq => ?_
    rw [if_neg (hq.kind_eq ▸ hrest)]
    exact reads_done hq rfl
  | element hindex =>
    simp only [List.cons_append, List.append_assoc, List.nil_append] at hp
    refine hp.expectName fun q lt hq => ?_
    rw [if_pos (show q.kind = .lBracket from hq.kind_eq)]
    refine hq.expect fun r _ _ hr => ?_
    have hclose : EndsExpr .rBracket := by decide
    refine (hexpr r _ hr hindex hclose).andThen fun s _ index hs hi => ?_
    refine hs.expect fun t _ _ ht => reads_done ht ?_
    rw [Place.unlined, hi]

theorem call_complete :
    (p.call expr).Complete scan (IsCall IsExpr) Expr.unlined fun _ => True := by
  rintro ts rest e hp ⟨hargs⟩ -
  simp only [List.cons_append, List.append_assoc, List.nil_append] at hp
  refine hp.expectName fun q lt hq => hq.expect fun r ltr _ hr => ?_
  have habsent : ∀ kind ∈ .kwNot :: factorKinds, decide (kind = .rParen) = false := by decide
  refine (list_complete expr_starts habsent (by decide) .rParen (by decide) r _
    (fun s hs => hexpr s _) hr hargs rfl).andThen fun s _ args hs hargs => ?_
  refine hs.expect fun t _ _ ht => reads_done ht ?_
  rw [Expr.unlined, argsUnlined_eq_map, hargs]

theorem factor_complete :
    (p.factor expr).Complete scan (Factor IsExpr) Expr.unlined (Ends []) := by
  intro ts rest e hp he hrest
  unfold Parser.factor
  cases he with
  | paren he =>
    simp only [List.cons_append, List.append_assoc, List.nil_append] at hp
    rw [show p.kind = .lParen from hp.kind_eq]
    refine hp.expect fun q lt _ hq => ?_
    have hclose : EndsExpr .rParen := by decide
    refine (hexpr q lt hq he hclose).andThen fun r _ inner hr hinner => ?_
    exact hr.expect fun s _ _ hs => reads_done hs hinner
  | call hcall =>
    obtain ⟨hkind, hnext⟩ := call_facing hp hcall
    rw [hkind]
    dsimp only
    rw [if_pos hnext]
    exact call_complete p hexpr hp hcall trivial
  | read hplace =>
    obtain ⟨hkind, hnext⟩ := place_facing hp hplace hrest.2.1
    rw [hkind]
    dsimp only
    rw [if_neg hnext]
    exact (place_complete p hexpr false hp hplace hrest.1).map fun a ha => by rw [Expr.unlined, ha]
  | minusRead hplace =>
    rw [show p.kind = .minus from hp.kind_eq]
    refine Step.Reads.behind hp (fun hq => ?_) _
    unfold Parser.signed
    rw [(place_facing hq hplace hrest.2.1).1]
    refine (place_complete p.advance (fun q lt => hexpr q _) true hq hplace hrest.1).map ?_
    intro a ha
    rw [Expr.unlined, ha]
  | number hvalue =>
    obtain ⟨hkind, hread⟩ := number_reads hp hvalue p.line
    rcases hkind with hkind | hkind <;> rw [hkind] <;> exact hread
  | minusNumber hvalue =>
    rw [show p.kind = .minus from hp.kind_eq]
    refine Step.Reads.behind hp (fun hq => ?_) _
    obtain ⟨hkind, hread⟩ := number_reads hq hvalue p.line
    unfold Parser.signed
    rcases hkind with hkind | hkind <;> rw [hkind] <;> exact hread
  | string =>
    rw [show p.kind = .string from hp.kind_eq]
    have htext := Token.value_of_string (Parser.Faces.terminal hp)
    dsimp only
    rw [htext]
    exact literal_reads hp _
  | true =>
    rw [show p.kind = .kwTrue from hp.kind_eq]
    exact literal_reads hp _
  | false =>
    rw [show p.kind = .kwFalse from hp.kind_eq]
    exact literal_reads hp _

end Operands

/-- **Expressions** of the grammar are read. -/
theorem expr_complete : ∀ p : Parser, p.expr.Complete scan IsExpr Expr.unlined EndsExpr
  | p => by
    rintro ts rest e hp ⟨he⟩ hrest
    rw [Parser.expr]
    refine chain_complete (by decide) p (fun q hq => ?_) hp he hrest
    refine negation_complete sum_starts (by decide) q fun r hr => ?_
    refine chain_complete (by decide) r fun s hs => chain_complete (by decide) s fun t ht => ?_
    refine chain_complete (by decide) t fun u hu => factor_complete u fun v hv => ?_
    have : v.remaining < p.remaining := by omega
    exact expr_complete v
termination_by p => p.remaining

end Expressions

/-! ## Declarations -/

section Declarations

theorem Token.value_of_integer {t : Token} {n : Nat} (h : t.terminal = .integer n)
    (hn : n < 0x8000000000000000) : Literal.integerValue? t.text = some n := by
  refine integerValue?_eq_some.mpr ⟨?_, hn⟩
  unfold terminal at h
  split at h <;> cases h
  rfl

theorem bound_complete (p : Parser) : p.bound.Complete scan IsBound id (· ≠ .lBracket) := by
  intro ts rest bound hp hbound hrest
  unfold Parser.bound
  cases hbound with
  | none =>
    rw [if_neg (hp.kind_eq ▸ hrest)]
    exact reads_done hp rfl
  | some hn =>
    rw [if_pos (show p.kind = .lBracket from hp.kind_eq)]
    refine Parser.Faces.expect hp fun q _ _ hq => ?_
    have hplain : TokenKind.integer ≠ .minus := by decide
    refine Parser.Faces.optional_absent hq hplain fun r _ hr => ?_
    refine Parser.Faces.expectToken hr fun s _ token hs htoken => ?_
    rw [Token.value_of_integer htoken hn]
    refine Parser.Faces.expect hs fun t _ _ ht => reads_done ht rfl
  | negative hn =>
    rw [if_pos (show p.kind = .lBracket from hp.kind_eq)]
    refine Parser.Faces.expect hp fun q _ _ hq => ?_
    refine Parser.Faces.optional_there hq fun r _ hr => ?_
    refine Parser.Faces.expectToken hr fun s _ token hs htoken => ?_
    rw [Token.value_of_integer htoken hn]
    refine Parser.Faces.expect hs fun t _ _ ht => reads_done ht rfl

theorem typeMark_complete (p : Parser) : p.typeMark.Complete scan IsMark id fun _ => True := by
  intro ts rest mark hp hmark _
  unfold Parser.typeMark
  cases hmark with
  | @builtin kind ty hty =>
    rw [show p.kind = kind from hp.kind_eq, hty]
    refine Step.Reads.behind hp (fun hq => ?_) _
    exact reads_done hq rfl
  | named =>
    rw [show p.kind = .identifier from hp.kind_eq]
    exact Parser.Faces.expectName hp fun q _ hq => reads_done hq rfl
  | enum hvariants =>
    simp only [List.cons_append, List.append_assoc, List.nil_append] at hp
    rw [show p.kind = .kwEnum from hp.kind_eq]
    refine hp.expect fun q _ _ hq => hq.expect fun r _ _ hr => ?_
    have hname : ∀ (s : Parser) (_ : s.remaining ≤ r.remaining),
        (s.expectName fun t _ name => Step.done t name).Complete scan IsName id fun _ => True := by
      rintro s _ ts rest x hs ⟨⟩ -
      exact Parser.Faces.expectName hs fun t _ ht => reads_done ht rfl
    have hstarts : Starts IsName [.identifier] := by
      rintro ts x ⟨⟩ rest
      exact List.mem_cons_self
    have hlist := separated_reads hstarts (fun _ _ => rfl) trivial hvariants _ hname hr trivial
      (show TokenKind.rBrace ≠ .comma by decide)
    refine hlist.andThen fun s _ variants hs hv => hs.expect fun t _ _ ht => reads_done ht ?_
    rw [List.map_id] at hv
    rw [hv]
    rfl

theorem longVariable_reads (p : Parser) (isGlobal : Bool) {mark : TypeMark} {bound : Option Int}
    (hp : p.Faces scan (.sym .kwVariable :: .name x :: .sym .colon :: ts ++ us ++ rest))
    (hmark : IsMark ts mark) (hbound : IsBound us bound) (hrest : firstKind rest ≠ .lBracket) :
    (p.longVariable isGlobal).Reads scan (·.unlined = ⟨x, mark, isGlobal, bound, 0⟩) rest := by
  simp only [List.cons_append, List.append_assoc] at hp
  refine hp.expect fun q _ token hq => hq.expectName fun r _ hr => hr.expect fun s _ _ hs => ?_
  refine (typeMark_complete s hs hmark trivial).andThen fun t _ mark' ht hmark' => ?_
  refine (bound_complete t ht hbound hrest).map fun bound' hbound' => ?_
  subst hmark' hbound'
  rfl

theorem shortVariable_reads (p : Parser) (isGlobal : Bool) (ty : Ty) {bound : Option Int}
    (hp : p.Faces scan (.sym kind :: .name x :: us ++ rest)) (hbound : IsBound us bound)
    (hrest : firstKind rest ≠ .lBracket) :
    (p.shortVariable ty isGlobal).Reads scan (·.unlined = ⟨x, .builtin ty, isGlobal, bound, 0⟩)
      rest := by
  refine Step.Reads.behind hp (fun hq => ?_) _
  refine Parser.Faces.expectName hq fun r _ hr => ?_
  refine (bound_complete r hr hbound hrest).map fun bound' hbound' => ?_
  subst hbound'
  rfl

theorem parameter_complete (p : Parser) :
    p.parameter.Complete scan (IsVariable false) VariableDecl.unlined (· ≠ .lBracket) := by
  intro ts rest decl hp hdecl hrest
  unfold Parser.parameter
  cases hdecl with
  | long hmark hbound =>
    rw [show p.kind = .kwVariable from hp.kind_eq]
    exact longVariable_reads p false hp hmark hbound hrest
  | @short kind ty _ _ _ hty hbound =>
    rw [show p.kind = kind from hp.kind_eq, hty]
    exact shortVariable_reads p false ty hp hbound hrest

end Declarations

/-! ## Items of a section -/

theorem Step.Reads.item {s : Step p Stmt} {fine : Stmt → Prop}
    (h : s.Reads scan fine (.sym .semicolon :: rest)) :
    ∃ stmt q lt, s.item = .parsed stmt q lt ∧ fine stmt ∧ q.Faces scan rest ∧
      q.errors = p.errors := by
  obtain ⟨value, q, le⟩ := s
  obtain ⟨stmt, rfl, hstmt, hq, herrors⟩ := h
  unfold Step.item
  dsimp only at hq herrors ⊢
  rw [dif_pos (show q.kind = .semicolon from hq.kind_eq)]
  exact ⟨stmt, q.advance, _, rfl, hstmt, hq.advance, hq.advance_errors.trans herrors⟩

section Items

variable {part : Section}

theorem block_reads (stops : List TokenKind) (hstops : ∀ kind ∈ statementKinds, kind ∉ stops)
    {stmts : List Stmt} (h : Repeated (IsItem part) ts stmts) :
    ∀ {p : Parser} {rest : List Terminal} (item : Here p Stmt),
      (∀ q le, (item q le).Complete scan (IsItem part) Stmt.unlined (· = .semicolon)) →
      p.Faces scan (ts ++ rest) → firstKind rest ∈ stops →
      (p.block stops item).Reads scan (fun read => read.map Stmt.unlined = stmts) rest := by
  induction h with
  | nil =>
    intro p rest item _ hp hrest
    rw [Parser.block, if_pos (hp.kind_eq ▸ hrest)]
    exact reads_done hp rfl
  | cons hts hus ih =>
    intro p rest item hitem hp hrest
    rw [List.append_assoc] at hp
    have hkind : p.kind ∈ statementKinds := hp.kind_eq ▸ item_starts part hts _
    have hend : p.kind ≠ .eof := fun heq => absurd (heq ▸ hkind) (by decide)
    obtain ⟨stmt, q, lt, hparsed, hstmt, hq, herrors⟩ := (hitem p (Nat.le_refl _) hp hts rfl).item
    rw [Parser.block, if_neg (hstops _ hkind), if_neg hend, Here.run, hparsed]
    refine Step.Reads.within herrors ?_ _
    have hread := ih (item.mono (Nat.le_of_lt lt)) (fun r hr => hitem r _) hq hrest
    exact hread.map fun stmts hstmts => by rw [List.map_cons, hstmt, hstmts]

end Items

/-! ## Declarations and statements -/

section Statements

variable {item : Section → Later p Stmt} {vs ws : List Terminal}

theorem assignment_complete (p : Parser) : p.assignment.Complete scan IsAssignment
    (fun read => (read.1.unlined, read.2.unlined)) EndsExpr := by
  rintro ts rest _ hp ⟨hdest, hvalue⟩ hrest
  rw [List.append_assoc] at hp
  have hassign : TokenKind.assign ≠ .lBracket := by decide
  refine (place_complete p (fun q _ => expr_complete q) false hp hdest hassign).andThen
    fun q _ dest hq hdest => hq.expect fun r _ _ hr => ?_
  refine (expr_complete r hr hvalue hrest).map fun value hvalue => ?_
  dsimp only
  rw [hdest, hvalue]

theorem alternative_complete {item : Later p Stmt}
    (hitem : ∀ q lt, (item q lt).Complete scan (IsItem .statements) Stmt.unlined (· = .semicolon))
    (q : Parser) (lt : q.remaining < p.remaining) :
    (Parser.branch.alternative p q item lt).Complete scan (Alternative IsItem)
      (Option.map (List.map Stmt.unlined)) (· = .kwEnd) := by
  intro ts rest no hq hno hrest
  unfold Parser.branch.alternative
  cases hno with
  | none =>
    have hne : q.kind ≠ .kwElse := by
      rw [hq.kind_eq, List.nil_append, hrest]
      decide
    rw [if_neg hne]
    exact reads_done hq rfl
  | some hno =>
    rw [if_pos (show q.kind = .kwElse from hq.kind_eq)]
    refine Parser.Faces.expect hq fun r hr _ hr' => ?_
    refine (block_reads [.kwEnd] (by decide) hno _ (fun s hs => hitem s _) hr'
      (hrest ▸ List.mem_cons_self)).map fun read hread => ?_
    rw [Option.map_some, hread]

/-- Where a declaration begins, a statement is one. -/
theorem statement_eq_declaration (h : p.kind ∈ .kwGlobal :: declaredKinds) :
    p.statement item = p.declaration item := by
  unfold Parser.statement
  simp only [declaredKinds, variableKinds, List.mem_cons, List.not_mem_nil, or_false] at h
  rcases h with h | h | h | h | h | h | h | h <;> rw [h]

-- What the productions below need to know of the items that they hand on.
variable (hitem : ∀ part q lt,
  (item part q lt).Complete scan (IsItem part) Stmt.unlined (· = .semicolon))

include hitem

theorem procedure_reads (isGlobal : Bool) (line : Nat) {result : TypeMark}
    {params : List VariableDecl} {locals body : List Stmt} (hp : p.Faces scan
      (.sym .kwProcedure :: .name x :: .sym .colon :: ts ++ .sym .lParen :: us ++
        .sym .rParen :: vs ++ .sym .kwBegin :: ws ++ [.sym .kwEnd, .sym .kwProcedure] ++ rest))
    (hresult : IsMark ts result) (hparams : Listed (IsVariable false) us params)
    (hlocals : Repeated (IsItem .declarations) vs locals)
    (hbody : Repeated (IsItem .statements) ws body) :
    (p.procedure isGlobal line item).Reads scan
      (·.unlined = .procedure ⟨x, result, params, isGlobal⟩ (locals ++ body) 0) rest := by
  simp only [List.cons_append, List.append_assoc, List.nil_append] at hp
  refine hp.expect fun q lt _ hq => hq.expectName fun r ltr hr => hr.expect fun s lts _ hs => ?_
  refine (typeMark_complete s hs hresult trivial).andThen fun t let' result' ht hresult' => ?_
  refine ht.expect fun u ltu _ hu => ?_
  have habsent : ∀ kind ∈ variableKinds, decide (kind = .rParen) = false := by decide
  refine (list_complete variable_starts habsent (by decide) .rParen (by decide) u _
    (fun v _ => parameter_complete v) hu hparams rfl).andThen fun v lev params' hv hparams' => ?_
  refine hv.expect fun w ltw _ hw => ?_
  refine (block_reads [.kwBegin] (by decide) hlocals _ (fun x hx => hitem _ x _) hw
    List.mem_cons_self).andThen fun x lex locals' hx hlocals' => ?_
  refine hx.expect fun y lty _ hy => ?_
  refine (block_reads [.kwEnd] (by decide) hbody _ (fun z hz => hitem _ z _) hy
    List.mem_cons_self).andThen fun z _ body' hz hbody' => ?_
  refine hz.expect fun z' _ _ hz' => hz'.expect fun z'' _ _ hz'' => reads_done hz'' ?_
  rw [Stmt.unlined, Heading.unlined, blockUnlined_eq_map, List.map_append, hlocals', hbody',
    hparams', ← show result' = result from hresult']

theorem declarationRest_complete (isGlobal : Bool) (line : Nat) :
    (p.declarationRest isGlobal line item).Complete scan (Declared IsItem isGlobal) Stmt.unlined
      (· ≠ .lBracket) := by
  intro ts rest stmt hp hstmt hrest
  unfold Parser.declarationRest
  cases hstmt with
  | «variable» hdecl =>
    cases hdecl with
    | long hmark hbound =>
      rw [show p.kind = .kwVariable from hp.kind_eq]
      refine (longVariable_reads p isGlobal hp hmark hbound hrest).map fun decl hdecl => ?_
      rw [Stmt.unlined, hdecl]
    | @short kind ty _ _ _ hty hbound =>
      rw [show p.kind = kind from hp.kind_eq, hty]
      refine (shortVariable_reads p isGlobal ty hp hbound hrest).map fun decl hdecl => ?_
      rw [Stmt.unlined, hdecl]
  | type hmark =>
    rw [show p.kind = .kwType from hp.kind_eq]
    simp only [List.cons_append] at hp
    refine hp.expect fun q _ _ hq => hq.expectName fun r _ hr => hr.expect fun s _ _ hs => ?_
    refine (typeMark_complete s hs hmark trivial).map fun mark hmark => ?_
    rw [Stmt.unlined, ← hmark]
    rfl
  | procedure hresult hparams hlocals hbody =>
    rw [show p.kind = .kwProcedure from hp.kind_eq]
    exact procedure_reads hitem isGlobal line hp hresult hparams hlocals hbody

theorem declaration_complete :
    (p.declaration item).Complete scan (Declaration IsItem) Stmt.unlined (· ≠ .lBracket) := by
  intro ts rest stmt hp hstmt hrest
  cases hstmt with
  | inner hstmt =>
    have hne : firstKind (ts ++ rest) ≠ .kwGlobal := fun heq =>
      absurd (heq ▸ declared_starts hstmt rest) (by decide)
    refine hp.optional_absent hne fun q le hq => ?_
    exact declarationRest_complete (fun part r lt => hitem part r _) false p.line hq hstmt hrest
  | global hstmt =>
    refine Parser.Faces.optional_there hp fun q le hq => ?_
    exact declarationRest_complete (fun part r lt => hitem part r _) true p.line hq hstmt hrest

theorem branch_reads {cond : Expr} {yes : List Stmt} {no : Option (List Stmt)} (hp : p.Faces scan
      (.sym .kwIf :: .sym .lParen :: ts ++ .sym .rParen :: .sym .kwThen :: us ++ vs ++
        [.sym .kwEnd, .sym .kwIf] ++ rest)) (hcond : IsExpr ts cond)
    (hyes : Repeated (IsItem .statements) us yes) (hno : Alternative IsItem vs no) :
    (p.branch item).Reads scan (·.unlined = .branch cond yes no 0) rest := by
  simp only [List.cons_append, List.append_assoc, List.nil_append] at hp
  have hclose : EndsExpr .rParen := by decide
  refine hp.expect fun q lt _ hq => hq.expect fun r ltr _ hr => ?_
  refine (expr_complete r hr hcond hclose).andThen fun s les cond' hs hcond' => ?_
  refine hs.expect fun t ltt _ ht => ht.expect fun u ltu _ hu => ?_
  -- The first part ends at `else` or, without one, at `end`.
  have hstop : firstKind (vs ++ .sym .kwEnd :: .sym .kwIf :: rest) ∈ [.kwElse, .kwEnd] := by
    cases hno with
    | none | some _ => exact List.mem_of_elem_eq_true rfl
  refine (block_reads [.kwElse, .kwEnd] (by decide) hyes _ (fun v hv => hitem _ v _) hu
    hstop).andThen fun v lev yes' hv hyes' => ?_
  refine (alternative_complete (hitem .statements) v _ hv hno rfl).andThen fun w _ no' hw hno' => ?_
  refine hw.expect fun x _ _ hx => hx.expect fun y _ _ hy => reads_done hy ?_
  rw [Stmt.unlined_branch, hcond', hyes', hno']

theorem loop_reads {dest : Place} {value cond : Expr} {body : List Stmt} (hp : p.Faces scan
      (.sym .kwFor :: .sym .lParen :: ts ++ .sym .semicolon :: us ++ .sym .rParen :: vs ++
        [.sym .kwEnd, .sym .kwFor] ++ rest)) (hassigned : IsAssignment ts (dest, value))
    (hcond : IsExpr us cond) (hbody : Repeated (IsItem .statements) vs body) :
    (p.loop item).Reads scan (·.unlined = .loop dest value cond body 0) rest := by
  simp only [List.cons_append, List.append_assoc, List.nil_append] at hp
  have hsemicolon : EndsExpr .semicolon := by decide
  have hclose : EndsExpr .rParen := by decide
  refine hp.expect fun q lt _ hq => hq.expect fun r ltr _ hr => ?_
  refine (assignment_complete r hr hassigned hsemicolon).andThen fun s les assigned hs heq => ?_
  obtain ⟨dest', value'⟩ := assigned
  obtain ⟨hdest, hvalue⟩ : dest'.unlined = dest ∧ value'.unlined = value := Prod.mk.inj heq
  refine hs.expect fun t ltt _ ht => ?_
  refine (expr_complete t ht hcond hclose).andThen fun u leu cond' hu hcond' => ?_
  refine hu.expect fun v ltv _ hv => ?_
  refine (block_reads [.kwEnd] (by decide) hbody _ (fun w hw => hitem _ w _) hv
    List.mem_cons_self).andThen fun w _ body' hw hbody' => ?_
  refine hw.expect fun x _ _ hx => hx.expect fun y _ _ hy => reads_done hy ?_
  rw [Stmt.unlined, blockUnlined_eq_map, hdest, hvalue, hcond', hbody']

theorem statement_complete :
    (p.statement item).Complete scan (Statement IsItem) Stmt.unlined EndsExpr := by
  intro ts rest stmt hp hstmt hrest
  cases hstmt with
  | assign hassigned =>
    obtain ⟨hkind, hnext⟩ : p.kind = .identifier ∧ p.next.kind ≠ .lParen := by
      obtain ⟨hplace, -⟩ := hassigned
      rw [List.append_assoc] at hp
      exact place_facing hp hplace (show TokenKind.assign ≠ .lParen by decide)
    unfold Parser.statement
    rw [hkind]
    dsimp only
    rw [if_neg hnext]
    refine (assignment_complete p hp hassigned hrest).map fun read hread => ?_
    obtain ⟨dest, value⟩ := read
    cases hread
    rfl
  | declaration hstmt =>
    rw [statement_eq_declaration (hp.kind_eq ▸ declaration_starts hstmt rest)]
    exact declaration_complete hitem hp hstmt hrest.1
  | call hcall =>
    obtain ⟨hkind, hnext⟩ := call_facing hp hcall
    unfold Parser.statement
    rw [hkind]
    dsimp only
    rw [if_pos hnext]
    refine (call_complete p (fun q _ => expr_complete q) hp hcall trivial).map fun call hcall => ?_
    rw [Stmt.unlined, hcall]
  | result hvalue =>
    unfold Parser.statement
    rw [show p.kind = .kwReturn from hp.kind_eq]
    refine Parser.Faces.expect hp fun q _ _ hq => ?_
    refine (expr_complete q hq hvalue hrest).map fun value hvalue => ?_
    rw [Stmt.unlined, hvalue]
  | branch hcond hyes hno =>
    unfold Parser.statement
    rw [show p.kind = .kwIf from hp.kind_eq]
    exact branch_reads hitem hp hcond hyes hno
  | loop hassigned hcond hbody =>
    unfold Parser.statement
    rw [show p.kind = .kwFor from hp.kind_eq]
    exact loop_reads hitem hp hassigned hcond hbody

end Statements

/-- **Items of a section** of the grammar are read. -/
theorem item_complete : ∀ (part : Section) (p : Parser),
    (p.item part).Complete scan (IsItem part) Stmt.unlined (· = .semicolon)
  | .declarations, p => by
    intro ts rest stmt hp hstmt hrest
    rw [Parser.item]
    cases hstmt with
    | declaration hstmt =>
      refine declaration_complete (fun part q lt => item_complete part q) hp hstmt ?_
      rw [hrest]
      decide
  | .statements, p => by
    intro ts rest stmt hp hstmt hrest
    rw [Parser.item]
    cases hstmt with
    | statement hstmt =>
      refine statement_complete (fun part q lt => item_complete part q) hp hstmt ?_
      rw [hrest]
      decide
termination_by _ p => p.remaining

end ProcLang
