import ProcLang.Proofs.Grammar.Upcoming
import ProcLang.Proofs.Productions

/-!
# Trees as they are read

What the tree of an item is like when it was just read (`Stmt.AsRead`), whatever else is wrong with
the text: its integers have 32 bits, its floats are numbers or infinite, its names are those of
identifiers, also where types are named, and no expression has a type yet. Every production gives
such trees (`item_asRead`), and reading an item leaves fewer tokens, by those of the item
(`nextItem_covers`).
-/

namespace ProcLang

/-! ## Literals -/

/-- The integer has 32 bits. -/
def InRange (n : Int) : Prop :=
  -0x80000000 ≤ n ∧ n ≤ 0x7FFFFFFF

/-- A literal as it comes from a text: an integer has 32 bits, and no float exceeds infinity. -/
def Literal.Ordinary : Literal → Prop
  | integer n => ProcLang.InRange n
  | float x => x.magnitude ≤ Binary32.infinity
  | _ => True

/-! ## Trees -/

section Trees

variable (word : String → Prop)

mutual

/-- The literals of the expression are ordinary, its names are of a kind, and there are no types in
it. -/
def Expr.AsRead : Expr → Prop
  | .literal value _ ty => value.Ordinary ∧ ty = none
  | .read place _ ty => place.AsRead ∧ ty = none
  | .not operand _ ty => operand.AsRead ∧ ty = none
  | .binary _ lhs rhs _ ty => lhs.AsRead ∧ rhs.AsRead ∧ ty = none
  | .call callee args _ ty => word callee ∧ ArgsAsRead args ∧ ty = none

/-- The same for a mention of a variable. -/
def Place.AsRead : Place → Prop
  | .whole name _ _ => word name
  | .element name index _ _ => word name ∧ index.AsRead

/-- The same for arguments. -/
def ArgsAsRead : List Expr → Prop
  | [] => True
  | arg :: args => arg.AsRead ∧ ArgsAsRead args

end

/-- The names in a type mark are of a kind. -/
def TypeMark.AsRead : TypeMark → Prop
  | builtin _ => True
  | named name => word name
  | enum variants => ∀ name ∈ variants, word name

/-- The names in the declaration of a variable are of a kind. -/
structure VariableDecl.AsRead (decl : VariableDecl) : Prop where
  name : word decl.name
  mark : decl.mark.AsRead word

/-- The names in the heading of a procedure are of a kind, and its parameters are not global. -/
structure Heading.AsRead (heading : Heading) : Prop where
  name : word heading.name
  result : heading.result.AsRead word
  params : ∀ decl ∈ heading.params, decl.AsRead word ∧ decl.isGlobal = false

mutual

/-- The literals of the statement are ordinary, its names are of a kind, and its expressions have no
types. -/
def Stmt.AsRead : Stmt → Prop
  | .assign dest value _ => dest.AsRead word ∧ value.AsRead word
  | .call call _ => call.AsRead word
  | .declare decl _ => decl.AsRead word
  | .declareType name mark _ _ => word name ∧ mark.AsRead word
  | .branch cond yes none _ => cond.AsRead word ∧ BlockAsRead yes
  | .branch cond yes (some no) _ => cond.AsRead word ∧ BlockAsRead yes ∧ BlockAsRead no
  | .loop dest value cond body _ =>
    dest.AsRead word ∧ value.AsRead word ∧ cond.AsRead word ∧ BlockAsRead body
  | .result value _ => value.AsRead word
  | .procedure heading body _ => heading.AsRead word ∧ BlockAsRead body

/-- The same for statements that follow each other. -/
def BlockAsRead : List Stmt → Prop
  | [] => True
  | stmt :: stmts => stmt.AsRead ∧ BlockAsRead stmts

end

end Trees

section Lists

variable {word : String → Prop}

theorem argsAsRead_iff : ∀ {args : List Expr}, ArgsAsRead word args ↔ ∀ arg ∈ args, arg.AsRead word
  | [] => by simp [ArgsAsRead]
  | arg :: args => by simp [ArgsAsRead, argsAsRead_iff]

theorem blockAsRead_iff {stmts : List Stmt} :
    BlockAsRead word stmts ↔ ∀ stmt ∈ stmts, stmt.AsRead word := by
  induction stmts with
  | nil => simp [BlockAsRead]
  | cons stmt stmts ih => simp [BlockAsRead, ih]

end Lists

/-! ## Expressions -/

section Expressions

variable {I : Parser.Law} {word : String → Prop}

theorem Level.not_stops_of_op? {level : Level} {kind : TokenKind} {op : BinaryOp}
    (h : level.op? kind = some op) : ¬ kind.Stops := by
  rintro (rfl | rfl) <;> cases level <;> cases h

theorem TokenKind.not_stops_of_type? {kind : TokenKind} {ty : Ty} (h : kind.type? = some ty) :
    ¬ kind.Stops := by
  rintro (rfl | rfl) <;> cases h

/-- What is joined to an operand has a token for each operator. -/
theorem chainRest_asRead (level : Level) : ∀ (p : Parser) {operand : Here p Expr} {lhs : Expr},
    (∀ q le, (operand q le).Gives I (Expr.AsRead word) Expr.tokens) → lhs.AsRead word →
      (p.chainRest level operand lhs).Gives I (Expr.AsRead word) fun e => e.tokens - lhs.tokens
  | p, operand, lhs, hoperand, hlhs => by
    rw [Parser.chainRest]
    split
    · exact gives_done p hlhs (Nat.sub_self _)
    · rename_i op h
      have lt : p.advance.remaining < p.remaining :=
        Parser.advance_remaining_lt (Level.ne_eof_of_op? h)
      dsimp only
      refine Step.Gives.behind (Level.not_stops_of_op? h)
        ((hoperand _ _).andThen fun q le rhs hrhs => ?_) _
      refine Step.Gives.resize (chainRest_asRead level q (fun r hr => hoperand r _) ?_) fun e => ?_
      · exact ⟨hlhs, hrhs, rfl⟩
      · rw [Expr.tokens]
        omega
termination_by p => p.remaining

theorem chain_asRead (level : Level) (p : Parser) {operand : Here p Expr}
    (hoperand : ∀ q le, (operand q le).Gives I (Expr.AsRead word) Expr.tokens) :
    (p.chain level operand).Gives I (Expr.AsRead word) Expr.tokens :=
  (hoperand p _).andThen fun q _ _ hlhs =>
    chainRest_asRead level q (fun r _ => hoperand r _) hlhs

theorem negation_asRead (p : Parser) {operand : Here p Expr}
    (hoperand : ∀ q le, (operand q le).Gives I (Expr.AsRead word) Expr.tokens) :
    (p.negation operand).Gives I (Expr.AsRead word) Expr.tokens := by
  unfold Parser.negation
  split
  · rename_i h
    refine Step.Gives.behind (h ▸ by decide)
      (Step.Gives.map (hoperand _ _) fun e he => ⟨⟨he, rfl⟩, ?_⟩) _
    rw [Expr.tokens]
    omega
  · exact hoperand p _

theorem Binary32.magnitudeOf_le (num den : Nat) :
    Binary32.magnitudeOf num den ≤ Binary32.infinity :=
  Nat.min_le_right _ _

/-- **A number** that is an integer has 32 bits, and one that is a float does not exceed infinity.
-/
theorem number_ordinary {p : Parser} (h : ¬ p.kind.Stops) (negated : Bool) :
    (p.number negated).Gives I Literal.Ordinary fun _ => 1 := by
  unfold Parser.number
  dsimp only
  split
  · rename_i value hvalue
    refine Step.Gives.behind h (gives_done _ ?_ rfl) _
    unfold Parser.numberValue? at hvalue
    split at hvalue
    · cases hvalue
      have hmagnitude := Binary32.magnitudeOf_le
      cases negated <;> exact hmagnitude _ _
    · obtain ⟨n, -, hn⟩ := Option.bind_eq_some_iff.mp hvalue
      by_cases hrange : Parser.inLiteralRange (if negated then -(n : Int) else n) = true
      · rw [if_pos hrange] at hn
        cases hn
        unfold Parser.inLiteralRange at hrange
        have hbounds := of_decide_eq_true hrange
        exact hbounds
      · rw [if_neg hrange] at hn
        cases hn
  · exact Step.Gives.behind h (gives_failAt _ _ _) _

theorem literal_asRead {p : Parser} (h : ¬ p.kind.Stops) {value : Literal}
    (hvalue : value.Ordinary) :
    (p.literal value).Gives I (Expr.AsRead word) Expr.tokens :=
  Step.Gives.behind h (gives_done _ ⟨hvalue, rfl⟩ rfl) _

variable (hword : ∀ q, I.quiet q → q.kind = .identifier → word (String.ofList q.current.text))

include hword

section Operands

variable (p : Parser) {expr : Later p Expr}
  (hexpr : ∀ q lt, (expr q lt).Gives I (Expr.AsRead word) Expr.tokens)

include hexpr

/-- The minus sign in front of a place was passed before. -/
theorem place_asRead (negated : Bool) :
    (p.place negated expr).Gives I (Place.AsRead word)
      fun place => 1 + place.tokens - negated.toNat := by
  refine gives_named p hword fun q lt name hname => ?_
  split
  · refine gives_expect q rfl fun r ltr _ => (hexpr _ _).andThen fun t _ index hindex => ?_
    refine gives_expect t rfl fun u _ _ => gives_done u ⟨hname, hindex⟩ ?_
    rw [Place.tokens]
    omega
  · refine gives_done q hname ?_
    rw [Place.tokens]
    omega

theorem call_asRead : (p.call expr).Gives I (Expr.AsRead word) Expr.tokens := by
  refine gives_named p hword fun q lt callee hcallee => gives_expect q rfl fun r ltr _ => ?_
  refine (gives_list _ r fun t _ => hexpr t _).andThen fun t _ args hargs => ?_
  refine gives_expect t rfl fun u _ _ => gives_done u ⟨hcallee, argsAsRead_iff.mpr hargs, rfl⟩ ?_
  rw [Expr.tokens, argsTokens_eq_sum]
  omega

/-- What stands behind a minus sign, which was passed before. -/
theorem signed_asRead (line : Nat) :
    (p.signed line expr).Gives I (Expr.AsRead word) fun e => e.tokens - 1 := by
  unfold Parser.signed
  split
  · refine (place_asRead hword p hexpr true).map fun place h => ⟨⟨h, rfl⟩, Nat.le_of_eq ?_⟩
    rw [Expr.tokens, Bool.toNat_true]
  iterate 2
    · rename_i h
      exact (number_ordinary (h ▸ by decide) true).map fun _ h => ⟨⟨h, rfl⟩, Nat.zero_le _⟩
  · exact gives_failAt _ _ _

theorem factor_asRead : (p.factor expr).Gives I (Expr.AsRead word) Expr.tokens := by
  unfold Parser.factor
  split
  · refine gives_expect p rfl fun q lt _ => (hexpr _ _).andThen fun r _ inner hinner => ?_
    exact gives_expect r rfl fun t _ _ => gives_done t hinner (by omega)
  · split
    · exact call_asRead hword p hexpr
    · refine (place_asRead hword p hexpr false).map fun place h => ⟨⟨h, rfl⟩, Nat.le_of_eq ?_⟩
      rw [Expr.tokens, Bool.toNat_false, Nat.sub_zero]
  · rename_i h
    exact Step.Gives.behind (h ▸ by decide) (signed_asRead hword _ (fun q _ => hexpr q _) _) _
  iterate 2
    · rename_i h
      exact (number_ordinary (h ▸ by decide) false).map fun _ h => ⟨⟨h, rfl⟩, Nat.le_refl 1⟩
  iterate 3
    · rename_i h
      exact literal_asRead (h ▸ by decide) trivial
  · exact gives_failAt _ _ _

end Operands

/-- **Expressions.** -/
theorem expr_asRead (p : Parser) : p.expr.Gives I (Expr.AsRead word) Expr.tokens := by
  rw [Parser.expr]
  refine chain_asRead .logic p fun q hq => negation_asRead q fun r hr => ?_
  refine chain_asRead .sum r fun t ht => chain_asRead .relation t fun u hu => ?_
  refine chain_asRead .product u fun v hv => factor_asRead hword v fun x hx => ?_
  have lt : x.remaining < p.remaining := by omega
  exact expr_asRead x
termination_by p.remaining

theorem assignment_asRead (p : Parser) :
    p.assignment.Gives I (fun a => a.1.AsRead word ∧ a.2.AsRead word)
      fun a => 2 + a.1.tokens + a.2.tokens := by
  refine (place_asRead hword p (fun q _ => expr_asRead hword q) false).andThen ?_
  intro q _ dest hdest
  refine gives_expect q rfl fun r _ _ => (expr_asRead hword r).map fun value hvalue => ?_
  refine ⟨⟨hdest, hvalue⟩, ?_⟩
  simp only [Bool.toNat_false]
  omega

end Expressions

/-! ## Declarations of variables -/

section Variables

variable {I : Parser.Law} {word : String → Prop}

theorem bound_asRead (p : Parser) : p.bound.Gives I (fun _ => True) fun _ => 0 := by
  unfold Parser.bound
  split
  · refine gives_expect p rfl fun q _ _ => gives_optional q rfl fun r _ negated => ?_
    refine gives_expect r rfl fun s _ token => ?_
    split
    · exact gives_failAt _ _ _
    · exact gives_expect s rfl fun t _ _ => gives_done t trivial rfl
  · exact gives_done p trivial rfl

variable (hword : ∀ q, I.quiet q → q.kind = .identifier → word (String.ofList q.current.text))

include hword

theorem typeMark_asRead (p : Parser) : p.typeMark.Gives I (TypeMark.AsRead word) fun _ => 0 := by
  unfold Parser.typeMark
  split
  · rename_i h
    exact Step.Gives.behind (TokenKind.not_stops_of_type? h) (gives_done _ trivial rfl) _
  · split
    · exact gives_named p hword fun q _ name hname => gives_done q hname rfl
    · refine gives_expect p rfl fun q _ _ => gives_expect q rfl fun r _ _ => ?_
      have hname : ∀ s : Parser,
          (s.expectName fun t _ name => Step.done t name).Gives I word fun _ => 0 :=
        fun s => gives_named s hword fun t _ name hname => gives_done t hname rfl
      refine (gives_list _ r fun s _ => hname s).andThen fun s _ variants hvariants => ?_
      exact gives_expect s rfl fun t _ _ => gives_done t hvariants (by simp)
    · exact gives_failAt _ _ _

theorem longVariable_asRead (p : Parser) (isGlobal : Bool) :
    (p.longVariable isGlobal).Gives I (fun decl => decl.AsRead word ∧ decl.isGlobal = isGlobal)
      fun _ => 2 := by
  refine gives_expect p rfl fun q _ token => gives_named q hword fun r _ name hname => ?_
  refine gives_expect r rfl fun s _ _ => (typeMark_asRead hword s).andThen fun t _ mark hmark => ?_
  exact (bound_asRead t).map fun _ _ => ⟨⟨⟨hname, hmark⟩, rfl⟩, Nat.le_refl 0⟩

theorem shortVariable_asRead {p : Parser} {ty : Ty} (h : p.kind.type? = some ty) (isGlobal : Bool) :
    (p.shortVariable ty isGlobal).Gives I (fun decl => decl.AsRead word ∧ decl.isGlobal = isGlobal)
      fun _ => 2 := by
  refine Step.Gives.behind (TokenKind.not_stops_of_type? h)
    (gives_named _ hword fun q _ name hname => ?_) _
  exact (bound_asRead q).map fun _ _ => ⟨⟨⟨hname, trivial⟩, rfl⟩, Nat.le_refl 0⟩

theorem parameter_asRead (p : Parser) :
    p.parameter.Gives I (fun decl => decl.AsRead word ∧ decl.isGlobal = false) fun _ => 0 := by
  unfold Parser.parameter
  split
  · rename_i h
    exact (shortVariable_asRead hword h false).resize fun _ => Nat.zero_le _
  · exact (longVariable_asRead hword p false).resize fun _ => Nat.zero_le _

end Variables

/-! ## Statements -/

/-- The tokens of the statements behind `else`, with it. -/
def alternativeTokens : Option (List Stmt) → Nat
  | none => 0
  | some stmts => 1 + blockTokens stmts

section Items

variable {I : Parser → Prop} [Parser.Invariant I] {word : String → Prop} {p : Parser}
  {item : Section → Later p Stmt}
  (hword : ∀ q, I q → q.kind = .identifier → word (String.ofList q.current.text))
  (hitem : ∀ part q lt, (item part q lt).Gives (.of I) (Stmt.AsRead word) Stmt.tokens)

include hitem

theorem block_asRead (part : Section) (stops : List TokenKind) {q : Parser}
    (lt : q.remaining < p.remaining) :
    (q.block stops ((item part).here lt)).Gives (.of I) (BlockAsRead word) blockTokens := by
  intro hq
  obtain ⟨hafter, hstmts⟩ := gives_block stops q _ (fun r _ => hitem part r _) hq
  exact ⟨hafter, fun stmts h => (hstmts stmts h).imp id (And.imp blockAsRead_iff.mpr id)⟩

include hword

theorem branch_asRead : (p.branch item).Gives (.of I) (Stmt.AsRead word) Stmt.tokens := by
  refine gives_expect p rfl fun q _ _ => gives_expect q rfl fun r _ _ => ?_
  refine (expr_asRead hword r).andThen fun s _ cond hcond => gives_expect s rfl fun t _ _ => ?_
  refine gives_expect t rfl fun u _ _ => ?_
  refine (block_asRead hitem .statements _ _).andThen fun v _ yes hyes => ?_
  have halternative : ∀ (q : Parser) (lt : q.remaining < p.remaining),
      (Parser.branch.alternative p q (item .statements) lt).Gives (.of I)
        (fun no => ∀ stmts, no = some stmts → BlockAsRead word stmts) alternativeTokens := by
    intro q lt
    unfold Parser.branch.alternative
    split
    · refine gives_expect q rfl fun r hr _ => ?_
      refine (block_asRead hitem .statements _ (Nat.lt_trans hr lt)).map fun no hno =>
        ⟨fun stmts heq => ?_, Nat.le_of_eq ?_⟩
      · cases heq
        exact hno
      · rw [alternativeTokens, Nat.add_sub_cancel_left]
    · exact gives_done q (fun stmts heq => by cases heq) rfl
  refine (halternative v _).andThen fun w _ no hno => ?_
  refine gives_expect w rfl fun x _ _ => gives_expect x rfl fun y _ _ => gives_done y ?_ ?_
  · cases no with
    | none => exact ⟨hcond, hyes⟩
    | some no => exact ⟨hcond, hyes, hno no rfl⟩
  · cases no <;> rw [Stmt.tokens, alternativeTokens] <;> omega

theorem loop_asRead : (p.loop item).Gives (.of I) (Stmt.AsRead word) Stmt.tokens := by
  refine gives_expect p rfl fun q _ _ => gives_expect q rfl fun r _ _ => ?_
  refine (assignment_asRead hword r).andThen fun s _ a ha => gives_semicolon s fun t _ _ => ?_
  refine (expr_asRead hword t).andThen fun u _ cond hcond => gives_expect u rfl fun v _ _ => ?_
  refine (block_asRead hitem .statements _ _).andThen fun w _ body hbody => ?_
  refine gives_expect w rfl fun x _ _ => gives_expect x rfl fun y _ _ => gives_done y ?_ ?_
  · exact ⟨ha.1, ha.2, hcond, hbody⟩
  · rw [Stmt.tokens]
    omega

theorem procedure_asRead (isGlobal : Bool) (line : Nat) :
    (p.procedure isGlobal line item).Gives (.of I) (Stmt.AsRead word) Stmt.tokens := by
  refine gives_expect p rfl fun q _ _ => gives_named q hword fun r _ name hname => ?_
  refine gives_expect r rfl fun s _ _ =>
    (typeMark_asRead hword s).andThen fun t _ result hresult => ?_
  refine gives_expect t rfl fun u _ _ => ?_
  refine (gives_list _ u fun v _ => parameter_asRead hword v).andThen fun v _ params hparams => ?_
  refine gives_expect v rfl fun w _ _ => ?_
  refine (block_asRead hitem .declarations _ _).andThen fun x _ locals hlocals => ?_
  refine gives_expect x rfl fun y _ _ => ?_
  refine (block_asRead hitem .statements _ _).andThen fun z _ body hbody => ?_
  refine gives_expect z rfl fun z' _ _ => gives_expect z' rfl fun z'' _ _ => gives_done z'' ?_ ?_
  · exact ⟨⟨hname, hresult, hparams⟩, blockAsRead_iff.mpr (List.forall_mem_append.mpr
      ⟨blockAsRead_iff.mp hlocals, blockAsRead_iff.mp hbody⟩)⟩
  · have hlength : (params.map fun _ => 0 + 1).sum = params.length := by
      simp only [List.map_const', List.sum_replicate_nat, Nat.zero_add, Nat.mul_one]
    rw [Stmt.tokens, blockTokens_append, hlength]
    dsimp only
    omega

theorem declarationRest_asRead (isGlobal : Bool) (line : Nat) :
    (p.declarationRest isGlobal line item).Gives (.of I) (Stmt.AsRead word) Stmt.tokens := by
  unfold Parser.declarationRest
  split
  · rename_i h
    exact (shortVariable_asRead hword h isGlobal).map fun _ hdecl => ⟨hdecl.1, Nat.le_refl 2⟩
  · split
    · exact procedure_asRead hword hitem isGlobal line
    · exact (longVariable_asRead hword p isGlobal).map fun _ hdecl => ⟨hdecl.1, Nat.le_refl 2⟩
    · refine gives_expect p rfl fun q _ _ => gives_named q hword fun r _ name hname => ?_
      refine gives_expect r rfl fun s _ _ => (typeMark_asRead hword s).map fun _ hmark => ?_
      exact ⟨⟨hname, hmark⟩, Nat.le_refl 0⟩
    · exact gives_failAt _ _ _

theorem declaration_asRead : (p.declaration item).Gives (.of I) (Stmt.AsRead word) Stmt.tokens :=
  gives_optional p rfl fun _ _ isGlobal =>
    declarationRest_asRead hword (fun part r _ => hitem part r _) isGlobal p.line

theorem statement_asRead : (p.statement item).Gives (.of I) (Stmt.AsRead word) Stmt.tokens := by
  unfold Parser.statement
  split
  · exact branch_asRead hword hitem
  · exact loop_asRead hword hitem
  · refine gives_expect p rfl fun q _ _ => (expr_asRead hword q).map fun value h =>
      ⟨h, Nat.le_of_eq ?_⟩
    rw [Stmt.tokens, Nat.add_sub_cancel_left]
  · split
    · have hcall := call_asRead (I := .of I) hword p fun q _ => expr_asRead hword q
      exact hcall.map fun call h => ⟨h, Nat.le_of_eq (Stmt.tokens.eq_2 ..)⟩
    · exact (assignment_asRead hword p).map fun a h => ⟨h, Nat.le_of_eq (Stmt.tokens.eq_1 ..)⟩
  case h_13 => exact gives_failAt _ _ _
  all_goals exact declaration_asRead hword hitem

end Items

/-- **What is read as an item**: its literals are ordinary, its names are those of identifiers, and
it has no types. -/
theorem item_asRead {I : Parser → Prop} [Parser.Invariant I] {word : String → Prop}
    (hword : ∀ q, I q → q.kind = .identifier → word (String.ofList q.current.text))
    (part : Section) (p : Parser) : (p.item part).Gives (.of I) (Stmt.AsRead word) Stmt.tokens := by
  cases part with
  | declarations =>
    rw [Parser.item]
    exact declaration_asRead hword fun inner q _ => item_asRead hword inner q
  | statements =>
    rw [Parser.item]
    exact statement_asRead hword fun inner q _ => item_asRead hword inner q
termination_by p.remaining

/-- **Reading an item** leaves fewer tokens, by those of the item. -/
theorem nextItem_covers {part : Section} {p q : Parser} {stmt : Stmt}
    {lt : q.remaining < p.remaining} (h : p.nextItem part = .item stmt q lt) :
    stmt.tokens + q.remaining ≤ p.remaining := by
  have hitem : (p.item part).Gives (.of Parser.Any) (Stmt.AsRead fun _ => True) Stmt.tokens :=
    item_asRead (fun _ _ _ => trivial) part p
  exact (hitem.parsed trivial (nextItem_parsed h)).2.2

end ProcLang
