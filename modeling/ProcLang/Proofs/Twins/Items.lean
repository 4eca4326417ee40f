import ProcLang.Proofs.Twins

/-!
# What twins read

Related parsers read the same, production by production: expressions (`Twins.expr`), items of a
section (`Twins.item`), and whole programs, at once (`Twins.program`) or item by item
(`Twins.nextItem`). Along with what is read, the parsers behind it are related again.
-/

namespace ProcLang

namespace Sight

variable (sight : Sight) (line : Nat)

/-! ## What is seen of a tree -/

/-- What is seen of an expression. -/
abbrev expr : Expr → Expr :=
  sight.see Expr.unlined

/-- What is seen of a mention of a variable. -/
abbrev place : Place → Place :=
  sight.see Place.unlined

/-- What is seen of a declared variable. -/
abbrev decl : VariableDecl → VariableDecl :=
  sight.see VariableDecl.unlined

/-- What is seen of a statement. -/
abbrev stmt : Stmt → Stmt :=
  sight.see Stmt.unlined

@[simp]
theorem see_literal (value : Literal) : sight.expr (.literal value line none) =
    .literal value (sight.line line) none := by
  cases sight <;> rfl

@[simp]
theorem see_read (place : Place) : sight.expr (.read place line none) =
    .read (sight.place place) (sight.line line) none := by
  cases sight <;> rfl

@[simp]
theorem see_not (e : Expr) : sight.expr (.not e line none) =
    .not (sight.expr e) (sight.line line) none := by
  cases sight <;> rfl

@[simp]
theorem see_binary (op : BinaryOp) (lhs rhs : Expr) :
    sight.expr (.binary op lhs rhs lhs.line none) =
      .binary op (sight.expr lhs) (sight.expr rhs)
        (sight.expr lhs).line none := by
  cases sight <;> cases lhs <;> rfl

@[simp]
theorem see_call (callee : String) (args : List Expr) :
    sight.expr (.call callee args line none) =
      .call callee (args.map sight.expr) (sight.line line) none := by
  cases sight <;> simp [Sight.line, Expr.unlined, argsUnlined_eq_map]

@[simp]
theorem see_whole (name : String) (negated : Bool) :
    sight.place (.whole name negated line) = .whole name negated (sight.line line) := by
  cases sight <;> rfl

@[simp]
theorem see_element (name : String) (index : Expr) (negated : Bool) :
    sight.place (.element name index negated line) =
      .element name (sight.expr index) negated (sight.line line) := by
  cases sight <;> rfl

@[simp]
theorem see_decl (name : String) (mark : TypeMark) (isGlobal : Bool) (bound : Option Int) :
    sight.decl ⟨name, mark, isGlobal, bound, line⟩ =
      ⟨name, mark, isGlobal, bound, sight.line line⟩ := by
  cases sight <;> rfl

@[simp]
theorem see_assign (dest : Place) (value : Expr) :
    sight.stmt (.assign dest value line) =
      .assign (sight.place dest) (sight.expr value) (sight.line line) := by
  cases sight <;> simp [Sight.line, Stmt.unlined]

@[simp]
theorem see_declare (decl : VariableDecl) : sight.stmt (.declare decl line) =
    .declare (sight.decl decl) (sight.line line) := by
  cases sight <;> simp [Sight.line, Stmt.unlined]

@[simp]
theorem see_declareType (name : String) (mark : TypeMark) (isGlobal : Bool) :
    sight.stmt (.declareType name mark isGlobal line) =
      .declareType name mark isGlobal (sight.line line) := by
  cases sight <;> simp [Sight.line, Stmt.unlined]

@[simp]
theorem see_branch (cond : Expr) (yes : List Stmt) (no : Option (List Stmt)) :
    sight.stmt (.branch cond yes no line) =
      .branch (sight.expr cond) (yes.map sight.stmt)
        (no.map (List.map sight.stmt)) (sight.line line) := by
  cases sight <;> simp [Sight.line, Stmt.unlined_branch]

@[simp]
theorem see_loop (dest : Place) (value cond : Expr) (body : List Stmt) :
    sight.stmt (.loop dest value cond body line) =
      .loop (sight.place dest) (sight.expr value)
        (sight.expr cond) (body.map sight.stmt) (sight.line line) := by
  cases sight <;> simp [Sight.line, Stmt.unlined, blockUnlined_eq_map]

@[simp]
theorem see_result (value : Expr) : sight.stmt (.result value line) =
    .result (sight.expr value) (sight.line line) := by
  cases sight <;> simp [Sight.line, Stmt.unlined]

@[simp]
theorem see_procedure (name : String) (result : TypeMark) (params : List VariableDecl)
    (isGlobal : Bool) (body : List Stmt) :
    sight.stmt (.procedure ⟨name, result, params, isGlobal⟩ body line) =
      .procedure ⟨name, result, params.map sight.decl, isGlobal⟩
        (body.map sight.stmt) (sight.line line) := by
  cases sight <;> simp [Sight.line, Stmt.unlined, Heading.unlined, blockUnlined_eq_map]

@[simp]
theorem see_callStmt (call : Expr) : sight.stmt (.call call line) =
    .call (sight.expr call) (sight.line line) := by
  cases sight <;> simp [Sight.line, Stmt.unlined]

end Sight

namespace Twins

variable {sight : Sight} {R : Parser → Parser → Prop} (tw : Twins sight R)

/-! ## Expressions -/

section Expressions

variable {p q : Parser}

include tw

theorem chainRest (level : Level) {p q : Parser} {operand : Here p Expr} {operand' : Here q Expr}
    {lhs lhs' : Expr} (h : R p q)
    (hoperand : ∀ p' q' le le', R p' q' → (operand p' le).Agree R sight.expr (operand' q' le'))
    (hlhs : sight.expr lhs = sight.expr lhs') :
    (p.chainRest level operand lhs).Agree R sight.expr (q.chainRest level operand' lhs') := by
  have hkind := tw.kind h
  rw [Parser.chainRest, Parser.chainRest]
  split <;> split
  · exact agree_done h hlhs
  · rename_i hp op hq
    simp [← hkind, hp] at hq
  · rename_i op hp hq
    simp [← hkind, hp] at hq
  · rename_i op hp op' hq
    have lt : p.advance.remaining < p.remaining :=
      Parser.advance_remaining_lt (Level.ne_eof_of_op? hp)
    obtain rfl : op = op' := Option.some.inj (hp.symm.trans (hkind ▸ hq))
    refine ((hoperand _ _ _ _ (tw.advance h)).andThen
      fun p' q' le le' rhs rhs' h' hrhs => ?_).within _ _
    exact chainRest level h' (fun r r' _ _ hr => hoperand r r' _ _ hr) (by simp [hlhs, hrhs])
termination_by p.remaining

theorem chain (level : Level) {operand : Here p Expr} {operand' : Here q Expr} (h : R p q)
    (hoperand : ∀ p' q' le le', R p' q' → (operand p' le).Agree R sight.expr (operand' q' le')) :
    (p.chain level operand).Agree R sight.expr (q.chain level operand') :=
  (hoperand p q _ _ h).andThen fun _ _ _ _ _ _ h' hlhs =>
    tw.chainRest level h' (fun r r' _ _ hr => hoperand r r' _ _ hr) hlhs

theorem negation {operand : Here p Expr} {operand' : Here q Expr} (h : R p q)
    (hoperand : ∀ p' q' le le', R p' q' → (operand p' le).Agree R sight.expr (operand' q' le')) :
    (p.negation operand).Agree R sight.expr (q.negation operand') := by
  unfold Parser.negation
  rw [← tw.kind h]
  split
  · refine Step.Agree.within (Step.Agree.map (hoperand _ _ _ _ (tw.advance h)) ?_) _ _
    exact fun e e' he => by simp [he, tw.line h]
  · exact hoperand p q _ _ h

variable {later : Later p Expr} {later' : Later q Expr}
  (hlater : ∀ p' q' lt lt', R p' q' → (later p' lt).Agree R sight.expr (later' q' lt'))

theorem number (negated : Bool) (h : R p q) (hkind : p.kind = .integer ∨ p.kind = .float)
    {line line' : Nat} (hline : sight.line line = sight.line line') :
    ((p.number negated).map (Expr.literal · line none)).Agree R sight.expr
      ((q.number negated).map (Expr.literal · line' none)) := by
  have hnumber : (p.number negated).Agree R id (q.number negated) := by
    unfold Parser.number
    dsimp only
    rw [← (tw.current h).number hkind]
    cases Parser.numberValue? negated p.current with
    | some value => exact (agree_done (tw.advance h) rfl).within _ _
    | none => exact (tw.failAt (tw.advance h) (tw.current h).position _ rfl).within _ _
  refine hnumber.map ?_
  rintro value _ rfl
  simp [hline]

include hlater

theorem place (negated : Bool) (h : R p q) :
    (p.place negated later).Agree R sight.place (q.place negated later') := by
  refine tw.expectName h fun p1 q1 _ _ name h1 => ?_
  rw [← tw.kind h1]
  split
  · refine tw.expect h1 _ fun p2 q2 _ _ _ _ h2 _ => ?_
    refine (hlater _ _ _ _ h2).andThen fun p3 q3 _ _ index index' h3 hindex => ?_
    refine tw.expect h3 _ fun p4 q4 _ _ _ _ h4 _ => agree_done h4 ?_
    simp [hindex, tw.line h]
  · exact agree_done h1 (by simp [tw.line h])

theorem call (h : R p q) : (p.call later).Agree R sight.expr (q.call later') := by
  refine tw.expectName h fun p1 q1 _ _ callee h1 => tw.expect h1 _ fun p2 q2 _ _ _ _ h2 _ => ?_
  refine (tw.list _ h2 fun r r' _ _ hr => hlater r r' _ _ hr).andThen
    fun p3 q3 _ _ args args' h3 hargs => ?_
  exact tw.expect h3 _ fun p4 q4 _ _ _ _ h4 _ => agree_done h4 (by simp [hargs, tw.line h])

theorem signed {line line' : Nat} (hline : sight.line line = sight.line line') (h : R p q) :
    (p.signed line later).Agree R sight.expr (q.signed line' later') := by
  unfold Parser.signed
  rw [← tw.kind h]
  split
  · exact (tw.place hlater true h).map fun place place' hplace => by simp [hplace, hline]
  · exact tw.number true h (Or.inl (by assumption)) hline
  · exact tw.number true h (Or.inr (by assumption)) hline
  · exact tw.fail h _ rfl

theorem factor (h : R p q) : (p.factor later).Agree R sight.expr (q.factor later') := by
  have hliteral : ∀ value, (p.literal value).Agree R sight.expr (q.literal value) :=
    fun _ => (agree_done (tw.advance h) (by simp [tw.line h])).within _ _
  unfold Parser.factor
  rw [← tw.kind h]
  split
  · refine tw.expect h _ fun p1 q1 _ _ _ _ h1 _ => ?_
    refine (hlater _ _ _ _ h1).andThen fun p2 q2 _ _ inner inner' h2 hinner => ?_
    exact tw.expect h2 _ fun p3 q3 _ _ _ _ h3 _ => agree_done h3 hinner
  · rename_i hkind
    rw [← tw.next h (hkind ▸ by decide)]
    split
    · exact tw.call hlater h
    · exact (tw.place hlater false h).map fun place place' hplace => by simp [hplace, tw.line h]
  · refine Step.Agree.within (tw.signed ?_ (tw.line h) (tw.advance h)) _ _
    exact fun r r' _ _ hr => hlater r r' _ _ hr
  · exact tw.number false h (Or.inl (by assumption)) (tw.line h)
  · exact tw.number false h (Or.inr (by assumption)) (tw.line h)
  · rw [← (tw.current h).string (by assumption)]
    exact hliteral _
  · exact hliteral _
  · exact hliteral _
  · exact tw.fail h _ rfl

omit hlater in
/-- **Expressions.** -/
theorem expr {p q : Parser} (h : R p q) : p.expr.Agree R sight.expr q.expr := by
  rw [Parser.expr, Parser.expr]
  refine tw.chain .logic h fun p1 q1 _ _ h1 => tw.negation h1 fun p2 q2 _ _ h2 => ?_
  refine tw.chain .sum h2 fun p3 q3 _ _ h3 => tw.chain .relation h3 fun p4 q4 _ _ h4 => ?_
  refine tw.chain .product h4 fun p5 q5 _ _ h5 => tw.factor (fun p6 q6 _ _ h6 => ?_) h5
  have lt : p6.remaining < p.remaining := by omega
  exact expr h6
termination_by p.remaining

end Expressions

/-! ## Declarations -/

section Declarations

variable {p q : Parser}

include tw

theorem bound (h : R p q) : p.bound.Agree R id q.bound := by
  unfold Parser.bound
  rw [← tw.kind h]
  split
  · refine tw.expect h _ fun p1 q1 _ _ _ _ h1 _ => tw.optional h1 _ fun p2 q2 _ _ negated h2 => ?_
    refine tw.expectToken h2 _ fun p3 q3 _ _ t u h3 hinteger htoken => ?_
    rw [← htoken.integer hinteger]
    cases Literal.integerValue? t.text with
    | none => exact tw.failAt h3 htoken.position _ rfl
    | some value => exact tw.expect h3 _ fun p4 q4 _ _ _ _ h4 _ => agree_done h4 rfl
  · exact agree_done h rfl

theorem typeMark (h : R p q) : p.typeMark.Agree R id q.typeMark := by
  unfold Parser.typeMark
  rw [← tw.kind h]
  split
  · exact (agree_done (tw.advance h) rfl).within _ _
  · split
    · exact tw.expectName h fun p1 q1 _ _ name h1 => agree_done h1 rfl
    · have hname : ∀ r r', R r r' → Step.Agree R (@id String)
          (r.expectName fun t _ name => Step.done t name)
          (r'.expectName fun t _ name => Step.done t name) := fun r r' hr =>
        tw.expectName hr fun _ _ _ _ _ h' => agree_done h' rfl
      refine tw.expect h _ fun p1 q1 _ _ _ _ h1 _ => tw.expect h1 _ fun p2 q2 _ _ _ _ h2 _ => ?_
      refine (tw.list _ h2 fun r r' _ _ hr => hname r r' hr).andThen
        fun p3 q3 _ _ names names' h3 hsame => ?_
      rw [List.map_id, List.map_id] at hsame
      exact tw.expect h3 _ fun p4 q4 _ _ _ _ h4 _ => agree_done h4 (by rw [hsame])
    · exact tw.fail h _ rfl

theorem longVariable (isGlobal : Bool) (h : R p q) :
    (p.longVariable isGlobal).Agree R sight.decl (q.longVariable isGlobal) := by
  refine tw.expect h _ fun p1 q1 _ _ t u h1 htoken => tw.expectName h1 fun p2 q2 _ _ name h2 => ?_
  refine tw.expect h2 _ fun p3 q3 _ _ _ _ h3 _ => ?_
  refine (tw.typeMark h3).andThen fun p4 q4 _ _ mark mark' h4 hmark => ?_
  obtain rfl : mark = mark' := hmark
  refine (tw.bound h4).map ?_
  rintro bound _ rfl
  simp [Sight.line_of_position htoken.position]

theorem shortVariable (ty : Ty) (isGlobal : Bool) (h : R p q) :
    (p.shortVariable ty isGlobal).Agree R sight.decl (q.shortVariable ty isGlobal) := by
  refine (tw.expectName (tw.advance h) fun p1 q1 _ _ name h1 => ?_).within _ _
  refine (tw.bound h1).map ?_
  rintro bound _ rfl
  simp [tw.line h]

theorem parameter (h : R p q) : p.parameter.Agree R sight.decl q.parameter := by
  unfold Parser.parameter
  rw [← tw.kind h]
  split
  · exact tw.shortVariable _ false h
  · exact tw.longVariable false h

end Declarations

/-! ## Items and their semicolons -/

end Twins

/-- Two outcomes of looking for a semicolon are of one kind and end at related parsers. -/
def Recovery.Agree {p q : Parser} (R : Parser → Parser → Prop) : Recovery p → Recovery q → Prop
  | .resumed p' _, .resumed q' _ => R p' q'
  | .ended p' _, .ended q' _ => R p' q'
  | _, _ => False

/-- Two outcomes of reading an item with its semicolon are of one kind, show the same item, and end
at related parsers. -/
def Item.Agree {p q : Parser} {α : Type} (R : Parser → Parser → Prop) (view : Stmt → α) :
    Item p → Item q → Prop
  | .parsed stmt p' _, .parsed stmt' q' _ => view stmt = view stmt' ∧ R p' q'
  | .skipped p' _, .skipped q' _ => R p' q'
  | .ended p' _, .ended q' _ => R p' q'
  | _, _ => False

/-- Two outcomes of asking for an item are of one kind, show the same item, and end at related
parsers. -/
def Next.Agree {p q : Parser} {α : Type} (R : Parser → Parser → Prop) (view : Stmt → α) :
    Next p → Next q → Prop
  | .item stmt p' _, .item stmt' q' _ => view stmt = view stmt' ∧ R p' q'
  | .recovered p' _, .recovered q' _ => R p' q'
  | .finished p' _, .finished q' _ => R p' q'
  | .ended p' _, .ended q' _ => R p' q'
  | _, _ => False

namespace Twins

variable {sight : Sight} {R : Parser → Parser → Prop} (tw : Twins sight R)

section Items

variable {p q : Parser} {α : Type} {view : Stmt → α}

include tw

theorem recover {p q : Parser} (h : R p q) : Recovery.Agree R p.recover q.recover := by
  have hkind := tw.kind h
  rw [Parser.recover.eq_1 p, Parser.recover.eq_1 q]
  by_cases hend : p.kind = .eof
  · rw [dif_pos hend, dif_pos (hkind ▸ hend)]
    exact h
  · have lt : p.advance.remaining < p.remaining := Parser.advance_remaining_lt hend
    rw [dif_neg hend, dif_neg (hkind ▸ hend)]
    dsimp only
    by_cases hp : p.kind = .semicolon
    · rw [if_pos hp, if_pos (hkind ▸ hp)]
      exact tw.advance h
    · rw [if_neg hp, if_neg (hkind ▸ hp)]
      have rest := recover (tw.advance h)
      cases hrp : p.advance.recover <;> cases hrq : q.advance.recover <;>
        simp_all [Recovery.Agree]
termination_by p.remaining

theorem skip {p' q' : Parser} (le : p'.remaining ≤ p.remaining) (le' : q'.remaining ≤ q.remaining)
    (h : R p' q') : Item.Agree R view (Step.item.skip p' le) (Step.item.skip q' le') := by
  have hrecover := tw.recover h
  unfold Step.item.skip
  cases hp : p'.recover <;> cases hq : q'.recover <;> simp_all [Recovery.Agree, Item.Agree]

theorem item {s : Step p Stmt} {t : Step q Stmt} (h : s.Agree R view t) :
    Item.Agree R view s.item t.item := by
  obtain ⟨value, p', le⟩ := s
  obtain ⟨value', q', le'⟩ := t
  obtain ⟨hvalue, hafter⟩ := h
  dsimp only at hafter
  unfold Step.item
  cases value with
  | none =>
    cases value' with
    | none => exact tw.skip le le' hafter
    | some stmt' => simp at hvalue
  | some stmt =>
    cases value' with
    | none => simp at hvalue
    | some stmt' =>
      have hkind := tw.kind hafter
      dsimp only
      by_cases hp : p'.kind = .semicolon
      · rw [dif_pos hp, dif_pos (hkind ▸ hp)]
        exact ⟨by simpa using hvalue, tw.advance hafter⟩
      · rw [dif_neg hp, dif_neg (hkind ▸ hp)]
        have hreport : R (p'.report (.unexpected .semicolon p'.kind))
            (q'.report (.unexpected .semicolon q'.kind)) :=
          hkind ▸ tw.report _ rfl hafter (tw.current hafter).position
        have lep : (p'.report (.unexpected .semicolon p'.kind)).remaining ≤ p.remaining := le
        have leq : (q'.report (.unexpected .semicolon q'.kind)).remaining ≤ q.remaining := le'
        exact tw.skip lep leq hreport

theorem block (stops : List TokenKind) {p q : Parser} {item : Here p Stmt} {item' : Here q Stmt}
    (h : R p q) (hitem : ∀ p' q' le le', R p' q' → (item p' le).Agree R view (item' q' le')) :
    (p.block stops item).Agree R (List.map view) (q.block stops item') := by
  have hkind := tw.kind h
  rw [Parser.block, Parser.block, ← hkind]
  split
  · exact agree_done h rfl
  · split
    · exact tw.fail h _ rfl
    · have hread := tw.item (hitem p q (Nat.le_refl _) (Nat.le_refl _) h)
      change Item.Agree R view item.run.item item'.run.item at hread
      have hrest : ∀ {p' q'} (lt : p'.remaining < p.remaining) (lt' : q'.remaining < q.remaining),
          R p' q' → (p'.block stops (item.mono (Nat.le_of_lt lt))).Agree R (List.map view)
            (q'.block stops (item'.mono (Nat.le_of_lt lt'))) :=
        fun lt lt' h' => block stops h' fun r r' _ _ hr => hitem r r' _ _ hr
      -- Outcomes of two kinds do not agree.
      cases hp : item.run.item <;> cases hq : item'.run.item <;> rw [hp, hq] at hread <;>
        try exact False.elim hread
      case parsed.parsed stmt p' lt stmt' q' lt' =>
        refine ((hrest lt lt' hread.2).map fun stmts stmts' hmap => ?_).within _ _
        rw [List.map_cons, List.map_cons, hread.1, hmap]
      case skipped.skipped p' lt q' lt' => exact (hrest lt lt' hread).within _ _
      case ended.ended p' le q' le' => exact (tw.fail hread _ rfl).within _ _
termination_by p.remaining

end Items

/-! ## Statements -/

section Statements

variable {p q : Parser}

include tw

theorem assignment (h : R p q) : p.assignment.Agree R
    (fun a => (sight.place a.1, sight.expr a.2)) q.assignment := by
  refine (tw.place (fun r r' _ _ hr => tw.expr hr) false h).andThen
    fun p1 q1 _ _ dest dest' h1 hdest => tw.expect h1 _ fun p2 q2 _ _ _ _ h2 _ => ?_
  exact (tw.expr h2).map fun value value' hvalue => Prod.ext hdest hvalue

variable {item : Section → Later p Stmt} {item' : Section → Later q Stmt}
  (hitem : ∀ part p' q' lt lt', R p' q' →
    (item part p' lt).Agree R sight.stmt (item' part q' lt'))

include hitem

theorem procedure (isGlobal : Bool) {line line' : Nat} (hline : sight.line line = sight.line line')
    (h : R p q) :
    (p.procedure isGlobal line item).Agree R sight.stmt (q.procedure isGlobal line' item') := by
  refine tw.expect h _ fun p1 q1 _ _ _ _ h1 _ => tw.expectName h1 fun p2 q2 _ _ name h2 => ?_
  refine tw.expect h2 _ fun p3 q3 _ _ _ _ h3 _ => ?_
  refine (tw.typeMark h3).andThen fun p4 q4 _ _ result result' h4 hresult => ?_
  obtain rfl : result = result' := hresult
  refine tw.expect h4 _ fun p5 q5 _ _ _ _ h5 _ => ?_
  refine (tw.list _ h5 fun r r' _ _ hr => tw.parameter hr).andThen
    fun p6 q6 _ _ params params' h6 hparams => tw.expect h6 _ fun p7 q7 _ _ _ _ h7 _ => ?_
  refine (tw.block _ h7 fun r r' _ _ hr => hitem _ r r' _ _ hr).andThen
    fun p8 q8 _ _ locals locals' h8 hlocals => tw.expect h8 _ fun p9 q9 _ _ _ _ h9 _ => ?_
  refine (tw.block _ h9 fun r r' _ _ hr => hitem _ r r' _ _ hr).andThen
    fun p' q' _ _ body body' h' hbody => tw.expect h' _ fun p'' q'' _ _ _ _ h'' _ => ?_
  refine tw.expect h'' _ fun _ _ _ _ _ _ hlast _ => agree_done hlast ?_
  simp [hparams, hlocals, hbody, hline]

theorem declarationRest (isGlobal : Bool) {line line' : Nat}
    (hline : sight.line line = sight.line line') (h : R p q) :
    (p.declarationRest isGlobal line item).Agree R sight.stmt
      (q.declarationRest isGlobal line' item') := by
  unfold Parser.declarationRest
  rw [← tw.kind h]
  split
  · exact (tw.shortVariable _ isGlobal h).map fun _ _ hdecl => by simp [hdecl, hline]
  · split
    · exact tw.procedure hitem isGlobal hline h
    · exact (tw.longVariable isGlobal h).map fun _ _ hdecl => by simp [hdecl, hline]
    · refine tw.expect h _ fun p1 q1 _ _ _ _ h1 _ => ?_
      refine tw.expectName h1 fun p2 q2 _ _ name h2 => tw.expect h2 _ fun p3 q3 _ _ _ _ h3 _ => ?_
      refine (tw.typeMark h3).map ?_
      rintro mark _ rfl
      simp [hline]
    · exact tw.fail h _ rfl

theorem declaration (h : R p q) : (p.declaration item).Agree R sight.stmt (q.declaration item') :=
  tw.optional h _ fun _ _ _ _ isGlobal h1 =>
    tw.declarationRest (fun part r r' _ _ hr => hitem part r r' _ _ hr) isGlobal (tw.line h) h1

theorem branch (h : R p q) : (p.branch item).Agree R sight.stmt (q.branch item') := by
  have halternative : ∀ p' q' lt lt', R p' q' →
      (Parser.branch.alternative p p' (item .statements) lt).Agree R
        (Option.map (List.map sight.stmt))
        (Parser.branch.alternative q q' (item' .statements) lt') := by
    intro p' q' lt lt' h'
    unfold Parser.branch.alternative
    rw [← tw.kind h']
    split
    · refine tw.expect h' _ fun p'' q'' _ _ _ _ h'' _ => ?_
      refine (tw.block _ h'' fun r r' _ _ hr => hitem _ r r' _ _ hr).map fun no no' hno => ?_
      rw [Option.map_some, Option.map_some, hno]
    · exact agree_done h' rfl
  refine tw.expect h _ fun p1 q1 _ _ _ _ h1 _ => tw.expect h1 _ fun p2 q2 _ _ _ _ h2 _ => ?_
  refine (tw.expr h2).andThen fun p3 q3 _ _ cond cond' h3 hcond => ?_
  refine tw.expect h3 _ fun p4 q4 _ _ _ _ h4 _ => tw.expect h4 _ fun p5 q5 _ _ _ _ h5 _ => ?_
  refine (tw.block _ h5 fun r r' _ _ hr => hitem _ r r' _ _ hr).andThen
    fun p6 q6 _ _ yes yes' h6 hyes => ?_
  refine (halternative _ _ _ _ h6).andThen fun p7 q7 _ _ no no' h7 hno => ?_
  refine tw.expect h7 _ fun p8 q8 _ _ _ _ h8 _ => tw.expect h8 _ fun p9 q9 _ _ _ _ h9 _ => ?_
  exact agree_done h9 (by simp [hcond, hyes, hno, tw.line h])

theorem loop (h : R p q) : (p.loop item).Agree R sight.stmt (q.loop item') := by
  refine tw.expect h _ fun p1 q1 _ _ _ _ h1 _ => tw.expect h1 _ fun p2 q2 _ _ _ _ h2 _ => ?_
  refine (tw.assignment h2).andThen fun p3 q3 _ _ a a' h3 ha => ?_
  obtain ⟨hdest, hvalue⟩ := Prod.mk.inj ha
  refine tw.expect h3 _ fun p4 q4 _ _ _ _ h4 _ => ?_
  refine (tw.expr h4).andThen fun p5 q5 _ _ cond cond' h5 hcond => ?_
  refine tw.expect h5 _ fun p6 q6 _ _ _ _ h6 _ => ?_
  refine (tw.block _ h6 fun r r' _ _ hr => hitem _ r r' _ _ hr).andThen
    fun p7 q7 _ _ body body' h7 hbody => ?_
  refine tw.expect h7 _ fun p8 q8 _ _ _ _ h8 _ => tw.expect h8 _ fun p9 q9 _ _ _ _ h9 _ => ?_
  exact agree_done h9 (by simp [hdest, hvalue, hcond, hbody, tw.line h])

theorem statement (h : R p q) : (p.statement item).Agree R sight.stmt (q.statement item') := by
  unfold Parser.statement
  rw [← tw.kind h]
  split
  · exact tw.branch hitem h
  · exact tw.loop hitem h
  · refine tw.expect h _ fun p1 q1 _ _ _ _ h1 _ => ?_
    exact (tw.expr h1).map fun _ _ hvalue => by simp [hvalue, tw.line h]
  · rename_i hkind
    rw [← tw.next h (hkind ▸ by decide)]
    split
    · refine (tw.call (fun r r' _ _ hr => tw.expr hr) h).map fun _ _ hcall => ?_
      simp [hcall, tw.line h]
    · refine (tw.assignment h).map fun a a' ha => ?_
      obtain ⟨hdest, hvalue⟩ := Prod.mk.inj ha
      simp [hdest, hvalue, tw.line h]
  case h_13 => exact tw.fail h _ rfl
  all_goals exact tw.declaration hitem h

end Statements

include tw

/-- **Items of a section.** -/
theorem sectionItem (part : Section) {p q : Parser} (h : R p q) :
    (p.item part).Agree R sight.stmt (q.item part) := by
  cases part with
  | declarations =>
    rw [Parser.item, Parser.item]
    exact tw.declaration (fun inner r r' _ _ hr => sectionItem inner hr) h
  | statements =>
    rw [Parser.item, Parser.item]
    exact tw.statement (fun inner r r' _ _ hr => sectionItem inner hr) h
termination_by p.remaining

/-! ## Programs -/

variable {p q : Parser}

theorem header (h : R p q) : p.header.Agree R id q.header := by
  refine tw.expect h _ fun p1 q1 _ _ _ _ h1 _ => tw.expectName h1 fun p2 q2 _ _ name h2 => ?_
  exact tw.expect h2 _ fun p3 q3 _ _ _ _ h3 _ => agree_done h3 rfl

theorem trailer (h : R p q) : p.trailer.Agree R id q.trailer := by
  refine tw.expect h _ fun p1 q1 _ _ _ _ h1 _ => tw.expect h1 _ fun p2 q2 _ _ _ _ h2 _ => ?_
  refine tw.expect h2 _ fun p3 q3 _ _ _ _ h3 _ => ?_
  rw [← tw.kind h3]
  split
  · exact agree_done h3 rfl
  · exact tw.fail h3 _ rfl

theorem terminatedItem (part : Section) (h : R p q) :
    Next.Agree R sight.stmt (p.terminatedItem part) (q.terminatedItem part) := by
  have hitem := tw.item (tw.sectionItem part h)
  unfold Parser.terminatedItem
  cases hp : (p.item part).item <;> cases hq : (q.item part).item <;>
    simp_all [Item.Agree, Next.Agree]

/-- **The next item.** -/
theorem nextItem (part : Section) (h : R p q) :
    Next.Agree R sight.stmt (p.nextItem part) (q.nextItem part) := by
  have hkind := tw.kind h
  have hend : Next.Agree R sight.stmt p.prematureEnd q.prematureEnd :=
    tw.report _ rfl h (tw.current h).position
  unfold Parser.nextItem
  cases part with
  | declarations =>
    dsimp only
    rw [← hkind]
    split
    · exact tw.advance h
    · split
      · exact hend
      · exact tw.terminatedItem _ h
  | statements =>
    have hlast : p.kind = .kwEnd ∧ p.next.kind = .kwProgram ↔
        q.kind = .kwEnd ∧ q.next.kind = .kwProgram := by
      rw [← hkind]
      exact and_congr_right fun hp => by rw [tw.next h (hp ▸ by decide)]
    dsimp only
    by_cases hp : p.kind = .kwEnd ∧ p.next.kind = .kwProgram
    · rw [if_pos hp, if_pos (hlast.mp hp)]
      exact (tw.trailer h).after
    · rw [if_neg hp, if_neg (mt hlast.mpr hp), ← hkind]
      split
      · exact hend
      · exact tw.terminatedItem _ h

/-- **The items of a section of a program.** -/
theorem items (part : Section) {p q : Parser} (h : R p q) :
    (p.items part).Agree R (List.map sight.stmt) (q.items part) := by
  have hnext := tw.nextItem part h
  rw [Parser.items, Parser.items]
  cases hp : p.nextItem part <;> cases hq : q.nextItem part <;> rw [hp, hq] at hnext <;>
    try exact False.elim hnext
  case item.item stmt p' lt stmt' q' lt' =>
    refine ((items part hnext.2).map fun stmts stmts' hstmts => ?_).within _ _
    rw [List.map_cons, List.map_cons, hnext.1, hstmts]
  case recovered.recovered p' lt q' lt' => exact (items part hnext).within _ _
  case finished.finished p' le q' le' => exact (agree_done hnext rfl).within _ _
  case ended.ended p' le q' le' => exact ⟨rfl, hnext⟩
termination_by p.remaining

end Twins

end ProcLang
