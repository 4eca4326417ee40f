import ProcLang.Proofs.Stage.Control

/-!
# Simple statements and control structures at a stage

Declarations of variables, assignments, branches and loops keep the invariant. Branches and loops
add blocks and move the cursor among them; `Stage.Continues` follows them from the base where they
start, and `Stage.Continues.takes` says what is left to show at the end: all planned blocks but the
last have ended, and what was written before can still be read.

* `Stage.declareVariable_takes`, `Stage.assign_takes`;
* `Stage.branch_takes`, `Stage.branchElse_takes`, `Stage.loop_takes`, given that the statements
  inside keep the invariant.
-/

namespace ProcLang

open Ir Naming

namespace Stage

variable {D : Headings} {base st st' : Stage} {env : Interface} {cond : Expr} {line : Nat}
  {rest : List Stmt}

/-! ## Declarations -/

/-- The symbol of a variable is bound to storage for it. -/
theorem located_variable {f : Function} {arrays : List Param} {symbol : Symbol} {len : Option Nat}
    (hk : symbol.kind = Lower.variableKind len)
    (hs : Stored env f arrays symbol.binding (Lower.storageType symbol.ty len)) :
    symbol.Located env f arrays := by
  unfold Symbol.Located
  rw [hk]
  cases len <;> exact hs

theorem callable_variable {symbol : Symbol} (len : Option Nat)
    (hk : symbol.kind = Lower.variableKind len) : symbol.Callable env := by
  intro params hp
  rw [hk] at hp
  cases len <;> cases hp

theorem stored_address {f : Function} {arrays : List Param} {name : String} {ty : Ir.Ty}
    (h : ⟨name, ty, .variable⟩ ∈ env.globals) : Stored env f arrays (.address name) ty :=
  ⟨rfl, h⟩

theorem globalStorage_takes (h : st.Sound D) (line : Nat) (name : String) (ty : Ty)
    (len : Option Nat) :
    Takes (calm D) st (Lower.globalStorage line name (Lower.storageType ty len) ty
      (Lower.variableKind len)) fun r st' => ∀ symbol, r = some symbol →
        symbol.kind = Lower.variableKind len ∧
          ∀ f arrays, symbol.Located st'.env f arrays := by
  unfold Lower.globalStorage
  refine (addGlobal_takes h _).bind fun r st1 hs1 _ hr => ?_
  cases r with
  | ok binding =>
    obtain ⟨rfl, hmem⟩ := hr binding rfl
    refine takes_pure hs1 ?_
    rintro _ ⟨⟩
    exact ⟨rfl, fun f arrays => located_variable rfl (stored_address hmem)⟩
  | error e =>
    refine (uniqueName_takes hs1 name).bind fun unique st2 hs2 _ _ => ?_
    refine (addGlobal_takes hs2 _).bind fun r st3 hs3 _ hr => ?_
    cases r with
    | ok binding =>
      obtain ⟨rfl, hmem⟩ := hr binding rfl
      refine takes_pure hs3 ?_
      rintro _ ⟨⟩
      exact ⟨rfl, fun f arrays => located_variable rfl (stored_address hmem)⟩
    | error e =>
      refine (report_takes hs3 line _).mono fun r st' _ _ hr symbol hsome => ?_
      rw [hr.1] at hsome
      cases hsome

theorem storage_takes (h : st.Sound D) (decl : VariableDecl) (ty : Ty) (len : Option Nat) :
    Takes (calm D) st (Lower.storage decl ty len) fun r st' => ∀ symbol, r = some symbol →
      symbol.Callable st'.env ∧ symbol.Located st'.env st'.fn st'.arrays ∧
        (decl.isGlobal = true → ∀ f arrays, symbol.Located st'.env f arrays) := by
  unfold Lower.storage
  cases hglobal : decl.isGlobal with
  | true =>
    refine (globalStorage_takes h decl.line decl.name ty len).mono ?_
    intro r st' _ _ hr symbol hsome
    obtain ⟨hk, hloc⟩ := hr symbol hsome
    exact ⟨callable_variable len hk, hloc _ _, fun _ => hloc⟩
  | false =>
    refine (alloca_takes h decl.name _).bind fun binding st1 hs1 _ hb => ?_
    refine takes_pure hs1 ?_
    rintro _ ⟨⟩
    exact ⟨callable_variable len rfl, located_variable rfl hb, fun hfalse => by cases hfalse⟩

theorem declareVariable_takes (h : st.Sound D) (decl : VariableDecl) :
    Takes (flow D) st (Lower.declareVariable decl) fun _ _ => True := by
  unfold Lower.declareVariable
  refine (orReport_takes h _ _).toFlow.bind fun r st1 hs1 _ _ => ?_
  cases r with
  | none => exact takes_pure hs1 trivial
  | some ty =>
    refine takes_get ?_
    by_cases hd : st1.state.symbols.isDeclared decl.name decl.isGlobal = true
    · rw [if_pos hd]
      exact (report_takes hs1 _ _).toFlow.mono fun _ _ _ _ _ => trivial
    · rw [if_neg hd]
      refine (orReport_takes hs1 _ _).toFlow.bind fun r st2 hs2 _ _ => ?_
      cases r with
      | none => exact takes_pure hs2 trivial
      | some len =>
        refine (storage_takes hs2 decl ty len).toFlow.bind fun r st3 hs3 _ hr => ?_
        cases r with
        | none => exact takes_pure hs3 trivial
        | some symbol =>
          obtain ⟨hcall, hloc, hglobal⟩ := hr symbol rfl
          exact (declare_takes hs3 _ hloc hglobal hcall).mono fun _ _ _ _ _ => trivial

/-! ## Assignments -/

/-- The value of an assignment is one of the type of the variable. -/
theorem openAssign_takes (h : st.Sound D) (line : Nat) (dest : Place) (value : Expr) :
    Takes (calm D) st (Lower.openAssign line dest value) fun r st' => ∀ symbol v,
      r.1 = some (symbol, v) →
        st'.Holds v symbol.ty ∧ symbol.Located st'.env st'.fn st'.arrays := by
  unfold Lower.openAssign
  refine (expr_takes value h).bind ?_
  rintro ⟨result, value'⟩ st1 hs1 - hr
  cases result with
  | none => exact takes_pure hs1 fun _ _ hnone => by cases hnone
  | some found =>
    obtain ⟨u, ty⟩ := found
    refine takes_get ((orReport_takes hs1 _ _).bind fun r st2 hs2 _ hsome => ?_)
    cases r with
    | none => exact takes_pure hs2 fun _ _ hnone => by cases hnone
    | some symbol =>
      obtain ⟨hsymbol, rfl⟩ := hsome symbol rfl
      obtain ⟨hlookup, hname, -, -⟩ :=
        SymbolTable.resolveVariable_cases hs2.symbols.regular hsymbol
      refine takes_get ?_
      by_cases hfit : ty.fits symbol.ty = true
      · have hupdate : st2.state.symbols.update symbol = .ok st2.state.symbols :=
          SymbolTable.update_self hs2.symbols.regular (hname ▸ hlookup)
        simp only [if_pos hfit, hupdate]
        -- the table takes over what it has
        refine takes_same (run_modify _) ?_
        refine (coerce_takes hs2 (hr u ty rfl) hfit).bind fun v st3 hs3 hc3 hv3 => takes_pure hs3 ?_
        rintro _ _ ⟨⟩
        exact ⟨hv3, hc3.located (hs2.located hsymbol)⟩
      · have hne : symbol.ty ≠ ty := by
          rintro rfl
          exact hfit (by cases symbol.ty <;> rfl)
        have hmismatch := SymbolTable.update_mismatch (hname ▸ hlookup) hne
        simp only [if_neg hfit, hmismatch]
        refine (report_takes hs2 line _).bind fun r st3 hs3 _ hr => takes_pure hs3 ?_
        rw [hr.1]
        exact fun _ _ hnone => by cases hnone

theorem assign_takes (h : st.Sound D) (line : Nat) (dest : Place) (value : Expr) :
    Takes (calm D) st (Lower.assign line dest value) fun r st' => st'.Gives r.1 := by
  rw [Lower.assign_eq]
  refine (openAssign_takes h line dest value).bind ?_
  rintro ⟨opened, value'⟩ st1 hs1 - hopened
  cases opened with
  | none => exact takes_pure hs1 (gives_none st1)
  | some opened =>
    obtain ⟨symbol, v⟩ := opened
    obtain ⟨hv, hlocated⟩ := hopened symbol v rfl
    refine (place_takes dest hs1 hlocated).bind ?_
    rintro ⟨address, dest'⟩ st2 hs2 hc2 haddress
    cases address with
    | none => exact takes_pure hs2 (gives_none st2)
    | some address =>
      obtain ⟨hpoints, hoffer⟩ := haddress address rfl
      have hv2 := hc2.holds hv
      have hi : st2.Fits (.store v address) :=
        ⟨rfl, by rw [Instr.Typed, hv2.1]; exact hpoints,
          by simp [Instr.operands, hv2.2, hoffer], by simp [Instr.targets]⟩
      refine (emit_takes hs2 hi rfl).bind fun _ st3 hs3 hc3 _ => ?_
      exact takes_pure hs3 (gives_some (hc3.holds hv2))

/-! ## Going on from a base -/

/-- The step has an answer at the stage, and leads to a sound stage. Seen from the base, the cursor
stays in its block or goes to a new one. -/
def Continues {α : Type} (D : Headings) (base st : Stage) (x : Lower α)
    (post : α → Stage → Prop) : Prop :=
  ∃ a st', x st.state = .ok (a, st'.state) ∧ st'.Sound D ∧ base.Roams D st' ∧ post a st'

section Continues

variable {α β : Type} {x : Lower α} {post : α → Stage → Prop}

theorem continues_pure (h : st.Sound D) (hb : base.Roams D st) {a : α} (ha : post a st) :
    Continues D base st (pure a) post :=
  ⟨a, st, rfl, h, hb, ha⟩

theorem Continues.bind {f : α → Lower β} {post' : β → Stage → Prop}
    (hx : Continues D base st x post)
    (hf : ∀ a st', st'.Sound D → base.Roams D st' → post a st' → Continues D base st' (f a) post') :
    Continues D base st (x >>= f) post' := by
  obtain ⟨a, st', run, hs, hb, ha⟩ := hx
  obtain ⟨b, st'', run', rest⟩ := hf a st' hs hb ha
  exact ⟨b, st'', (run_bind run).trans run', rest⟩

/-- A step whose answer is known. -/
theorem continues_run {a : α} {f : α → Lower β} {post' : β → Stage → Prop}
    (run : x st.state = .ok (a, st'.state)) (h : Continues D base st' (f a) post') :
    Continues D base st (x >>= f) post' := by
  obtain ⟨b, st'', run', rest⟩ := h
  exact ⟨b, st'', (run_bind run).trans run', rest⟩

theorem Takes.continues (hx : Takes (flow D) st x post) (hb : base.Roams D st) :
    Continues D base st x fun a st' => st.Flows D st' ∧ post a st' := by
  obtain ⟨a, st', run, hs, hflow, ha⟩ := hx
  exact ⟨a, st', run, hs, hb.trans hflow.toRoams, hflow, ha⟩

/-- At the end of the statement no block is left over. -/
theorem Continues.takes (hf : st.Flows D base) (hx : Continues D base st x fun a st' =>
    st'.pending = base.pending ∧ post a st') : Takes (flow D) st x post := by
  obtain ⟨a, st', run, hs, hb, hpending, ha⟩ := hx
  exact ⟨a, st', run, hs, hf.trans ⟨hb, hpending⟩, ha⟩

theorem append_continues (h : st.Sound D) (hb : base.Roams D st) (hint : String) :
    Continues D base st (Lower.build (.appendBlock hint)) fun c st' => ∃ n, c = ⟨base.index, n⟩ ∧
      base.Planned n st' ∧ st'.pending = n :: st.pending ∧ st.Roams D st' := by
  refine ⟨_, _, appendBlock_run h hint base.Local, h.append hint _,
    hb.trans (h.append_roams hint _), _, ?_, hb.planned hint, rfl, h.append_roams hint _⟩
  rw [hb.index]

/-- The cursor leaves a block that has ended for a planned one. -/
theorem move_continues (h : st.Sound D) (hb : base.Roams D st) (hended : ¬ st.Open) {n : Nat}
    (hn : base.Planned n st) (pending : List Nat) (hp : ∀ m ∈ st.pending, m = n ∨ m ∈ pending) :
    Continues D base st (Lower.build (.moveTo ⟨base.index, n⟩)) fun _ st' =>
      st'.pending = pending ∧ st.Grows D st' := by
  refine ⟨(), st.move n pending, ?_, h.move_pending hended hn.lt hp, hb.move h hn pending, rfl,
    h.move_grows n pending⟩
  rw [← hb.index]
  exact moveTo_run h n pending

end Continues

/-! ## Branches and loops -/

variable {begun : Lowering} {items : List Stmt}

/-- The statements of a block keep the invariant at all later stages where they come next. -/
def Lowers (D : Headings) (begun : Lowering) (items : List Stmt) (st : Stage) (stmts : List Stmt) :
    Prop :=
  ∀ {st' : Stage}, st'.Sound D → st.Grows D st' → begun.Visits items stmts st'.state →
    Takes (flow D) st' (lowerBlock none stmts) fun r st'' => st''.Gives r.1

theorem Lowers.grows {stmts : List Stmt} (h : st.Lowers D begun items stmts) (hg : st.Grows D st') :
    st'.Lowers D begun items stmts := fun hs hg' => h hs (hg.trans hg')

variable (h : st.Sound D)

include h

/-- The statements of a block, from which control falls through to a planned one. -/
theorem body_runs (hbase : base.Sound D) (hr : base.Roams D st) {t : Nat} (ht : base.Planned t st)
    {stmts : List Stmt} (hstmts : base.Lowers D begun items stmts)
    (hvisit : begun.Visits items stmts st.state) :
    ∃ (last : Result) (lowered : List Stmt) (st1 : Stage) (ended : Bool) (st2 : Stage),
      lowerBlock none stmts st.state = .ok ((last, lowered), st1.state) ∧
      Lower.fallThrough ⟨base.index, t⟩ st1.state = .ok (ended, st2.state) ∧
      st2.Sound D ∧ base.Roams D st2 ∧ st.Grows D st2 ∧ ¬ st2.Open ∧ st2.pending = st.pending := by
  obtain ⟨⟨last, lowered⟩, st1, run1, hs1, hf1, -⟩ := hstmts h hr.toGrows hvisit
  have hr1 := hr.trans hf1.toRoams
  obtain ⟨ended, st2, run2, hs2, hf2, hended2⟩ :=
    fallThrough_takes hs1 hbase hr1 (ht.grows hf1.toGrows)
  refine ⟨last, lowered, st1, ended, st2, run1, run2, hs2, hr1.trans hf2.toRoams,
    hf1.toGrows.trans hf2.toGrows, hended2, ?_⟩
  rw [hf2.pending, hf1.pending]

theorem appendIf_continues (hb : base.Roams D st) (needed : Bool) (hint : String) :
    Continues D base st (Lower.appendIf needed hint) fun c st' => ∃ no : Option Nat,
      no.isSome = needed ∧ c = no.map (⟨base.index, ·⟩) ∧ (∀ n ∈ no, base.Planned n st') ∧
      st'.pending = no.toList ++ st.pending ∧ st.Grows D st' := by
  cases needed with
  | false => exact continues_pure h hb ⟨none, rfl, rfl, by simp, rfl, h.flows_refl.toGrows⟩
  | true =>
    obtain ⟨_, st', run, hs', hb', n, rfl, hn, hp, hr⟩ := append_continues h hb hint
    refine ⟨_, st', run_map run, hs', hb', some n, rfl, rfl, ?_, hp, hr.toGrows⟩
    rintro _ ⟨⟩
    exact hn

/-- Where the first arm of a branch starts: the blocks behind it are planned from where the
condition was computed. -/
theorem openBranch_continues (cond : Expr) (alternative : Bool) :
    ∃ base : Stage, base.Sound D ∧ st.Flows D base ∧
      Continues D base st (Lower.openBranch cond alternative) fun r st' =>
        ∃ (no : Option Nat) (m : Nat), no.isSome = alternative ∧
          r.2 = (⟨base.index, no.getD m⟩, ⟨base.index, m⟩) ∧ (∀ n ∈ no, base.Planned n st') ∧
          base.Planned m st' ∧ st'.pending = m :: (no.toList ++ base.pending) := by
  obtain ⟨⟨value, lowered⟩, st1, run1, hs1, hc1, hv⟩ := expr_takes cond h
  obtain ⟨test, base, run2, hbase, hc2, htest⟩ := condition_takes hs1 cond.line hv
  refine ⟨base, hbase, hc1.toFlows.trans hc2.toFlows, ?_⟩
  refine continues_run run1 (continues_run run2 ?_)
  refine (append_continues hbase hbase.flows_refl.toRoams "then").bind ?_
  rintro _ st3 hs3 hr3 ⟨y, rfl, hy3, hp3, -⟩
  refine (appendIf_continues hs3 hr3 alternative "else").bind ?_
  rintro _ st4 hs4 hr4 ⟨no, hno, rfl, hn4, hp4, hg4⟩
  refine (append_continues hs4 hr4 "merge").bind ?_
  rintro _ st5 hs5 hr5 ⟨m, rfl, hm5, hp5, hg5⟩
  have hy5 := (hy3.grows hg4).grows hg5.toGrows
  have hn5 : ∀ n ∈ no, base.Planned n st5 := fun n hn => (hn4 n hn).grows hg5.toGrows
  have hother : base.Planned (no.getD m) st5 := by
    cases no with
    | none => exact hm5
    | some n => exact hn5 n rfl
  have hcursor : (no.map (⟨base.index, ·⟩)).getD (⟨base.index, m⟩ : Ir.Cursor) =
      ⟨base.index, no.getD m⟩ := by
    cases no <;> rfl
  rw [hcursor]
  refine ((branchOn_takes hs5 hbase hr5 (fun v hv => hr5.holds (htest v hv)) hy5 hother
    hy5).toFlow.continues hr5).bind ?_
  rintro _ st6 hs6 hr6 ⟨hf6, hended6⟩
  have hp6 : st6.pending = m :: (no.toList ++ y :: base.pending) := by
    rw [hf6.pending, hp5, hp4, hp3]
  refine (move_continues hs6 hr6 hended6 (hy5.grows hf6.toGrows) (m :: (no.toList ++ base.pending))
    (by rw [hp6]; grind)).bind ?_
  rintro _ st7 hs7 hr7 ⟨hp7, hg7⟩
  have hg := hf6.toGrows.trans hg7
  exact continues_pure hs7 hr7
    ⟨no, m, hno, rfl, fun n hn => (hn5 n hn).grows hg, hm5.grows hg, hp7⟩

theorem branch_takes {yes : List Stmt}
    (hvisit : begun.Visits items (.branch cond yes none line :: rest) st.state)
    (hyes : st.Lowers D begun items yes) :
    Takes (flow D) st (Stmt.lower (.branch cond yes none line)) fun r st' => st'.Gives r.1 := by
  rw [branch_eq]
  obtain ⟨base, hbase, hf, ⟨lowered, _, _⟩, st1, hopen, hs1, hr1, no, m, hno, ⟨⟩, -, hm1, hp1⟩ :=
    openBranch_continues h cond false
  refine Continues.takes hf (continues_run hopen ?_)
  obtain rfl : no = none := by simpa using hno
  obtain ⟨_, _, _, _, st2, run, run', hs2, hr2, hg2, hended2, hp2⟩ :=
    body_runs hs1 hbase hr1 hm1 (hyes.grows hf.toGrows) (hvisit.arm hopen)
  refine continues_run run (continues_run run' ?_)
  refine (move_continues hs2 hr2 hended2 (hm1.grows hg2) base.pending
    (by simp [hp2, hp1])).bind ?_
  rintro _ st3 hs3 hr3 ⟨hp3, -⟩
  exact continues_pure hs3 hr3 ⟨hp3, gives_none st3⟩

theorem branchElse_takes {yes no : List Stmt}
    (hvisit : begun.Visits items (.branch cond yes (some no) line :: rest) st.state)
    (hyes : st.Lowers D begun items yes) (hno : st.Lowers D begun items no) :
    Takes (flow D) st (Stmt.lower (.branch cond yes (some no) line)) fun r st' =>
      st'.Gives r.1 := by
  rw [branchElse_eq]
  obtain ⟨base, hbase, hf, ⟨lowered, _, _⟩, st1, hopen, hs1, hr1, n?, m, hsome, ⟨⟩, hn1,
    hm1, hp1⟩ :=
    openBranch_continues h cond true
  refine Continues.takes hf (continues_run hopen ?_)
  obtain ⟨n, rfl⟩ := Option.isSome_iff_exists.mp hsome
  obtain ⟨_, _, _, yesEnded, st2, run, run', hs2, hr2, hg2, hended2, hp2⟩ :=
    body_runs hs1 hbase hr1 hm1 (hyes.grows hf.toGrows) (hvisit.arm hopen)
  obtain ⟨_, st3, hmove, hs3, hr3, hp3, hg3⟩ := move_continues hs2 hr2 hended2
    ((hn1 n rfl).grows hg2) (m :: base.pending) (by rw [hp2, hp1]; grind)
  have hvisit' := hvisit.alternative hopen run run' hmove
  refine continues_run run (continues_run run' (continues_run hmove ?_))
  have hm3 := hm1.grows (hg2.trans hg3)
  obtain ⟨_, _, _, noEnded, st4, run, run', hs4, hr4, hg4, hended4, hp4⟩ :=
    body_runs hs3 hbase hr3 hm3 (hno.grows hf.toGrows) hvisit'
  refine continues_run run (continues_run run' ?_)
  refine (move_continues hs4 hr4 hended4 (hm3.grows hg4) base.pending
    (by simp [hp4, hp3])).bind ?_
  rintro _ st5 hs5 hr5 ⟨hp5, -⟩
  by_cases hboth : (yesEnded && noEnded) = true
  · rw [if_pos hboth]
    refine ((unreachable_takes hs5).toFlow.continues hr5).bind ?_
    rintro _ st' hs' hr' ⟨hf', -⟩
    exact continues_pure hs' hr' ⟨hf'.pending.trans hp5, gives_none st'⟩
  · rw [if_neg hboth]
    exact continues_pure hs5 hr5 ⟨hp5, gives_none st5⟩

/-- Where the condition of a loop is computed. -/
theorem openLoop_continues (line : Nat) (dest : Place) (value : Expr) :
    ∃ base : Stage, base.Sound D ∧ st.Flows D base ∧
      Continues D base st (Lower.openLoop line dest value) fun r st' =>
        ∃ c b e : Nat, r.2.2 = ⟨⟨base.index, c⟩, ⟨base.index, b⟩, ⟨base.index, e⟩⟩ ∧
          base.Planned c st' ∧ base.Planned b st' ∧ base.Planned e st' ∧
          st'.pending = e :: b :: base.pending := by
  obtain ⟨⟨_, dest', value'⟩, base, run1, hbase, hc1, -⟩ := assign_takes h line dest value
  refine ⟨base, hbase, hc1.toFlows, ?_⟩
  refine continues_run run1 ?_
  refine (append_continues hbase hbase.flows_refl.toRoams "loop.cond").bind ?_
  rintro _ st2 hs2 hr2 ⟨c, rfl, hc2, hp2, -⟩
  refine (append_continues hs2 hr2 "loop.body").bind ?_
  rintro _ st3 hs3 hr3 ⟨b, rfl, hb3, hp3, hg3⟩
  refine (append_continues hs3 hr3 "loop.end").bind ?_
  rintro _ st4 hs4 hr4 ⟨e, rfl, he4, hp4, hg4⟩
  have hc4 := (hc2.grows hg3.toGrows).grows hg4.toGrows
  refine ((br_takes hs4 hbase hr4 hc4).toFlow.continues hr4).bind ?_
  rintro _ st5 hs5 hr5 ⟨hf5, hended5⟩
  have hp5 : st5.pending = e :: b :: c :: base.pending := by rw [hf5.pending, hp4, hp3, hp2]
  refine (move_continues hs5 hr5 hended5 (hc4.grows hf5.toGrows) (e :: b :: base.pending)
    (by rw [hp5]; grind)).bind ?_
  rintro _ st6 hs6 hr6 ⟨hp6, hg6⟩
  have hg := hf5.toGrows.trans hg6
  exact continues_pure hs6 hr6 ⟨c, b, e, rfl, hc4.grows hg, (hb3.grows hg4.toGrows).grows hg,
    he4.grows hg, hp6⟩

/-- Where the body of a loop starts. -/
theorem openRound_continues (hbase : base.Sound D) (hr : base.Roams D st) (cond : Expr)
    (c : Ir.Cursor) {b e : Nat} (hb : base.Planned b st) (he : base.Planned e st)
    (hp : st.pending = e :: b :: base.pending) :
    Continues D base st (Lower.openRound cond ⟨c, ⟨base.index, b⟩, ⟨base.index, e⟩⟩) fun _ st' =>
      st'.pending = e :: base.pending ∧ st.Grows D st' := by
  refine ((expr_takes cond h).toFlow.continues hr).bind ?_
  rintro ⟨result, lowered⟩ st1 hs1 hr1 ⟨hf1, hv⟩
  refine ((condition_takes hs1 cond.line hv).toFlow.continues hr1).bind ?_
  rintro test st2 hs2 hr2 ⟨hf2, htest⟩
  have hg2 := (hf1.trans hf2).toGrows
  have he2 := he.grows hg2
  refine ((branchOn_takes hs2 hbase hr2 htest (hb.grows hg2) he2 he2).toFlow.continues hr2).bind ?_
  rintro _ st3 hs3 hr3 ⟨hf3, hended3⟩
  have hp3 : st3.pending = e :: b :: base.pending := by
    rw [hf3.pending, hf2.pending, hf1.pending, hp]
  have hg3 := hg2.trans hf3.toGrows
  refine (move_continues hs3 hr3 hended3 (hb.grows hg3) (e :: base.pending)
    (by rw [hp3]; grind)).bind ?_
  rintro _ st4 hs4 hr4 ⟨hp4, hg4⟩
  exact continues_pure hs4 hr4 ⟨hp4, hg3.trans hg4⟩

theorem loop_takes {dest : Place} {value : Expr} {body : List Stmt}
    (hvisit : begun.Visits items (.loop dest value cond body line :: rest) st.state)
    (hbody : st.Lowers D begun items body) :
    Takes (flow D) st (Stmt.lower (.loop dest value cond body line)) fun r st' =>
      st'.Gives r.1 := by
  rw [loop_eq]
  obtain ⟨base, hbase, hf, ⟨_, _, _⟩, st1, hopen, hs1, hr1, c, b, e, ⟨⟩, hc1, hb1, he1, hp1⟩ :=
    openLoop_continues h line dest value
  obtain ⟨lowered, st2, hround, hs2, hr2, hp2, hg2⟩ :=
    openRound_continues hs1 hbase hr1 cond ⟨base.index, c⟩ hb1 he1 hp1
  refine Continues.takes hf (continues_run hopen (continues_run hround ?_))
  obtain ⟨_, _, _, _, st3, run, run', hs3, hr3, hg3, hended3, hp3⟩ :=
    body_runs hs2 hbase hr2 (hc1.grows hg2) (hbody.grows hf.toGrows) (hvisit.body hopen hround)
  refine continues_run run (continues_run run' ?_)
  refine (move_continues hs3 hr3 hended3 (he1.grows (hg2.trans hg3)) base.pending
    (by simp [hp3, hp2])).bind ?_
  rintro _ st4 hs4 hr4 ⟨hp4, -⟩
  exact continues_pure hs4 hr4 ⟨hp4, gives_none st4⟩

end Stage

end ProcLang
