import ProcLang.Proofs.Legible.Expr

/-!
# Modules of texts are legible

Lowering statements upholds the invariant (`stmt_upholds`): the variables and procedures that they
declare have words for names, and the labels that a jump names are those of blocks. So what
`Lowering.Tidy` says holds in the end, whatever is wrong with the text (`compile_tidy`).
-/

namespace ProcLang

open Ir Lower Naming

/-! ## Declarations and assignments -/

variable {decl : VariableDecl} {name : String} {value : Expr}

section Declare

variable {s : Lowering} {word : String → Prop}

theorem globalStorage_upholds (line : Nat) (hname : Legible name) (storage : Ir.Ty) (ty : Ty)
    (kind : SymbolKind) :
    Upholds s (globalStorage line name storage ty kind) fun r => ∀ x, r = some x → x.Legible := by
  refine Upholds.next (addGlobal_upholds hname) fun outcome s1 hv => ?_
  cases outcome with
  | ok binding =>
    refine upholds_pure fun x hx => ?_
    cases hx
    exact .ofName hname (hv _ rfl) _ _
  | error =>
    refine (uniqueName_upholds hname).next fun unique s2 hunique => ?_
    refine Upholds.next (addGlobal_upholds hunique) fun outcome s3 hv => ?_
    cases outcome with
    | ok binding =>
      refine upholds_pure fun x hx => ?_
      cases hx
      exact ⟨hname, hunique, hv _ rfl⟩
    | error => exact refuse_upholds _ _ _

theorem storage_upholds (hname : Legible decl.name) (ty : Ty) (len : Option Nat) :
    Upholds s (storage decl ty len) fun r => ∀ x, r = some x → x.Legible := by
  unfold storage
  dsimp only
  split
  · exact globalStorage_upholds _ hname _ _ _
  · refine (alloca_upholds _ hname).next fun binding _ hbinding => upholds_pure fun x hx => ?_
    cases hx
    exact .ofName hname hbinding _ _

theorem declareVariable_upholds (hname : Legible decl.name) (s : Lowering) :
    Upholds s (declareVariable decl) Anything := by
  refine (orReport_upholds _ _).next fun ty s1 _ => ?_
  cases ty with
  | none => exact upholds_pure trivial
  | some ty =>
    refine upholds_get fun _ => ?_
    split
    · exact report_upholds _ _ trivial
    · refine (orReport_upholds _ _).next fun len s2 _ => ?_
      cases len with
      | none => exact upholds_pure trivial
      | some len =>
        refine (storage_upholds hname ty len).next fun symbol s3 hsymbol => ?_
        cases symbol with
        | none => exact upholds_pure trivial
        | some symbol => exact declare_upholds _ (hsymbol symbol rfl) _

theorem condition_upholds (line : Nat) {value : Result} (h : value.Legible) :
    Upholds s (condition line value) LegibleValue := by
  unfold condition
  split
  · exact upholds_pure legibleValue_none
  · exact upholds_pure (legibleValue_some (h _ rfl))
  · rename_i v
    have htest : Upholds s (build (.icmp .ne v (.int 0) "cond")) Value.Legible :=
      compute_upholds (by decide) (fun _ => rfl) fun _ =>
        legible_two (h _ rfl) (Value.legible_int 0)
    exact htest.map fun _ hv => legibleValue_some hv
  · exact report_upholds _ _ legibleValue_none

/-- The symbol and the value of an assignment, if nothing is wrong, can be read back. -/
theorem openAssign_upholds (line : Nat) (dest : Place) (h : value.AsRead word) (s : Lowering) :
    Upholds s (openAssign line dest value) fun r =>
      ∀ p, r.1 = some p → p.1.Legible ∧ p.2.Legible := by
  refine (expr_upholds h s).next fun r s1 hr => ?_
  obtain ⟨result, value⟩ := r
  cases result with
  | none => exact upholds_pure fun p hp => by cases hp
  | some result =>
    obtain ⟨v, ty⟩ := result
    refine upholds_get fun hs => (orReport_upholds _ _).next fun found s2 hfound => ?_
    cases found with
    | none => exact upholds_pure fun p hp => by cases hp
    | some symbol =>
      have hsymbol : symbol.Legible := (hs.resolveVariable (hfound symbol rfl)).1
      refine upholds_get fun _ => ?_
      cases hupdate : s2.symbols.update
          { symbol with ty := if ty.fits symbol.ty then symbol.ty else ty } with
      | error e =>
        exact (refuse_upholds line _ _).next fun _ _ hr => upholds_pure hr
      | ok symbols =>
        refine Upholds.next (upholds_modify fun hs =>
          hs.withSymbols (hs.symbols.update (hsymbol.withTy _) hupdate)) fun _ s3 _ => ?_
        refine (coerce_upholds (hr _ rfl) _ _).next fun v' _ hv' => upholds_pure fun p hp => ?_
        cases hp
        exact ⟨hsymbol, hv'⟩

theorem assign_upholds (line : Nat) {dest : Place} (hdest : dest.AsRead word)
    (hvalue : value.AsRead word) (s : Lowering) :
    Upholds s (assign line dest value) fun r => r.1.Legible := by
  rw [assign_eq]
  refine (openAssign_upholds line dest hvalue s).next fun r s1 hr => ?_
  obtain ⟨opened, value⟩ := r
  cases opened with
  | none => exact upholds_pure Result.legible_none
  | some opened =>
    obtain ⟨hsymbol, hv⟩ := hr opened rfl
    refine (place_upholds hsymbol hdest s1).next fun r s2 hr => ?_
    obtain ⟨address, dest⟩ := r
    cases address with
    | none => exact upholds_pure Result.legible_none
    | some address =>
      refine Upholds.next (emit_upholds ⟨fun _ hname => ?_, legible_two hv (hr _ rfl)⟩) fun _ _ _ =>
        ?_
      · cases hname
      · exact upholds_pure (Result.legible_some hv _)

theorem asResult_upholds (line : Nat) (ret : Ty) {value : Value} (hv : value.Legible) (ty : Ty) :
    Upholds s (asResult line ret value ty) LegibleValue := by
  unfold asResult
  split
  · exact (coerce_upholds hv _ _).map fun _ hv => legibleValue_some hv
  · exact report_upholds _ _ legibleValue_none

theorem bindParam_upholds (hname : Legible decl.name) (shape : ParamShape) :
    Upholds s (bindParam decl shape) Anything := by
  have harg : ∀ ty, (Value.register ty (argName decl.name)).Legible := fun _ =>
    legible_argName hname
  unfold bindParam
  dsimp only
  split
  · rw [pure_bind]
    exact (declare_upholds _ (.ofName hname (harg _) _ _) _).next fun _ _ _ => upholds_pure trivial
  · refine (alloca_upholds _ hname).next fun slot s1 hslot => ?_
    refine Upholds.next (emit_upholds ⟨fun _ hname => ?_, legible_two (harg _) hslot⟩) fun _ _ _ =>
      ?_
    · cases hname
    · exact (declare_upholds _ (.ofName hname hslot _ _) _).next fun _ _ _ => upholds_pure trivial

theorem bindParams_upholds : ∀ {params : List (VariableDecl × ParamShape)},
    (∀ p ∈ params, Legible p.1.name) → ∀ s : Lowering, Upholds s (bindParams params) Anything
  | [], _, s => upholds_pure trivial
  | (decl, shape) :: params, h, s => by
    obtain ⟨hdecl, hparams⟩ := List.forall_mem_cons.mp h
    rw [bindParams]
    exact (bindParam_upholds hdecl shape).next fun _ s1 _ => bindParams_upholds hparams s1

end Declare

/-! ## Control flow -/

section Control

variable {s : Lowering} {word : String → Prop}

theorem restore_upholds (cursor : Option Ir.Cursor) :
    Upholds s (build (.restore cursor)) Anything := by
  rintro hs _ _ ⟨⟩
  exact ⟨⟨hs.globals, hs.functions, hs.symbols, hs.called⟩, trivial⟩

theorem moveTo_upholds (cursor : Ir.Cursor) : Upholds s (build (.moveTo cursor)) Anything :=
  restore_upholds (some cursor)

theorem isTerminated_upholds : Upholds s (build .isTerminated) Anything :=
  upholds_look fun h => (Build.isTerminated_inv h).2

/-- The label of a block. -/
theorem labelOf_upholds (c : Ir.Cursor) : Upholds s (build (.labelOf c)) Legible := by
  intro hs label s' run
  obtain ⟨b, hb, rfl⟩ := build_inv run
  obtain ⟨⟨f, d, hf, hd, rfl⟩, rfl⟩ := Build.labelOf_inv hb
  exact ⟨hs, (hs.functions f (List.mem_of_getElem? hf)).labels d (List.mem_of_getElem? hd)⟩

theorem br_upholds (target : Ir.Cursor) : Upholds s (build (.br target)) Anything := by
  rw [Build.br, Stage.build_bind]
  refine (labelOf_upholds _).next fun label _ hlabel => emit_upholds ⟨fun _ hname => ?_, ?_⟩
  · exact List.mem_singleton.mp hname ▸ hlabel
  · simp [Instr.operands]

theorem condBr_upholds {cond : Value} (hcond : cond.Legible) (yes no : Ir.Cursor) :
    Upholds s (build (.condBr cond yes no)) Anything := by
  rw [Build.condBr, Stage.build_bind]
  refine (labelOf_upholds _).next fun yes s1 hyes => ?_
  rw [Stage.build_bind]
  refine (labelOf_upholds _).next fun no _ hno => emit_upholds ⟨?_, legible_one hcond⟩
  exact List.forall_mem_cons.mpr ⟨hyes, fun _ hname => List.mem_singleton.mp hname ▸ hno⟩

theorem unreachable_upholds : Upholds s (build .unreachable) Anything :=
  emit_upholds ⟨fun _ hname => (List.not_mem_nil hname).elim, by simp [Instr.operands]⟩

theorem ret_upholds {v : Value} (hv : v.Legible) : Upholds s (build (.ret v)) Anything :=
  emit_upholds ⟨fun _ hname => (List.not_mem_nil hname).elim, legible_one hv⟩

theorem fallThrough_upholds (target : Ir.Cursor) : Upholds s (fallThrough target) Anything := by
  refine isTerminated_upholds.next fun ended s1 _ => ?_
  cases ended with
  | true => exact upholds_pure trivial
  | false => exact (br_upholds target).next fun _ _ _ => upholds_pure trivial

theorem branchOn_upholds {cond : Option Value} (hcond : LegibleValue cond)
    (yes no otherwise : Ir.Cursor) : Upholds s (branchOn cond yes no otherwise) Anything := by
  cases cond with
  | some cond => exact condBr_upholds (hcond _ rfl) yes no
  | none => exact br_upholds otherwise

theorem returnValue_upholds {value : Option Value} (hvalue : LegibleValue value) :
    Upholds s (returnValue value) Anything := by
  cases value with
  | some value => exact ret_upholds (hvalue _ rfl)
  | none => exact unreachable_upholds

theorem implicitReturn_upholds (line : Nat) (name : String) (ret : Ty) {last : Result}
    (h : last.Legible) : Upholds s (implicitReturn line name ret last) Anything := by
  cases last with
  | some last =>
    exact (asResult_upholds _ _ (h _ rfl) _).next fun _ _ hv => returnValue_upholds hv
  | none =>
    exact Upholds.next (report_upholds _ _ legibleValue_none) fun _ _ hv => returnValue_upholds hv

theorem returnFrom_upholds (line : Nat) (ret : Ty) {value : Result} (h : value.Legible) :
    Upholds s (returnFrom line ret value) Anything := by
  cases value with
  | some value =>
    exact (asResult_upholds _ _ (h _ rfl) _).next fun _ _ hv => returnValue_upholds hv
  | none => exact returnValue_upholds legibleValue_none

theorem appendIf_upholds (needed : Bool) {hint : String} (hhint : Legible hint) :
    Upholds s (appendIf needed hint) Anything := by
  cases needed with
  | true => exact (appendBlock_upholds hhint).map fun _ _ => trivial
  | false => exact upholds_pure trivial

theorem openBranch_upholds {cond : Expr} (h : cond.AsRead word) (alternative : Bool)
    (s : Lowering) :
    Upholds s (openBranch cond alternative) Anything := by
  refine (expr_upholds h s).next fun _ _ hv => (condition_upholds _ hv).next fun _ _ htest => ?_
  refine (appendBlock_upholds (by decide)).next fun _ _ _ => ?_
  refine (appendIf_upholds _ (by decide)).next fun _ _ _ => ?_
  refine (appendBlock_upholds (by decide)).next fun _ _ _ => ?_
  refine (branchOn_upholds htest _ _ _).next fun _ _ _ => ?_
  exact (moveTo_upholds _).next fun _ _ _ => upholds_pure trivial

theorem openLoop_upholds (line : Nat) {dest : Place} (hdest : dest.AsRead word)
    (hvalue : value.AsRead word) (s : Lowering) :
    Upholds s (openLoop line dest value) Anything := by
  refine (assign_upholds line hdest hvalue s).next fun _ _ _ => ?_
  refine (appendBlock_upholds (by decide)).next fun _ _ _ => ?_
  refine (appendBlock_upholds (by decide)).next fun _ _ _ => ?_
  refine (appendBlock_upholds (by decide)).next fun _ _ _ => (br_upholds _).next fun _ _ _ => ?_
  exact (moveTo_upholds _).next fun _ _ _ => upholds_pure trivial

theorem openRound_upholds {cond : Expr} (h : cond.AsRead word) (blocks : LoopBlocks)
    (s : Lowering) : Upholds s (openRound cond blocks) Anything := by
  refine (expr_upholds h s).next fun _ _ hv => (condition_upholds _ hv).next fun _ _ htest => ?_
  refine (branchOn_upholds htest _ _ _).next fun _ _ _ => ?_
  exact (moveTo_upholds _).next fun _ _ _ => upholds_pure trivial

/-! ## Procedures and statements -/

theorem openScope_upholds {label : String} (hlabel : Legible label) (frame : Frame) :
    Upholds s (openScope label frame) Anything := by
  rintro hs _ _ ⟨⟩
  exact ⟨⟨hs.globals, hs.functions, hs.symbols.push hlabel, hs.called⟩, trivial⟩

theorem closeScope_upholds : Upholds s closeScope Anything := by
  refine upholds_get fun _ => ?_
  cases hpop : s.symbols.pop? with
  | none =>
    rintro - a s' ⟨⟩
  | some symbols =>
    rintro hs _ _ ⟨⟩
    exact ⟨⟨hs.globals, hs.functions, hs.symbols.pop? hpop, hs.called⟩, trivial⟩

/-- A function that is defined, and a symbol for it. -/
theorem Lowering.Tidy.declaredProcedure (h : s.Tidy []) {heading : Heading}
    (hname : Legible heading.name) {params : List (VariableDecl × ParamShape)}
    (hparams : ∀ p ∈ params, Legible p.1.name) (ret : Ty)
    (hnew : s.symbols.isDeclared heading.name heading.isGlobal = false) :
    (declaredProcedure s heading ret params).Tidy [] := by
  have hqualified := h.qualifiedName hname
  have hsymbol : (procedureSymbol s heading ret params).Legible :=
    ⟨hname, hqualified, hqualified⟩
  have hadd : s.symbols.add (procedureSymbol s heading ret params) heading.isGlobal =
      .ok _ := SymbolTable.add_of_not_declared hnew
  refine ⟨h.globals, fun f hf => ?_, h.symbols.add hsymbol hadd, fun d hd => ?_⟩
  · rcases List.mem_append.mp hf with hf | hf
    · exact h.functions f hf
    · rw [List.mem_singleton.mp hf]
      refine .new hqualified _ fun p hp => ?_
      obtain ⟨q, hq, rfl⟩ := List.mem_map.mp hp
      exact legible_argName (hparams q hq)
  · refine (h.called d hd).imp id fun ⟨f, hf, hcalled⟩ => ?_
    exact ⟨f, List.mem_append_left _ hf, hcalled⟩

theorem openProcedure_upholds (line : Nat) {heading : Heading} (hname : Legible heading.name)
    (hparams : ∀ decl ∈ heading.params, Legible decl.name) :
    Upholds s (openProcedure line heading) fun r =>
      ∀ opened, r = some opened → ∀ p ∈ opened.params, Legible p.1.name := by
  intro hs r s' run
  by_cases hproper : heading.Proper
  · obtain ⟨ret, params, hres, run'⟩ := openProcedure_proper s line hproper
    rw [run'] at run
    split at run
    · exact refuse_upholds _ _ _ hs r s' run
    · rename_i hnew
      split at run
      · exact refuse_upholds _ _ _ hs r s' run
      · have hlegible : ∀ p ∈ params, Legible p.1.name := fun p hp =>
          hparams p.1 (hres.decls ▸ List.mem_map_of_mem hp)
        cases run
        refine ⟨hs.declaredProcedure hname hlegible ret (Bool.eq_false_iff.mpr hnew), ?_⟩
        rintro opened ⟨⟩
        exact hlegible
  · rw [openProcedure_improper s line hproper] at run
    cases run
    exact ⟨hs.findings _ _, fun _ h => by cases h⟩

theorem enterProcedure_upholds (hname : Legible name) {opened : Opened}
    (hparams : ∀ p ∈ opened.params, Legible p.1.name) :
    Upholds s (enterProcedure name opened) Anything :=
  (moveTo_upholds _).next fun _ _ _ => (openScope_upholds hname _).next fun _ _ _ =>
    bindParams_upholds hparams _

theorem unlessEnded_upholds {x : Lower Unit} (hx : ∀ s, Upholds s x Anything) :
    Upholds s (unlessEnded x) Anything := by
  refine isTerminated_upholds.next fun ended s1 _ => ?_
  cases ended with
  | true => exact upholds_pure trivial
  | false => exact hx s1

theorem procedure_upholds {α : Type} (line : Nat) (hname : Legible name) {opened : Opened}
    (hparams : ∀ p ∈ opened.params, Legible p.1.name) {body : Lower (Result × α)}
    (hbody : ∀ s, Upholds s body fun r => r.1.Legible) :
    Upholds s (procedure line name opened body) Anything := by
  rw [procedure_eq]
  refine upholds_get fun _ => (enterProcedure_upholds hname hparams).next fun _ s1 _ => ?_
  refine (hbody s1).next fun r s2 hr => ?_
  refine (unlessEnded_upholds fun _ => implicitReturn_upholds _ _ _ hr).next fun _ _ _ => ?_
  refine Upholds.next (closeScope_upholds.next fun _ _ _ => restore_upholds _) fun _ _ _ => ?_
  exact upholds_pure trivial

mutual

/-- **A statement** whose names are words and whose literals are ordinary. -/
theorem stmt_upholds : ∀ {stmt : Stmt}, stmt.AsRead (isWord · = true) → ∀ s : Lowering,
    Upholds s stmt.lower fun r => r.1.Legible
  | .assign dest value line, h, s => by
    rw [Stmt.lower]
    exact (assign_upholds line h.1 h.2 s).next fun _ _ hr => upholds_pure hr
  | .call call line, h, s => by
    rw [Stmt.lower]
    exact (expr_upholds (e := call) h s).next fun _ _ hr => upholds_pure hr
  | .declare decl line, h, s => by
    rw [Stmt.lower]
    refine (declareVariable_upholds (legible_of_isWord h.name) s).next fun _ _ _ => ?_
    exact upholds_pure Result.legible_none
  | .declareType name mark isGlobal line, _, s => by
    rw [Stmt.lower]
    exact (warn_upholds _ _).next fun _ _ _ => upholds_pure Result.legible_none
  | .branch cond yes none line, h, s => by
    rw [branch_eq]
    refine (openBranch_upholds h.1 false s).next fun _ s1 _ => ?_
    refine (block_upholds h.2 Result.legible_none s1).next fun _ _ _ => ?_
    refine (fallThrough_upholds _).next fun _ _ _ => (moveTo_upholds _).next fun _ _ _ => ?_
    exact upholds_pure Result.legible_none
  | .branch cond yes (some no) line, h, s => by
    rw [branchElse_eq]
    refine (openBranch_upholds h.1 true s).next fun _ s1 _ => ?_
    refine (block_upholds h.2.1 Result.legible_none s1).next fun _ _ _ => ?_
    refine (fallThrough_upholds _).next fun yesEnded _ _ => (moveTo_upholds _).next fun _ s2 _ => ?_
    refine (block_upholds h.2.2 Result.legible_none s2).next fun _ _ _ => ?_
    refine (fallThrough_upholds _).next fun noEnded _ _ => (moveTo_upholds _).next fun _ _ _ => ?_
    split
    · exact unreachable_upholds.next fun _ _ _ => upholds_pure Result.legible_none
    · exact upholds_pure Result.legible_none
  | .loop dest value cond body line, h, s => by
    rw [loop_eq]
    refine (openLoop_upholds line h.1 h.2.1 s).next fun _ s1 _ => ?_
    refine (openRound_upholds h.2.2.1 _ s1).next fun _ s2 _ => ?_
    refine (block_upholds h.2.2.2 Result.legible_none s2).next fun _ _ _ => ?_
    refine (fallThrough_upholds _).next fun _ _ _ => (moveTo_upholds _).next fun _ _ _ => ?_
    exact upholds_pure Result.legible_none
  | .result value line, h, s => by
    rw [Stmt.lower]
    refine upholds_get fun _ => ?_
    cases s.returnType? with
    | none =>
      exact Upholds.next (report_upholds _ _ Result.legible_none) fun _ _ hr => upholds_pure hr
    | some ret =>
      refine isTerminated_upholds.next fun ended s1 _ => ?_
      cases ended with
      | true =>
        exact Upholds.next (report_upholds _ _ Result.legible_none) fun _ _ hr => upholds_pure hr
      | false =>
        refine (expr_upholds (e := value) h s1).next fun _ _ hr => ?_
        exact (returnFrom_upholds _ _ hr).next fun _ _ _ => upholds_pure Result.legible_none
  | .procedure heading body line, h, s => by
    rw [Stmt.lower]
    have hname : Legible heading.name := legible_of_isWord h.1.name
    refine (openProcedure_upholds line hname fun decl hdecl =>
      legible_of_isWord (h.1.params decl hdecl).1.name).next fun opened s1 hopened => ?_
    cases opened with
    | none => exact upholds_pure Result.legible_none
    | some opened =>
      refine (procedure_upholds line hname (hopened opened rfl) fun s =>
        block_upholds h.2 Result.legible_none s).next fun _ _ _ => ?_
      exact upholds_pure Result.legible_none

/-- **Statements in order.** -/
theorem block_upholds : ∀ {stmts : List Stmt}, BlockAsRead (isWord · = true) stmts →
    ∀ {last : Result}, last.Legible → ∀ s : Lowering,
      Upholds s (lowerBlock last stmts) fun r => r.1.Legible
  | [], _, last, hlast, s => by
    rw [lowerBlock]
    exact upholds_pure hlast
  | stmt :: stmts, h, last, hlast, s => by
    rw [lowerBlock]
    refine (stmt_upholds h.1 s).next fun r s1 hr => ?_
    obtain ⟨result, lowered⟩ := r
    have hor : Result.Legible (result.or last) := by
      cases result with
      | none => exact hlast
      | some p => exact hr
    exact (block_upholds h.2 hor s1).next fun _ _ hr => upholds_pure hr

end

end Control

/-! ## Programs -/

theorem finish_upholds (s : Lowering) : Upholds s finish Anything := by
  rw [finish_eq]
  have hend : Upholds s endProgram Anything := by
    refine upholds_get fun _ => ?_
    split
    · exact unlessEnded_upholds fun _ => ret_upholds (Value.legible_int 0)
    · exact upholds_pure trivial
  refine hend.next fun _ _ _ => upholds_get fun _ => ?_
  split
  · exact upholds_get fun _ => upholds_pure trivial
  · exact closeScope_upholds.next fun _ _ _ => upholds_get fun _ => upholds_pure trivial

theorem Routine.symbols_legible : Routine.symbols.Legible where
  globals symbol hsymbol := by
    obtain ⟨r, hr, rfl⟩ := List.mem_map.mp hsymbol
    have hname : Legible r.name :=
      (by decide : ∀ r ∈ Routine.callable, Legible r.name) r hr
    exact ⟨hname, hname, hname⟩
  locals := by simp [Routine.symbols]

theorem Lowering.new_tidy (moduleName : String) : (Lowering.new moduleName).Tidy [] where
  globals := by simp [Lowering.new, Lowering.module]
  functions := by simp [Lowering.new, Lowering.module]
  symbols := Routine.symbols_legible
  called := by simp [Lowering.new, Lowering.module]

theorem Lowering.start_tidy (moduleName : String) (hname : Legible name) :
    (Stage.start moduleName name).state.Tidy [] where
  globals := (Lowering.new_tidy moduleName).globals
  functions f hf := by
    rw [List.mem_singleton.mp hf]
    exact .new (by decide) _ (by simp)
  symbols := Routine.symbols_legible.push hname
  called _ hd := (List.not_mem_nil hd).elim

/-- **The module of every text is legible**, and no routine is declared in it that is not called. -/
theorem compile_tidy {source : String} {options : Options} {c : Compilation}
    (compiled : compile source options = .ok c) :
    ∃ s : Lowering, s.Tidy [] ∧ s.module = c.module := by
  cases hheader : (sourceHeader source options).value with
  | none =>
    exact ⟨.new (options.moduleName.getD ""), Lowering.new_tidy _,
      (compile_headless compiled hheader).symm⟩
  | some name =>
    have hname : Legible name := legible_of_isWord (header_isWord hheader)
    obtain ⟨st, s, -, h, run⟩ := compile_between_items compiled hheader
      (I := fun _ s _ => s.Tidy []) (fun _ => Lowering.start_tidy _ hname) (fun _ h => h)
      fun stmt hmem h run => by
        obtain ⟨lowered, s', hlower, rfl, -⟩ := item_inv run
        obtain ⟨h', -⟩ := stmt_upholds (sourceItems_asRead source options stmt hmem) _ h _ _ hlower
        exact h'.findings [] []
    exact ⟨s, (finish_upholds _ h _ _ run).1, finish_module run⟩

end ProcLang
