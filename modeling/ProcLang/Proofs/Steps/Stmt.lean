import ProcLang.Lower.Program
import ProcLang.Proofs.Openings
import ProcLang.Proofs.Steps.Expr

/-!
# Steps of statements

Assignments and declarations of variables take plain steps (`assign_walks`,
`declareVariable_walks`). The other statements pass control on, open scopes or define functions
besides (`stmt_walks`). The names that come to the module are those that the statement declares
(`Stmt.DeclaresOnly`). At most two numbers are drawn for each token of the statement.
-/

namespace ProcLang

open Ir Lower Naming
open Lowering (Plain)

/-! ## Declarations and assignments -/

theorem Lower.resolveType_free {mark : TypeMark} {cause : LowerCause}
    (h : resolveType mark = .error cause) : cause.Free := by
  cases mark <;> cases h <;> trivial

theorem Lower.lengthOf_free {name : String} {bound : Option Int} {cause : LowerCause}
    (h : lengthOf name bound = .error cause) : cause.Free := by
  cases bound with
  | none => cases h
  | some n =>
    rw [lengthOf, arrayLength] at h
    split at h <;> cases h
    trivial

theorem Lower.findings_free {α : Type} {line : Nat} {outcome : Except LowerCause α}
    (hfree : ∀ cause, outcome = .error cause → cause.Free) :
    ∀ e ∈ findings line outcome, e.cause.Free := by
  intro e he
  cases outcome with
  | ok => cases he
  | error cause =>
    rw [List.mem_singleton.mp he]
    exact hfree cause rfl

/-- What is found wrong with types and bounds is not that a name is taken. -/
theorem Heading.findings_free {heading : Heading} {line : Nat} :
    ∀ e ∈ heading.findings line, e.cause.Free := by
  intro e he
  rcases List.mem_append.mp he with he | he
  · exact Lower.findings_free (fun _ => resolveType_free) e he
  · obtain ⟨decl, -, he⟩ := List.mem_flatMap.mp he
    rcases List.mem_append.mp he with he | he
    · exact Lower.findings_free (fun _ => resolveType_free) e he
    · exact Lower.findings_free (fun _ => lengthOf_free) e he

section Declare

variable {s : Lowering} {declared : String → Prop}

theorem globalStorage_walks (line : Nat) {name : String} (storage : Ir.Ty) (ty : Ty)
    (kind : SymbolKind) (hdeclared : declared name)
    (hname : s.symbols.containsGlobal name = false) :
    Walks (Plain declared) 1 s (globalStorage line name storage ty kind) := by
  refine Walks.mono (m := 0 + 1) ?_ (Nat.le_refl 1)
  refine (addGlobal_walks (Or.inr ⟨hdeclared, hname⟩)).next fun outcome s1 => ?_
  cases outcome with
  | ok => exact (walks_pure _).free
  | error => exact addUnique_walks _ line (fun _ => rfl) (fun _ _ => ⟨_, rfl⟩) fun _ _ => rfl

theorem storage_walks {decl : VariableDecl} (hdeclared : declared decl.name) (ty : Ty)
    (len : Option Nat) (hname : s.symbols.isDeclared decl.name decl.isGlobal = false) :
    Walks (Plain declared) 1 s (storage decl ty len) := by
  unfold storage
  dsimp only
  split
  · rename_i hglobal
    rw [SymbolTable.isDeclared, if_pos hglobal] at hname
    exact globalStorage_walks _ _ _ _ hdeclared hname
  · exact (alloca_walks _ _).giving _

/-- **A variable** is declared by plain steps. -/
theorem declareVariable_walks {decl : VariableDecl} (hdeclared : declared decl.name)
    (s : Lowering) :
    Walks (Plain declared) 1 s (declareVariable decl) := by
  refine Walks.mono (m := 0 + 1) ?_ (Nat.le_refl 1)
  refine (orReport_walks _ fun _ => resolveType_free).next fun ty s1 => ?_
  cases ty with
  | none => exact (walks_pure _).free
  | some ty =>
    refine walks_get ?_
    split
    · exact Walks.free (report_walks _ trivial)
    · rename_i hnew
      refine Walks.mono (m := 0 + (1 + 0)) ?_ (Nat.le_refl 1)
      refine (orReport_walks _ fun _ => lengthOf_free).bind fun len s2 run => ?_
      cases len with
      | none => exact (walks_pure _).free
      | some len =>
        obtain ⟨-, rfl⟩ := orReport_inv run
        refine (storage_walks hdeclared ty len (Bool.eq_false_iff.mpr hnew)).next fun symbol s3 =>
          ?_
        cases symbol with
        | none => exact walks_pure _
        | some symbol => exact declare_walks _ _ _

theorem condition_walks (line : Nat) (value : Result) :
    Walks (Plain declared) 1 s (condition line value) := by
  unfold condition
  split
  · exact (walks_pure _).free
  · exact (walks_pure _).free
  · refine Walks.map ?_ _
    exact emitPlain_walks (fun _ => rfl) fun _ _ => trivial
  · exact Walks.free (report_walks _ trivial)

theorem openAssign_walks (line : Nat) (dest : Place) (value : Expr) (s : Lowering) :
    Walks (Plain declared) (2 * value.tokens + 1) s (openAssign line dest value) := by
  refine (expr_walks value s).next fun r s1 => ?_
  obtain ⟨result, value⟩ := r
  cases result with
  | none => exact (walks_pure _).free
  | some result =>
    obtain ⟨v, ty⟩ := result
    refine walks_get (Walks.mono (m := 0 + 1) ?_ (Nat.le_refl 1))
    refine (orReport_walks _ fun _ => resolveVariable_free).next fun found s2 => ?_
    cases found with
    | none => exact (walks_pure _).free
    | some symbol =>
      refine walks_get ?_
      cases hupdate : s2.symbols.update
          { symbol with ty := if ty.fits symbol.ty then symbol.ty else ty } with
      | error => exact reported_walks _ (by trivial) _
      | ok symbols =>
        have hdrawn := Lowering.drawn_symbols (SymbolTable.update_nextUnique hupdate)
        refine Walks.mono (m := 0 + 1) ?_ (Nat.le_refl 1)
        refine Walks.next (walks_one rfl (.rebind hupdate) (Nat.le_of_eq hdrawn)) fun _ s3 => ?_
        exact (coerce_walks _ _ _).giving _

/-- **An assignment** is lowered by plain steps. -/
theorem assign_walks (line : Nat) (dest : Place) (value : Expr) (s : Lowering) :
    Walks (Plain declared) (2 * value.tokens + 1 + (2 * dest.tokens + 0)) s
      (assign line dest value) := by
  rw [assign_eq]
  refine (openAssign_walks line dest value s).next fun r s1 => ?_
  obtain ⟨opened, value⟩ := r
  cases opened with
  | none => exact (walks_pure _).free
  | some opened =>
    refine (place_walks opened.1 dest s1).next fun r s2 => ?_
    obtain ⟨address, dest⟩ := r
    cases address with
    | none => exact walks_pure _
    | some address => exact Walks.giving (emit_walks rfl (by trivial)) _

theorem asResult_walks (line : Nat) (ret : Ty) (value : Value) (ty : Ty) :
    Walks (Plain declared) 1 s (asResult line ret value ty) := by
  unfold asResult
  split
  · exact (coerce_walks _ _ _).map _
  · exact Walks.free (report_walks _ trivial)

theorem bindParam_walks (decl : VariableDecl) (shape : ParamShape) :
    Walks (Plain declared) 1 s (bindParam decl shape) := by
  unfold bindParam
  dsimp only
  split
  · exact Walks.free ((walks_pure _).next fun _ _ => (declare_walks _ _ _).giving _)
  · refine Walks.mono (m := 1 + (0 + 0)) ?_ (Nat.le_refl 1)
    refine (alloca_walks _ _).next fun _ _ => Walks.next (emit_walks rfl trivial) fun _ _ => ?_
    exact (declare_walks _ _ _).next fun _ _ => walks_pure _

theorem bindParams_walks : ∀ (params : List (VariableDecl × ParamShape)) (s : Lowering),
    Walks (Plain declared) params.length s (bindParams params)
  | [], s => walks_pure _
  | (decl, shape) :: params, s => by
    rw [bindParams, List.length_cons, Nat.add_comm]
    exact (bindParam_walks decl shape).next fun _ s1 => bindParams_walks params s1

end Declare

/-! ## Control flow -/

section Control

variable {s : Lowering} {declared : String → Prop}

theorem terminator_walks {i : Instr} (hi : i.isTerminator = true) :
    Walks (Lowering.Step declared) 1 s (build (.emit i)) := by
  refine walks_build fun a b run => ?_
  obtain ⟨index, f, block, hat, rfl⟩ := Build.emit_inv run
  have hdrawn := f.drawn_emit hat.block i
  rw [hi] at hdrawn
  exact ⟨.single (.terminator hat.cursor hat.function (.emit hat.block hi)),
    Builder.drawn_put hat.cursor hat.function (Nat.le_of_eq hdrawn)⟩

theorem appendBlock_walks (hint : String) :
    Walks (Lowering.Step declared) 1 s (build (.appendBlock hint)) := by
  refine walks_build fun a b run => ?_
  obtain ⟨index, block, f, hc, hf, -, rfl⟩ := Build.appendBlock_inv run
  refine ⟨.single (.append hint hc hf), Builder.drawn_put hc hf ?_⟩
  rw [Function.hasEnded_append, Function.append, Function.pushBlock, Function.tick]
  dsimp only
  omega

theorem restore_walks (cursor : Option Ir.Cursor) :
    Walks (Lowering.Step declared) 1 s (build (.restore cursor)) := by
  refine walks_build fun a b run => ?_
  cases run
  exact ⟨.single (.move s cursor), s.builder.drawn_move cursor⟩

theorem moveTo_walks (cursor : Ir.Cursor) :
    Walks (Lowering.Step declared) 1 s (build (.moveTo cursor)) :=
  restore_walks (some cursor)

theorem isTerminated_walks : Walks (Lowering.Step declared) 0 s (build .isTerminated) :=
  walks_look fun h => (Build.isTerminated_inv h).2

theorem labelOf_walks (c : Ir.Cursor) : Walks (Lowering.Step declared) 0 s (build (.labelOf c)) :=
  walks_look fun h => (Build.labelOf_inv h).2

theorem br_walks (target : Ir.Cursor) :
    Walks (Lowering.Step declared) 1 s (build (.br target)) := by
  rw [Build.br, Stage.build_bind]
  exact (labelOf_walks _).next fun _ _ => terminator_walks rfl

theorem condBr_walks (cond : Value) (yes no : Ir.Cursor) :
    Walks (Lowering.Step declared) 1 s (build (.condBr cond yes no)) := by
  rw [Build.condBr, Stage.build_bind]
  refine Walks.mono (m := 0 + (0 + 1)) ((labelOf_walks _).next fun _ s1 => ?_) (Nat.le_refl 1)
  rw [Stage.build_bind]
  exact (labelOf_walks _).next fun _ _ => terminator_walks rfl

theorem fallThrough_walks (target : Ir.Cursor) :
    Walks (Lowering.Step declared) 1 s (fallThrough target) := by
  refine Walks.mono (m := 0 + 1) (isTerminated_walks.next fun ended s1 => ?_) (Nat.le_refl 1)
  cases ended with
  | true => exact (walks_pure _).free
  | false => exact (br_walks target).giving _

theorem branchOn_walks (cond : Option Value) (yes no otherwise : Ir.Cursor) :
    Walks (Lowering.Step declared) 1 s (branchOn cond yes no otherwise) := by
  cases cond with
  | some cond => exact condBr_walks cond yes no
  | none => exact br_walks otherwise

theorem returnValue_walks (value : Option Value) :
    Walks (Lowering.Step declared) 1 s (returnValue value) := by
  cases value <;> exact terminator_walks rfl

theorem implicitReturn_walks (line : Nat) (name : String) (ret : Ty) (last : Result) :
    Walks (Lowering.Step declared) 2 s (implicitReturn line name ret last) := by
  cases last with
  | some last => exact (asResult_walks _ _ _ _).toStep.next fun _ _ => returnValue_walks _
  | none =>
    refine Walks.next (m := 1) (Walks.toStep (Walks.free ?_)) fun _ _ => returnValue_walks _
    exact report_walks _ trivial

theorem returnFrom_walks (line : Nat) (ret : Ty) (value : Result) :
    Walks (Lowering.Step declared) 2 s (returnFrom line ret value) := by
  cases value with
  | some value => exact (asResult_walks _ _ _ _).toStep.next fun _ _ => returnValue_walks _
  | none => exact (returnValue_walks none).mono (Nat.le_succ 1)

theorem appendIf_walks (needed : Bool) (hint : String) :
    Walks (Lowering.Step declared) 1 s (appendIf needed hint) := by
  cases needed with
  | true => exact (appendBlock_walks hint).map _
  | false => exact (walks_pure _).free

theorem openBranch_walks (cond : Expr) (alternative : Bool) (s : Lowering) :
    Walks (Lowering.Step declared) (2 * cond.tokens + 6) s (openBranch cond alternative) :=
  (expr_walks cond s).toStep.next fun _ _ =>
    Walks.mono ((condition_walks _ _).toStep.next fun _ _ =>
    (appendBlock_walks _).next fun _ _ => (appendIf_walks _ _).next fun _ _ =>
    (appendBlock_walks _).next fun _ _ => (branchOn_walks _ _ _ _).next fun _ _ =>
    (moveTo_walks _).giving _) (Nat.le_refl 6)

theorem openLoop_walks (line : Nat) (dest : Place) (value : Expr) (s : Lowering) :
    Walks (Lowering.Step declared) (2 * value.tokens + 1 + (2 * dest.tokens + 0) + 5) s
      (openLoop line dest value) :=
  (assign_walks line dest value s).toStep.next fun _ _ => Walks.mono
    ((appendBlock_walks _).next fun _ _ => (appendBlock_walks _).next fun _ _ =>
    (appendBlock_walks _).next fun _ _ => (br_walks _).next fun _ _ => (moveTo_walks _).giving _)
    (Nat.le_refl 5)

theorem openRound_walks (cond : Expr) (blocks : LoopBlocks) (s : Lowering) :
    Walks (Lowering.Step declared) (2 * cond.tokens + 3) s (openRound cond blocks) :=
  (expr_walks cond s).toStep.next fun _ _ =>
    Walks.mono ((condition_walks _ _).toStep.next fun _ _ =>
    (branchOn_walks _ _ _ _).next fun _ _ => (moveTo_walks _).giving _) (Nat.le_refl 3)

/-! ## Procedures and statements -/

theorem openScope_walks (label : String) (frame : Frame) :
    Walks (Lowering.Step declared) 0 s (openScope label frame) :=
  walks_one rfl (.scopes s (⟨label, []⟩ :: s.symbols.locals) (frame :: s.frames)) (Nat.le_refl _)

theorem closeScope_walks : Walks (Lowering.Step declared) 0 s closeScope := by
  refine walks_get ?_
  cases hpop : s.symbols.pop? with
  | none => exact walks_of fun a s' run => by cases run
  | some symbols =>
    unfold SymbolTable.pop? at hpop
    split at hpop
    · cases hpop
    · cases hpop
      exact walks_one rfl (.scopes s _ s.frames.tail) (Nat.le_refl _)

theorem openProcedure_walks (line : Nat) {heading : Heading} (hdeclared : declared heading.name) :
    Walks (Lowering.Step declared) 0 s (openProcedure line heading) := by
  by_cases hproper : heading.Proper
  · obtain ⟨ret, params, -, run⟩ := openProcedure_proper s line hproper
    cases hd : s.symbols.isDeclared heading.name heading.isGlobal with
    | true =>
      rw [hd, if_pos rfl] at run
      refine walks_one run (.plain (.report fun e he => ?_)) (Nat.le_refl _)
      rw [List.mem_singleton.mp he]
      trivial
    | false =>
      cases htaken : s.module.hasSymbol (s.symbols.qualifiedName heading.name) with
      | true =>
        rw [hd, htaken] at run
        exact walks_one run (.refuse hdeclared htaken line) (Nat.le_refl _)
      | false =>
        rw [hd, htaken] at run
        have hadd : s.symbols.add (procedureSymbol s heading ret params) heading.isGlobal =
            .ok _ := SymbolTable.add_of_not_declared hd
        have hdefine := s.builder.drawn_define (s.symbols.qualifiedName heading.name) ret.ir
          (irParams params)
        have hsame := SymbolTable.add_nextUnique hadd
        refine walks_run run (.tail (.single (.define hdeclared htaken ret.ir (irParams params)))
          (.plain (.declare hadd))) ?_
        exact Nat.le_of_eq (congr (congrArg (· + ·) hdefine) hsame)
  · refine walks_one (openProcedure_improper s line hproper) (.plain (.report ?_)) (Nat.le_refl _)
    exact Heading.findings_free

/-- A procedure that was opened has as many parameters as its heading. -/
theorem openProcedure_length {line : Nat} {heading : Heading} {opened : Opened}
    {s' : Lowering} (run : openProcedure line heading s = .ok (some opened, s')) :
    opened.params.length = heading.params.length := by
  by_cases hwrong : heading.Wrong s
  · obtain ⟨errors, -, hrun⟩ := openProcedure_wrong line hwrong
    cases hrun.symm.trans run
  · obtain ⟨ret, params, hres, -, hrun⟩ := openProcedure_opened line hwrong
    cases hrun.symm.trans run
    rw [← hres.decls, List.length_map]

theorem enterProcedure_walks (name : String) (opened : Opened) :
    Walks (Lowering.Step declared) (1 + (0 + opened.params.length)) s
      (enterProcedure name opened) :=
  (moveTo_walks _).next fun _ _ => (openScope_walks _ _).next fun _ _ =>
    (bindParams_walks _ _).toStep

theorem unlessEnded_walks {n : Nat} {x : Lower Unit} (hx : Walks (Lowering.Step declared) n s x) :
    Walks (Lowering.Step declared) n s (unlessEnded x) := by
  refine Walks.mono (m := 0 + n) (isTerminated_walks.bind fun ended s1 run => ?_) (by omega)
  obtain ⟨b, hb, rfl⟩ := build_inv run
  obtain ⟨-, rfl⟩ := Build.isTerminated_inv hb
  cases ended with
  | true => exact (walks_pure _).free
  | false => exact hx

/-- The end of a procedure whose body was lowered. -/
theorem closeProcedure_walks {α : Type} (line : Nat) (name : String) (ret : Ty) (last : Result)
    (saved : Option Ir.Cursor) (a : α) :
    Walks (Lowering.Step declared) 3 s (do
      unlessEnded (implicitReturn line name ret last)
      leaveProcedure saved
      return a : Lower α) :=
  (unlessEnded_walks (implicitReturn_walks _ _ _ _)).next fun _ _ =>
    Walks.giving (closeScope_walks.next fun _ _ => restore_walks _) _

theorem procedure_walks {α : Type} {n : Nat} (line : Nat) (name : String) (opened : Opened)
    {body : Lower (Result × α)} (hbody : ∀ s, Walks (Lowering.Step declared) n s body) :
    Walks (Lowering.Step declared) (1 + (0 + opened.params.length) + (n + 3)) s
      (procedure line name opened body) := by
  rw [procedure_eq]
  refine walks_get ((enterProcedure_walks _ _).next fun _ s1 => (hbody s1).next fun r s2 => ?_)
  exact closeProcedure_walks _ _ _ _ _ _

mutual

/-- **Every statement** is lowered by steps. -/
theorem stmt_walks : ∀ {stmt : Stmt}, stmt.DeclaresOnly declared → ∀ s : Lowering,
    Walks (Lowering.Step declared) (2 * stmt.tokens) s stmt.lower
  | .assign dest value line, _, s => by
    rw [Stmt.lower, Stmt.tokens]
    exact Walks.mono ((assign_walks line dest value s).toStep.giving _) (by omega)
  | .call call line, _, s => by
    rw [Stmt.lower, Stmt.tokens]
    exact (expr_walks call s).toStep.giving _
  | .declare decl line, h, s => by
    rw [Stmt.lower, Stmt.tokens]
    exact Walks.mono ((declareVariable_walks h s).toStep.giving _) (by omega)
  | .declareType name mark isGlobal line, _, s => by
    rw [Stmt.lower, Stmt.tokens]
    exact (warn_walks _ _).toStep.giving _
  | .branch cond yes none line, h, s => by
    rw [branch_eq, Stmt.tokens]
    refine Walks.mono ((openBranch_walks cond false s).next fun _ s1 =>
      (block_walks h none s1).next fun _ _ => (fallThrough_walks _).next fun _ _ =>
      (moveTo_walks _).giving _) ?_
    omega
  | .branch cond yes (some no) line, h, s => by
    rw [branchElse_eq, Stmt.tokens]
    have last : ∀ (ended : Bool) (lowered : Result × Stmt) (s1 : Lowering),
        Walks (Lowering.Step declared) 1 s1 (do
          if ended then
            build .unreachable
          return lowered) := by
      intro ended lowered s1
      split
      · exact Walks.giving (terminator_walks rfl) _
      · exact (walks_pure _).free
    refine Walks.mono ((openBranch_walks cond true s).next fun _ s1 =>
      (block_walks h.1 none s1).next fun _ _ => (fallThrough_walks _).next fun yesEnded _ =>
      (moveTo_walks _).next fun _ s2 => (block_walks h.2 none s2).next fun _ _ =>
      (fallThrough_walks _).next fun noEnded _ => (moveTo_walks _).next fun _ s3 =>
      last (yesEnded && noEnded) _ s3) ?_
    omega
  | .loop dest value cond body line, h, s => by
    rw [loop_eq, Stmt.tokens]
    refine Walks.mono ((openLoop_walks line dest value s).next fun _ s1 =>
      (openRound_walks cond _ s1).next fun _ s2 => (block_walks h none s2).next fun _ _ =>
      (fallThrough_walks _).next fun _ _ => (moveTo_walks _).giving _) ?_
    omega
  | .result value line, _, s => by
    rw [Stmt.lower, Stmt.tokens]
    refine walks_get ?_
    cases s.returnType? with
    | none => exact Walks.toStep (reported_walks _ (by trivial) _)
    | some ret =>
      refine Walks.mono (m := 0 + (2 * value.tokens + 2)) ?_ (by omega)
      refine isTerminated_walks.next fun ended s1 => ?_
      cases ended with
      | true => exact Walks.toStep (reported_walks _ (by trivial) _)
      | false =>
        exact (expr_walks value s1).toStep.next fun _ _ => (returnFrom_walks _ _ _).giving _
  | .procedure heading body line, h, s => by
    rw [Stmt.lower, Stmt.tokens]
    refine Walks.mono (m := 0 + (1 + (0 + heading.params.length) + (2 * blockTokens body + 3))) ?_
      (by omega)
    refine (openProcedure_walks _ h.1).bind fun opened s1 run => ?_
    cases opened with
    | none => exact (walks_pure _).free
    | some opened =>
      rw [← openProcedure_length run]
      exact (procedure_walks _ _ _ fun s => block_walks h.2 none s).giving _

/-- **Statements in order** are lowered by steps. -/
theorem block_walks : ∀ {stmts : List Stmt}, BlockDeclaresOnly declared stmts →
    ∀ (last : Result) (s : Lowering),
    Walks (Lowering.Step declared) (2 * blockTokens stmts) s (lowerBlock last stmts)
  | [], _, last, s => by
    rw [lowerBlock]
    exact walks_pure _
  | stmt :: stmts, h, last, s => by
    rw [lowerBlock, blockTokens]
    refine Walks.mono ((stmt_walks h.1 s).next fun _ s1 => (block_walks h.2 _ s1).giving _) ?_
    omega

end

theorem stmt_goes {stmt : Stmt} (h : stmt.DeclaresOnly declared) (s : Lowering) :
    Goes (Lowering.Step declared) s stmt.lower :=
  (stmt_walks h s).goes

end Control

/-! ## The end of a program -/

/-- The end of a program is lowered by steps. -/
theorem finish_walks {declared : String → Prop} (s : Lowering) :
    Walks (Lowering.Step declared) 1 s finish := by
  rw [finish_eq]
  refine Walks.next (m := 1) (n := 0) (walks_get ?_) fun _ s1 => walks_get ?_
  · split
    · exact unlessEnded_walks (terminator_walks rfl)
    · exact (walks_pure _).free
  · split
    · exact walks_get (walks_pure _)
    · exact closeScope_walks.next fun _ _ => walks_get (walks_pure _)

theorem finish_goes {declared : String → Prop} (s : Lowering) :
    Goes (Lowering.Step declared) s finish :=
  (finish_walks s).goes

theorem finish_module {s s' : Lowering} {m : Module} (h : finish s = .ok (m, s')) :
    s'.module = m := by
  rw [finish_eq] at h
  obtain ⟨_, s1, -, h⟩ := run_bind_inv h
  rw [leaveProgram, run_bind run_get] at h
  split at h
  · cases h
    rfl
  · obtain ⟨_, s2, -, h⟩ := run_bind_inv h
    cases h
    rfl

end ProcLang
