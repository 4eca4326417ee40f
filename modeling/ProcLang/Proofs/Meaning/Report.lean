import ProcLang.Proofs.Meaning.Source
import ProcLang.Proofs.Steps.Stmt

/-!
# What goes wrong is reported

Lowering goes on behind a part that is wrong and gives nothing for it. So that nothing wrong can be
passed over, such a part always leaves an error behind: if the errors are the same as before, every
part was fine.

* `expr_tells`: an expression has a value, or an error was reported;
* `stmt_tells`: errors are never taken back.
-/

namespace ProcLang

open Ir Lower

/-- Errors are never taken back; and if none is added, the result is fine. -/
def Tells {α : Type} (x : Lower α) (fine : α → Prop) : Prop :=
  ∀ (s s' : Lowering) (a : α), x s = .ok (a, s') →
    s.errors <+: s'.errors ∧ (s'.errors = s.errors → fine a)

namespace Tells

variable {α β : Type} {x : Lower α} {f : α → Lower β} {p : α → Prop} {q : β → Prop}

theorem mono (h : Tells x p) {p' : α → Prop} (hp : ∀ a, p a → p' a) : Tells x p' := by
  intro s s' a run
  obtain ⟨herrors, hfine⟩ := h s s' a run
  exact ⟨herrors, fun hsame => hp a (hfine hsame)⟩

theorem bind (hx : Tells x p) (hf : ∀ a, Tells (f a) fun b => p a → q b) : Tells (x >>= f) q := by
  intro s s' b run
  obtain ⟨a, s1, run1, run2⟩ := run_bind_inv run
  obtain ⟨herrors1, hfine1⟩ := hx s s1 a run1
  obtain ⟨herrors2, hfine2⟩ := hf a s1 s' b run2
  refine ⟨herrors1.trans herrors2, fun hsame => ?_⟩
  obtain ⟨hsame1, hsame2⟩ := Stage.errors_between herrors1 herrors2 hsame
  exact hfine2 hsame2 (hfine1 hsame1)

/-- A step whose result does not matter, in front of another one. -/
theorem next (hx : Tells x p) (hf : ∀ a, Tells (f a) q) : Tells (x >>= f) q :=
  hx.bind fun a => (hf a).mono fun _ hb _ => hb

theorem map (hx : Tells x p) {g : α → β} (hg : ∀ a, p a → q (g a)) : Tells (g <$> x) q := by
  intro s s' b run
  obtain ⟨a, run1, rfl⟩ := run_map_inv run
  obtain ⟨herrors, hfine⟩ := hx s s' a run1
  exact ⟨herrors, fun hsame => hg a (hfine hsame)⟩

end Tells

section Steps

variable {α β : Type} {fine : α → Prop}

theorem tells_pure {a : α} (h : fine a) : Tells (pure a) fine := by
  rintro s s' b ⟨⟩
  exact ⟨List.prefix_rfl, fun _ => h⟩

theorem tells_get {f : Lowering → Lower β} {q : β → Prop} (hf : ∀ s, Tells (f s) q) :
    Tells (get >>= f) q := by
  intro s s' b run
  exact hf s s s' b run

theorem tells_modify {g : Lowering → Lowering} (hg : ∀ s, (g s).errors = s.errors) :
    Tells (modify g : Lower Unit) fun _ => True := by
  rintro s s' b ⟨⟩
  exact ⟨hg s ▸ List.prefix_rfl, fun _ => trivial⟩

theorem tells_build (step : Build α) : Tells (build step) fun _ => True := by
  intro s s' a run
  unfold build at run
  cases hstep : step s.builder with
  | error fault =>
    rw [hstep] at run
    cases run
  | ok r =>
    rw [hstep] at run
    cases run
    exact ⟨List.prefix_rfl, fun _ => trivial⟩

/-- **A report** is an error more, so nothing has to be fine behind it. -/
theorem tells_report (line : Nat) (cause : LowerCause) {fine : Option α → Prop} :
    Tells (report line cause) fine := by
  rintro s s' a ⟨⟩
  exact ⟨List.prefix_append _ _, fun hsame => absurd hsame (by simp)⟩

theorem tells_orReport (line : Nat) (outcome : Except LowerCause α) :
    Tells (orReport line outcome) fun r => r.isSome = true := by
  cases outcome with
  | ok a => exact tells_pure rfl
  | error cause => exact tells_report line cause

theorem tells_uniqueName (hint : String) : Tells (uniqueName hint) fun _ => True := by
  refine tells_get fun s => ?_
  refine Tells.next (tells_modify ?_) fun _ => tells_pure trivial
  exact fun _ => rfl

theorem tells_coerce (v : Value) (ty ty' : Ty) : Tells (coerce v ty ty') fun _ => True := by
  unfold coerce
  split
  · exact tells_build _
  · exact tells_pure trivial

end Steps

/-! ## Expressions -/

theorem tells_operate (o : Operation) (lhs rhs : Value) (lty rty : Ty) :
    Tells (operate o lhs lty rhs rty) fun _ => True := by
  cases o with
  | bits | integers | compareIntegers => exact tells_build _
  | floats | compareFloats =>
    exact (tells_coerce _ _ _).next fun _ => (tells_coerce _ _ _).next fun _ => tells_build _
  | equalStrings => exact (tells_build _).next fun _ => tells_build _

theorem tells_binary (line : Nat) (op : BinaryOp) (lhs rhs : Result) :
    Tells (binary line op lhs rhs) fun r =>
      lhs.isSome = true → rhs.isSome = true → r.isSome = true := by
  unfold binary
  split
  · split
    · exact (tells_operate _ _ _ _ _).next fun _ => tells_pure fun _ _ => rfl
    · exact tells_report _ _
  · rename_i hnone
    refine tells_pure fun hl hr => ?_
    obtain ⟨l, rfl⟩ := Option.isSome_iff_exists.mp hl
    obtain ⟨r, rfl⟩ := Option.isSome_iff_exists.mp hr
    exact absurd rfl (hnone l.1 l.2 r.1 r.2 rfl)

theorem tells_complement (line : Nat) (operand : Result) :
    Tells (complement line operand) fun r => operand.isSome = true → r.isSome = true := by
  unfold complement
  split
  · exact tells_pure id
  · split
    · exact (tells_build _).next fun _ => tells_pure fun _ => rfl
    · exact tells_report _ _

theorem tells_literal (line : Nat) (value : Literal) :
    Tells (literal line value) fun r => r.isSome = true := by
  cases value with
  | integer | float | bool => exact tells_pure rfl
  | string text =>
    refine (tells_uniqueName _).next fun _ => (tells_build _).next fun outcome => ?_
    cases outcome with
    | ok => exact tells_pure rfl
    | error => exact tells_report _ _

theorem tells_negate (line : Nat) (negated : Bool) (value : Value) (ty : Ty) :
    Tells (negate line negated value ty) fun r => r.isSome = true := by
  unfold negate
  split
  · split
    · exact (tells_build _).next fun _ => tells_pure rfl
    · exact (tells_build _).next fun _ => tells_pure rfl
    · exact tells_report _ _
  · exact tells_pure rfl

theorem tells_readAt (place : Place) (symbol : Symbol) (address : Option Value) :
    Tells (readAt place symbol address) fun r => address.isSome = true → r.isSome = true := by
  unfold readAt
  split
  · exact tells_pure id
  · exact (tells_build _).next fun _ => (tells_negate _ _ _ _).mono fun _ h _ => h

theorem tells_elementAddress (line : Nat) (symbol : Symbol) (index : Result) :
    Tells (elementAddress line symbol index) fun r => index.isSome = true → r.isSome = true := by
  unfold elementAddress
  split
  · exact tells_pure id
  · exact (tells_build _).map fun _ _ _ => rfl
  · exact tells_report _ _

theorem tells_passArray (line : Nat) (slot : ArgumentSlot) (array : Symbol) (len : Nat) :
    Tells (passArray line slot array len) fun r => r.isSome = true := by
  unfold passArray
  split
  · split
    · exact tells_pure rfl
    · exact tells_report _ _
  · exact tells_pure rfl

theorem tells_passValue (line : Nat) (slot : ArgumentSlot) (value : Result) :
    Tells (passValue line slot value) fun r => value.isSome = true → r.isSome = true := by
  unfold passValue
  split
  · exact tells_pure id
  · split
    · split
      · exact (tells_coerce _ _ _).map fun _ _ _ => rfl
      · exact tells_report _ _
    · exact tells_pure fun _ => rfl

theorem allSome_isSome {α : Type} : ∀ {values : List (Option α)},
    (∀ v ∈ values, v.isSome = true) → (allSome values).isSome = true
  | [], _ => rfl
  | v :: values, h => by
    obtain ⟨a, rfl⟩ := Option.isSome_iff_exists.mp (h v List.mem_cons_self)
    rw [allSome, Option.isSome_map]
    exact allSome_isSome fun v hv => h v (List.mem_cons_of_mem _ hv)

theorem tells_finishCall (line : Nat) (callee : String) (symbol : Symbol)
    (params : List ParamShape) (args : List (Option Value)) :
    Tells (finishCall line callee symbol params args) fun r =>
      (∀ v ∈ args, v.isSome = true) → r.isSome = true := by
  unfold finishCall
  split
  · exact tells_report _ _
  · split
    · rename_i hnone
      refine tells_pure fun hall => ?_
      have hsome := allSome_isSome hall
      rw [hnone] at hsome
      cases hsome
    · exact (tells_build _).next fun _ => (tells_build _).next fun _ => tells_pure fun _ => rfl

mutual

/-- **An expression** has a value, or an error was reported. -/
theorem expr_tells : ∀ e : Expr, Tells e.lower fun r => r.1.isSome = true
  | .literal value line _ => by
    rw [Expr.lower]
    exact (tells_literal line value).bind fun _ => tells_pure id
  | .read place line _ => by
    rw [Expr.lower]
    refine tells_get fun s => (tells_orReport _ _).bind fun found => ?_
    cases found with
    | none => exact tells_pure id
    | some symbol =>
      refine (place_tells symbol place).bind fun r => ?_
      refine (tells_readAt place symbol r.1).bind fun result => ?_
      exact tells_pure fun hresult hplace _ => hresult hplace
  | .not operand line _ => by
    rw [Expr.lower]
    refine (expr_tells operand).bind fun r => ?_
    refine (tells_complement line r.1).bind fun result => ?_
    exact tells_pure fun hresult hoperand => hresult hoperand
  | .binary op lhs rhs line _ => by
    rw [Expr.lower]
    refine (expr_tells lhs).bind fun l => (expr_tells rhs).bind fun r => ?_
    refine (tells_binary line op l.1 r.1).bind fun result => ?_
    exact tells_pure fun hresult hr hl => hresult hl hr
  | .call callee args line _ => by
    rw [Expr.lower]
    refine tells_get fun s => ?_
    cases s.symbols.lookup? callee with
    | none => exact (tells_report _ _).bind fun _ => tells_pure id
    | some symbol =>
      dsimp only
      cases symbol.kind with
      | procedure params =>
        refine (args_tells callee args 1 params).bind fun r => ?_
        refine (tells_finishCall line callee symbol params r.1).bind fun result => ?_
        exact tells_pure fun hresult hargs => hresult hargs
      | _ => exact (tells_report _ _).bind fun _ => tells_pure id

/-- **A place** has an address, or an error was reported. -/
theorem place_tells (symbol : Symbol) :
    ∀ place : Place, Tells (place.lower symbol) fun r => r.1.isSome = true
  | .whole name negated line => by
    rw [Place.lower]
    split
    · exact tells_pure rfl
    · exact (tells_report _ _).bind fun _ => tells_pure id
    · exact (tells_report _ _).bind fun _ => tells_pure id
  | .element name index negated line => by
    rw [Place.lower]
    cases symbol.kind with
    | array len =>
      refine (expr_tells index).bind fun r => ?_
      refine (tells_elementAddress line symbol r.1).bind fun address => ?_
      exact tells_pure fun haddress hindex => haddress hindex
    | _ => exact (tells_report _ _).bind fun _ => tells_pure id

/-- **Arguments** have values, or an error was reported. -/
theorem args_tells (callee : String) : ∀ (args : List Expr) (position : Nat)
    (params : List ParamShape),
    Tells (lowerArgs callee position params args) fun r => ∀ v ∈ r.1, v.isSome = true
  | [], position, params => by
    rw [lowerArgs]
    exact tells_pure fun v hv => by cases hv
  | arg :: args, position, params => by
    rw [lowerArgs]
    have rest : ∀ (value : Option Value) (lowered : Expr), Tells (do
        let (values, rest) ← lowerArgs callee (position + 1) params.tail args
        return (value :: values, lowered :: rest) : Lower (List (Option Value) × List Expr))
        fun r => value.isSome = true → ∀ v ∈ r.1, v.isSome = true := by
      intro value lowered
      refine (args_tells callee args (position + 1) params.tail).bind fun r => ?_
      refine tells_pure fun hrest hvalue v hv => ?_
      rcases List.mem_cons.mp hv with rfl | hv
      · exact hvalue
      · exact hrest v hv
    refine tells_get fun s => ?_
    cases wholeArray? s arg with
    | some found => exact (tells_passArray _ _ _ _).bind fun value => rest value _
    | none =>
      refine (expr_tells arg).bind fun r => ?_
      refine (tells_passValue _ _ r.1).bind fun value => ?_
      exact (rest value r.2).mono fun _ h hvalue hresult => h (hvalue hresult)

end

/-! ## Statements -/

theorem tells_globalStorage (line : Nat) (name : String) (storage : Ir.Ty) (ty : Ty)
    (kind : SymbolKind) :
    Tells (globalStorage line name storage ty kind) fun r => r.isSome = true := by
  refine (tells_build _).next fun outcome => ?_
  cases outcome with
  | ok => exact tells_pure rfl
  | error =>
    refine (tells_uniqueName _).next fun _ => (tells_build _).next fun outcome => ?_
    cases outcome with
    | ok => exact tells_pure rfl
    | error => exact tells_report _ _

theorem tells_storage (decl : VariableDecl) (ty : Ty) (len : Option Nat) :
    Tells (storage decl ty len) fun r => r.isSome = true := by
  unfold storage
  dsimp only
  split
  · exact tells_globalStorage _ _ _ _ _
  · exact (tells_build _).next fun _ => tells_pure rfl

theorem tells_declare (line : Nat) (symbol : Symbol) (isGlobal : Bool) :
    Tells (declare line symbol isGlobal) fun r => r.isSome = true := by
  refine tells_get fun s => ?_
  cases s.symbols.add symbol isGlobal with
  | ok symbols =>
    refine Tells.next (tells_modify ?_) fun _ => tells_pure rfl
    exact fun _ => rfl
  | error => exact tells_report _ _

/-- **A variable** is declared, or an error was reported. -/
theorem tells_declareVariable (decl : VariableDecl) :
    Tells (declareVariable decl) fun r => r.isSome = true := by
  refine (tells_orReport _ _).bind fun ty => ?_
  cases ty with
  | none => exact tells_pure id
  | some ty =>
    refine tells_get fun s => ?_
    split
    · exact tells_report _ _
    · refine (tells_orReport _ _).bind fun len => ?_
      cases len with
      | none => exact tells_pure fun hnone _ => hnone
      | some len =>
        refine (tells_storage decl ty len).bind fun symbol => ?_
        cases symbol with
        | none => exact tells_pure fun hnone _ _ => hnone
        | some symbol => exact (tells_declare _ _ _).mono fun _ h _ _ _ => h

theorem tells_condition (line : Nat) (value : Result) :
    Tells (condition line value) fun r => value.isSome = true → r.isSome = true := by
  unfold condition
  split
  · exact tells_pure id
  · exact tells_pure fun _ => rfl
  · exact (tells_build _).map fun _ _ _ => rfl
  · exact tells_report _ _

theorem tells_assignTo (line : Nat) (dest : Place) (value : Value) (ty : Ty) :
    Tells (assignTo line dest value ty) fun r => r.1.isSome = true := by
  refine tells_get fun s => (tells_orReport _ _).bind fun found => ?_
  cases found with
  | none => exact tells_pure id
  | some symbol =>
    refine tells_get fun s => ?_
    cases s.symbols.update { symbol with ty := if ty.fits symbol.ty then symbol.ty else ty } with
    | error => exact (tells_report _ _).bind fun _ => tells_pure fun h _ => h
    | ok symbols =>
      refine Tells.next (tells_modify ?_) fun _ => (tells_coerce _ _ _).next fun _ => ?_
      · exact fun _ => rfl
      · refine (place_tells symbol dest).bind fun r => ?_
        obtain ⟨address, dest⟩ := r
        cases address with
        | none => exact tells_pure fun hnone _ => hnone
        | some address => exact (tells_build _).next fun _ => tells_pure fun _ _ => rfl

theorem tells_assign (line : Nat) (dest : Place) (value : Expr) :
    Tells (assign line dest value) fun r => r.1.isSome = true := by
  refine (expr_tells value).bind fun r => ?_
  obtain ⟨result, value⟩ := r
  cases result with
  | none => exact tells_pure id
  | some result =>
    refine (tells_assignTo _ _ _ _).bind fun r => ?_
    exact tells_pure fun h _ => h

theorem tells_asResult (line : Nat) (ret : Ty) (value : Value) (ty : Ty) :
    Tells (asResult line ret value ty) fun r => r.isSome = true := by
  unfold asResult
  split
  · exact (tells_coerce _ _ _).map fun _ _ => rfl
  · exact tells_report _ _

/-- **Errors are never taken back**, whatever statement follows. -/
theorem stmt_tells (stmt : Stmt) : Tells stmt.lower fun _ => True :=
  fun s s' r run =>
    ⟨Lowering.errors_of_steps (stmt_goes stmt.declaresOnly_true s r s' run), fun _ => trivial⟩

theorem block_tells (stmts : List Stmt) (last : Result) :
    Tells (lowerBlock last stmts) fun _ => True := by
  intro s s' r run
  have steps := (block_walks (blockDeclaresOnly_true stmts) last s).goes r s' run
  exact ⟨Lowering.errors_of_steps steps, fun _ => trivial⟩

end ProcLang
