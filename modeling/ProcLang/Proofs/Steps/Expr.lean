import ProcLang.Proofs.Declaring
import ProcLang.Proofs.Productions
import ProcLang.Proofs.Steps

/-!
# Steps of expressions

Lowering an expression takes plain steps (`expr_walks`): it adds instructions and global data,
declares routines and reports errors. Only a call that compares strings is a call of the routine for
that. At most two numbers are drawn for each token.
-/

namespace ProcLang

open Ir Lower Naming
open Lowering (Plain)

/-! ## Findings and names -/

section Small

variable {s : Lowering} {α : Type} {declared : String → Prop}

theorem report_walks (line : Nat) {cause : LowerCause} (hfree : cause.Free) :
    Walks (Plain declared) 0 s (report line cause : Lower (Option α)) := by
  refine walks_one rfl (.report fun e he => ?_) (Nat.le_refl _)
  rw [List.mem_singleton.mp he]
  exact hfree

/-- What is given back for an error draws nothing. -/
theorem reported_walks {β : Type} {n : Nat} (line : Nat) {cause : LowerCause} (hfree : cause.Free)
    (g : Option α → β) : Walks (Plain declared) n s (report line cause >>= fun r => pure (g r)) :=
  ((report_walks line hfree).giving g).free

theorem warn_walks (line : Nat) (message : String) :
    Walks (Plain declared) 0 s (warn line message) :=
  walks_one rfl (.warn s (s.warnings ++ [.warning line message])) (Nat.le_refl _)

theorem orReport_walks (line : Nat) {outcome : Except LowerCause α}
    (hfree : ∀ cause, outcome = .error cause → cause.Free) :
    Walks (Plain declared) 0 s (orReport line outcome) := by
  cases outcome with
  | ok a => exact walks_pure _
  | error cause => exact report_walks line (hfree cause rfl)

theorem resolveVariable_free {name : String} {cause : LowerCause}
    (h : s.resolveVariable name = .error cause) : cause.Free := by
  unfold Lowering.resolveVariable at h
  split at h
  · cases h
    trivial
  · split at h
    · cases h
      trivial
    · split at h <;> cases h
      trivial

/-- Global data are added under a name that is handed out for them. -/
theorem addUnique_walks (hint : String) (line : Nat) {g : String → Global}
    (hg : ∀ name, (g name).name = name) {k : String → Except NameTaken Value → Lower (Option α)}
    (hok : ∀ name v, ∃ a, k name (.ok v) = pure a)
    (herror : ∀ name e, k name (.error e) = report line (.nameTaken e)) :
    Walks (Plain declared) 1 s (do
      let name ← uniqueName hint
      let outcome ← build (.addGlobal (g name))
      k name outcome) := by
  have hname := hg (s.symbols.uniqueName hint)
  have hissued : Issued (s.symbols.nextUnique + 1) (g (s.symbols.uniqueName hint)).name := by
    rw [hname]
    exact issued_numbered _ _
  refine walks_of fun r s' run => ?_
  rw [run_bind (uniqueName_run s hint)] at run
  obtain ⟨outcome, s1, run1, run2⟩ := run_bind_inv run
  have hadded : Walks (Plain declared) 0 { s with symbols := s.symbols.tick } _ :=
    addGlobal_walks (Or.inl hissued)
  have hdrawn := hadded.draws _ _ run1
  cases outcome with
  | ok v =>
    obtain ⟨a, ha⟩ := hok (s.symbols.uniqueName hint) v
    rw [ha] at run2
    cases run2
    exact ⟨.head (.tick s) (hadded.goes _ _ run1), hdrawn⟩
  | error e =>
    obtain ⟨b, hb, rfl⟩ := build_inv run1
    cases htaken : s.module.hasSymbol (g (s.symbols.uniqueName hint)).name with
    | false => cases (Build.addGlobal_new htaken).symm.trans hb
    | true =>
      cases (Build.addGlobal_taken htaken).symm.trans hb
      rw [herror, hname] at run2
      rw [hname] at htaken
      cases run2
      exact ⟨.single (.clash htaken line), hdrawn⟩

theorem declare_walks (line : Nat) (symbol : Symbol) (isGlobal : Bool) :
    Walks (Plain declared) 0 s (declare line symbol isGlobal) := by
  refine walks_get ?_
  cases hadd : s.symbols.add symbol isGlobal with
  | error e => exact report_walks line trivial
  | ok symbols =>
    have hdrawn := Lowering.drawn_symbols (SymbolTable.add_nextUnique hadd)
    exact walks_one rfl (.declare hadd) (Nat.le_of_eq hdrawn)

theorem coerce_walks (v : Value) (source target : Ty) :
    Walks (Plain declared) 1 s (coerce v source target) := by
  unfold coerce
  split
  · unfold Build.sitofp
    split
    · exact (walks_pure _).free
    · exact emitPlain_walks (fun _ => rfl) fun _ _ => trivial
  · exact (walks_pure _).free

/-- A float is not converted. -/
theorem coerceFloat_walks (v : Value) (target : Ty) :
    Walks (Plain declared) 0 s (coerce v .float target) := by
  cases target <;> exact walks_pure _

end Small

/-! ## Expressions -/

section Expr

variable {s : Lowering} {declared : String → Prop}

/-- Whether an operation asks for floats. -/
def Operation.wantsFloats : Operation → Bool
  | .floats _ | .compareFloats _ => true
  | _ => false

/-- An operation asks for floats only if an operand is one. -/
theorem operation?_float (op : BinaryOp) (lty rty : Ty) :
    (op.operation? lty rty).any Operation.wantsFloats = true → lty = .float ∨ rty = .float := by
  cases op <;> cases lty <;> cases rty <;> decide

/-- At most one of the operands is converted. -/
theorem operate_walks {op : BinaryOp} {lty rty : Ty} {o : Operation}
    (h : op.operation? lty rty = some o) (lhs rhs : Value) :
    Walks (Plain declared) 2 s (operate o lhs lty rhs rty) := by
  have hfloat := operation?_float op lty rty
  rw [h, Option.any_some] at hfloat
  have value : ∀ {s hint ty i}, (∀ d, Instr.isTerminator (i d) = false) →
      (∀ d m, Instr.Linked m (i d)) →
      Walks (Plain declared) 1 s (build (.emitValue hint ty i)) := emitPlain_walks
  cases o with
  | bits | integers | compareIntegers =>
    exact Walks.mono (value (fun _ => rfl) fun _ _ => trivial) (Nat.le_succ 1)
  | floats | compareFloats =>
    rcases hfloat rfl with rfl | rfl
    · exact Walks.mono ((coerceFloat_walks _ _).next fun _ _ => (coerce_walks _ _ _).next fun _ _ =>
        value (fun _ => rfl) fun _ _ => trivial) (Nat.le_refl 2)
    · exact Walks.mono ((coerce_walks _ _ _).next fun _ _ => (coerceFloat_walks _ _).next fun _ _ =>
        value (fun _ => rfl) fun _ _ => trivial) (Nat.le_refl 2)
  | equalStrings =>
    refine Walks.mono ((declareRoutine_walks _).bind (n := 1) fun _ s1 run => ?_) (Nat.le_succ 1)
    obtain ⟨b, hb, rfl⟩ := build_inv run
    refine emitValue_walks (fun _ => rfl) fun n m hfunctions hdeclarations => ?_
    refine Or.inr ⟨⟨n, rfl⟩, rfl, rfl, ?_⟩
    rw [hfunctions, hdeclarations]
    exact declareRoutine_has rfl hb

theorem binary_walks (line : Nat) (op : BinaryOp) (lhs rhs : Result) :
    Walks (Plain declared) 2 s (binary line op lhs rhs) := by
  unfold binary
  split
  · split
    · rename_i h
      exact (operate_walks h _ _).giving _
    · exact Walks.free (report_walks _ trivial)
  · exact (walks_pure _).free

theorem complement_walks (line : Nat) (operand : Result) :
    Walks (Plain declared) 1 s (complement line operand) := by
  unfold complement
  split
  · exact (walks_pure _).free
  · split
    · exact Walks.giving (emitPlain_walks (fun _ => rfl) fun _ _ => by trivial) _
    · exact Walks.free (report_walks _ trivial)

theorem literal_walks (line : Nat) (value : Literal) :
    Walks (Plain declared) 1 s (literal line value) := by
  cases value with
  | integer | float | bool => exact (walks_pure _).free
  | string text =>
    exact addUnique_walks _ line (fun _ => rfl) (fun _ _ => ⟨_, rfl⟩) fun _ _ => rfl

theorem negate_walks (line : Nat) (negated : Bool) (value : Value) (ty : Ty) :
    Walks (Plain declared) negated.toNat s (negate line negated value ty) := by
  unfold negate
  cases negated with
  | false => exact walks_pure _
  | true =>
    rw [if_pos rfl]
    split
    · exact Walks.giving (emitPlain_walks (fun _ => rfl) fun _ _ => by trivial) _
    · exact Walks.giving (emitPlain_walks (fun _ => rfl) fun _ _ => by trivial) _
    · exact Walks.free (report_walks _ trivial)

theorem readAt_walks (place : Place) (symbol : Symbol) (address : Option Value) :
    Walks (Plain declared) (1 + place.negated.toNat) s (readAt place symbol address) := by
  cases address with
  | none => exact (walks_pure _).free
  | some address =>
    exact Walks.next (emitPlain_walks (fun _ => rfl) fun _ _ => trivial) fun _ _ =>
      negate_walks _ _ _ _

theorem elementAddress_walks (line : Nat) (symbol : Symbol) (index : Result) :
    Walks (Plain declared) 1 s (elementAddress line symbol index) := by
  unfold elementAddress
  split
  · exact (walks_pure _).free
  · refine Walks.map ?_ _
    exact emitPlain_walks (fun _ => rfl) fun _ _ => trivial
  · exact Walks.free (report_walks _ trivial)

theorem passArray_walks (line : Nat) (slot : ArgumentSlot) (array : Symbol) (len : Nat) :
    Walks (Plain declared) 0 s (passArray line slot array len) := by
  unfold passArray
  split
  · split
    · exact walks_pure _
    · exact report_walks _ trivial
  · exact walks_pure _

theorem passValue_walks (line : Nat) (slot : ArgumentSlot) (value : Result) :
    Walks (Plain declared) 1 s (passValue line slot value) := by
  unfold passValue
  split
  · exact (walks_pure _).free
  · split
    · split
      · exact (coerce_walks _ _ _).map _
      · exact Walks.free (report_walks _ trivial)
    · exact (walks_pure _).free

theorem finishCall_walks (line : Nat) (callee : String) (symbol : Symbol)
    (params : List ParamShape) (args : List (Option Value)) :
    Walks (Plain declared) 1 s (finishCall line callee symbol params args) := by
  unfold finishCall
  split
  · exact Walks.free (report_walks _ trivial)
  · split
    · exact (walks_pure _).free
    · refine Walks.mono ((declareRoutine_walks _).next fun _ _ => Walks.giving ?_ _)
        (Nat.le_refl (0 + 1))
      exact emitValue_walks (fun _ => rfl) fun n _ _ _ => Or.inl ⟨n, rfl⟩

mutual

/-- **An expression** is lowered by plain steps. -/
theorem expr_walks : ∀ (e : Expr) (s : Lowering),
    Walks (Plain declared) (2 * e.tokens) s e.lower
  | .literal value line _, s => by
    rw [Expr.lower]
    exact Walks.mono ((literal_walks line value).giving _) (Nat.le_succ 1)
  | .read place line _, s => by
    rw [Expr.lower, Expr.tokens]
    refine walks_get (Walks.mono (m := 0 + (2 * place.tokens + 2)) ?_ (by omega))
    refine (orReport_walks _ fun _ => resolveVariable_free).next fun found s1 => ?_
    cases found with
    | none => exact (walks_pure _).free
    | some symbol =>
      have hnegated := Bool.toNat_le place.negated
      refine (place_walks symbol place s1).next fun r s2 => ?_
      exact Walks.mono ((readAt_walks place symbol r.1).giving _) (by omega)
  | .not operand line _, s => by
    rw [Expr.lower, Expr.tokens]
    refine Walks.mono ((expr_walks operand s).next fun r s1 =>
      (complement_walks line r.1).giving _) ?_
    omega
  | .binary op lhs rhs line _, s => by
    rw [Expr.lower, Expr.tokens]
    refine Walks.mono ((expr_walks lhs s).next fun l s1 => (expr_walks rhs s1).next fun r s2 =>
      (binary_walks line op l.1 r.1).giving _) ?_
    omega
  | .call callee args line _, s => by
    rw [Expr.lower, Expr.tokens]
    refine walks_get ?_
    cases s.symbols.lookup? callee with
    | none => exact reported_walks _ (by trivial) _
    | some symbol =>
      dsimp only
      cases symbol.kind with
      | procedure params =>
        refine Walks.mono ((args_walks callee args 1 params s).next fun r s1 =>
          (finishCall_walks line callee symbol params r.1).giving _) ?_
        omega
      | _ => exact reported_walks _ (by trivial) _

/-- **A place** is lowered by plain steps. Its name draws no number. -/
theorem place_walks (symbol : Symbol) : ∀ (place : Place) (s : Lowering),
    Walks (Plain declared) (2 * place.tokens) s (place.lower symbol)
  | .whole name negated line, s => by
    rw [Place.lower]
    split
    · exact (walks_pure _).free
    · exact reported_walks _ (by trivial) _
    · exact reported_walks _ (by trivial) _
  | .element name index negated line, s => by
    rw [Place.lower, Place.tokens]
    cases symbol.kind with
    | array len =>
      refine Walks.mono ((expr_walks index s).next fun r s1 =>
        (elementAddress_walks line symbol r.1).giving _) ?_
      omega
    | _ => exact reported_walks _ (by trivial) _

/-- **Arguments** are lowered by plain steps. -/
theorem args_walks (callee : String) : ∀ (args : List Expr) (position : Nat)
    (params : List ParamShape) (s : Lowering),
    Walks (Plain declared) (2 * argsTokens args) s (lowerArgs callee position params args)
  | [], position, params, s => by
    rw [lowerArgs]
    exact walks_pure _
  | arg :: args, position, params, s => by
    rw [lowerArgs, argsTokens]
    have rest : ∀ (value : Option Value) (lowered : Expr) (s1 : Lowering),
        Walks (Plain declared) (2 * argsTokens args) s1 (do
          let (values, rest) ← lowerArgs callee (position + 1) params.tail args
          return (value :: values, lowered :: rest)) := fun value lowered s1 =>
      (args_walks callee args (position + 1) params.tail s1).giving _
    refine walks_get ?_
    cases wholeArray? s arg with
    | some found =>
      refine Walks.mono ((passArray_walks _ _ _ _).next fun value s1 => rest value _ s1) ?_
      omega
    | none =>
      refine Walks.mono ((expr_walks arg s).next fun r s1 =>
        (passValue_walks _ _ r.1).next fun value s2 => rest value r.2 s2) ?_
      omega

end

end Expr

end ProcLang
