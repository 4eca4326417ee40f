import ProcLang.Proofs.Legible

/-!
# Expressions are legible

Lowering an expression with ordinary literals upholds the invariant, and the value that it computes
can be read back (`expr_upholds`). Where an instruction is named after a variable, the name is that
of a symbol.
-/

namespace ProcLang

open Ir Lower Naming

/-- The value of a part of a program, if it has one, can be read back. -/
def Result.Legible (r : Result) : Prop :=
  ∀ p ∈ r, p.1.Legible

/-- The value, if there is one, can be read back. -/
def LegibleValue (v : Option Value) : Prop :=
  ∀ x ∈ v, x.Legible

theorem Result.legible_none : Result.Legible none := fun _ hp => by cases hp

variable {symbol : Symbol} {v : Value}

theorem Result.legible_some (hv : v.Legible) (ty : Ty) : Result.Legible (some (v, ty)) := by
  rintro _ ⟨⟩
  exact hv

theorem legibleValue_none : LegibleValue none := fun _ hv => by cases hv

theorem legibleValue_some (hv : v.Legible) : LegibleValue (some v) := by
  rintro _ ⟨⟩
  exact hv

/-! ## Findings and names -/

section Small

variable {s : Lowering} {α : Type}

/-- A change of the findings. -/
theorem Lowering.Tidy.findings (h : s.Tidy []) (warnings : List Diagnostic)
    (errors : List LowerError) : Tidy [] { s with warnings, errors } :=
  ⟨h.globals, h.functions, h.symbols, h.called⟩

theorem report_upholds (line : Nat) (cause : LowerCause) {post : Option α → Prop} (h : post none) :
    Upholds s (report line cause) post := by
  rintro hs _ _ ⟨⟩
  exact ⟨hs.findings _ _, h⟩

theorem refuse_upholds (line : Nat) (cause : LowerCause) (P : α → Prop) :
    Upholds s (report line cause) fun r => ∀ x, r = some x → P x :=
  report_upholds line cause fun _ hx => by cases hx

theorem warn_upholds (line : Nat) (message : String) : Upholds s (warn line message) Anything :=
  upholds_modify fun hs => hs.findings _ _

theorem orReport_upholds (line : Nat) (outcome : Except LowerCause α) :
    Upholds s (orReport line outcome) fun r => ∀ a, r = some a → outcome = .ok a := by
  cases outcome with
  | ok a => exact upholds_pure fun b hb => by rw [Option.some.inj hb]
  | error cause => exact refuse_upholds line cause _

theorem uniqueName_upholds {hint : String} (hhint : Legible hint) :
    Upholds s (uniqueName hint) Legible := by
  refine upholds_get fun hs => Upholds.next (upholds_modify fun hs => ?_) fun _ _ _ =>
    upholds_pure (hs.uniqueName hhint)
  exact hs.withSymbols hs.symbols.tick

theorem declare_upholds (line : Nat) (hsymbol : symbol.Legible) (isGlobal : Bool) :
    Upholds s (declare line symbol isGlobal) Anything := by
  refine upholds_get fun hs => ?_
  cases hadd : s.symbols.add symbol isGlobal with
  | error e => exact report_upholds line _ trivial
  | ok symbols =>
    refine Upholds.next (upholds_modify fun hs => ?_) fun _ _ _ => upholds_pure trivial
    exact hs.withSymbols (hs.symbols.add hsymbol hadd)

/-- An instruction that gives a value, and names nothing but its result. -/
theorem compute_upholds {hint : String} (hhint : Legible hint) {ty : Ir.Ty} {i : String → Instr}
    (hnames : ∀ d, (i d).names = [d]) (hoperands : ∀ d, ∀ v ∈ (i d).operands, v.Legible) :
    Upholds s (build (.emitValue hint ty i)) Value.Legible :=
  emitValue_upholds hhint fun d hd =>
    ⟨fun _ hname => List.mem_singleton.mp (hnames d ▸ hname) ▸ hd, hoperands d⟩

theorem legible_one (hv : v.Legible) : ∀ x ∈ [v], x.Legible := by
  simpa using hv

theorem legible_two {v w : Value} (hv : v.Legible) (hw : w.Legible) : ∀ x ∈ [v, w], x.Legible := by
  simpa using ⟨hv, hw⟩

theorem coerce_upholds (hv : v.Legible) (source target : Ty) :
    Upholds s (coerce v source target) Value.Legible := by
  unfold coerce
  split
  · unfold Build.sitofp
    split
    · exact upholds_pure (Value.legible_float (Binary32.magnitudeOf_le _ _))
    · exact compute_upholds (by decide) (fun _ => rfl) fun _ => legible_one hv
  · exact upholds_pure hv

end Small

/-! ## Expressions -/

section Expr

variable {s : Lowering} {word : String → Prop}

theorem operate_upholds (o : Operation) {lhs rhs : Value} (hl : lhs.Legible) (hr : rhs.Legible)
    (lty rty : Ty) : Upholds s (operate o lhs lty rhs rty) Value.Legible := by
  cases o with
  | bits op | integers op =>
    exact compute_upholds (legible_binOp op) (fun _ => rfl) fun _ => legible_two hl hr
  | compareIntegers => exact compute_upholds (by decide) (fun _ => rfl) fun _ => legible_two hl hr
  | floats op =>
    refine (coerce_upholds hl _ _).next fun _ _ hl => (coerce_upholds hr _ _).next fun _ _ hr => ?_
    exact compute_upholds (legible_binOp op) (fun _ => rfl) fun _ => legible_two hl hr
  | compareFloats =>
    refine (coerce_upholds hl _ _).next fun _ _ hl => (coerce_upholds hr _ _).next fun _ _ hr => ?_
    exact compute_upholds (by decide) (fun _ => rfl) fun _ => legible_two hl hr
  | equalStrings => exact invoke_upholds (by decide) _ (legible_two hl hr) (by decide)

theorem binary_upholds (line : Nat) (op : BinaryOp) {lhs rhs : Result} (hl : lhs.Legible)
    (hr : rhs.Legible) : Upholds s (binary line op lhs rhs) Result.Legible := by
  unfold binary
  split
  · split
    · refine (operate_upholds _ (hl _ rfl) (hr _ rfl) _ _).next fun _ _ hv => ?_
      exact upholds_pure (Result.legible_some hv _)
    · exact report_upholds _ _ Result.legible_none
  · exact upholds_pure Result.legible_none

theorem complement_upholds (line : Nat) {operand : Result} (h : operand.Legible) :
    Upholds s (complement line operand) Result.Legible := by
  unfold complement
  split
  · exact upholds_pure Result.legible_none
  · rename_i value ty
    have hmask : ∀ mask, allBits? ty = some mask → mask.Legible := by
      intro mask hmask
      cases ty <;> cases hmask
      · exact Value.legible_int _
      · exact Value.legible_bool true
    split
    · rename_i mask heq
      refine Upholds.next (compute_upholds (by decide) (fun _ => rfl) fun _ =>
        legible_two (h _ rfl) (hmask mask heq)) fun _ _ hv => ?_
      exact upholds_pure (Result.legible_some hv _)
    · exact report_upholds _ _ Result.legible_none

theorem literal_upholds (line : Nat) {value : Literal} (h : value.Ordinary) :
    Upholds s (literal line value) Result.Legible := by
  cases value with
  | integer n => exact upholds_pure (Result.legible_some (Value.legible_int n) _)
  | float x => exact upholds_pure (Result.legible_some (Value.legible_float h) _)
  | bool b => exact upholds_pure (Result.legible_some (Value.legible_bool b) _)
  | string text =>
    refine (uniqueName_upholds (by decide)).next fun name _ hname => ?_
    refine Upholds.next (addGlobal_upholds hname) fun outcome _ hv => ?_
    cases outcome with
    | ok address => exact upholds_pure (Result.legible_some (hv address rfl) _)
    | error e => exact report_upholds _ _ Result.legible_none

theorem negate_upholds (line : Nat) (negated : Bool) {value : Value} (h : value.Legible) (ty : Ty) :
    Upholds s (negate line negated value ty) Result.Legible := by
  unfold negate
  split
  · split
    · refine Upholds.next (compute_upholds (by decide) (fun _ => rfl) fun _ =>
        legible_two (Value.legible_int 0) h) fun _ _ hv => ?_
      exact upholds_pure (Result.legible_some hv _)
    · refine Upholds.next (compute_upholds (by decide) (fun _ => rfl) fun _ => legible_one h)
        fun _ _ hv => ?_
      exact upholds_pure (Result.legible_some hv _)
    · exact report_upholds _ _ Result.legible_none
  · exact upholds_pure (Result.legible_some h _)

theorem readAt_upholds {place : Place} (hname : Legible place.name) (symbol : Symbol)
    {address : Option Value} (h : LegibleValue address) :
    Upholds s (readAt place symbol address) Result.Legible := by
  cases address with
  | none => exact upholds_pure Result.legible_none
  | some address =>
    refine Upholds.next (compute_upholds hname (fun _ => rfl) fun _ => legible_one (h _ rfl))
      fun _ _ hv => ?_
    exact negate_upholds _ _ hv _

theorem elementAddress_upholds (line : Nat) (hsymbol : symbol.Legible) {index : Result}
    (h : index.Legible) : Upholds s (elementAddress line symbol index) LegibleValue := by
  unfold elementAddress
  split
  · exact upholds_pure legibleValue_none
  · rename_i i
    have haddress : Upholds s (build (.gep symbol.ty.ir symbol.binding i "elem")) Value.Legible :=
      compute_upholds (by decide) (fun _ => rfl) fun _ => legible_two hsymbol.binding (h _ rfl)
    exact haddress.map fun _ hv => legibleValue_some hv
  · exact report_upholds _ _ legibleValue_none

theorem passArray_upholds (line : Nat) (slot : ArgumentSlot) {array : Symbol}
    (harray : array.Legible) (len : Nat) :
    Upholds s (passArray line slot array len) LegibleValue := by
  unfold passArray
  split
  · split
    · exact upholds_pure (legibleValue_some harray.binding)
    · exact report_upholds _ _ legibleValue_none
  · exact upholds_pure (legibleValue_some harray.binding)

theorem passValue_upholds (line : Nat) (slot : ArgumentSlot) {value : Result}
    (h : value.Legible) : Upholds s (passValue line slot value) LegibleValue := by
  unfold passValue
  split
  · exact upholds_pure legibleValue_none
  · split
    · split
      · exact (coerce_upholds (h _ rfl) _ _).map fun _ hv => legibleValue_some hv
      · exact report_upholds _ _ legibleValue_none
    · exact upholds_pure (legibleValue_some (h _ rfl))

theorem mem_of_allSome {α : Type} : ∀ {xs : List (Option α)} {as : List α},
    allSome xs = some as → ∀ a ∈ as, some a ∈ xs
  | [], _, h, a, ha => by
    cases h
    cases ha
  | none :: _, _, h, _, _ => by cases h
  | some x :: xs, _, h, a, ha => by
    obtain ⟨rest, hrest, rfl⟩ := Option.map_eq_some_iff.mp h
    rcases List.mem_cons.mp ha with rfl | ha
    · exact List.mem_cons_self
    · exact List.mem_cons_of_mem _ (mem_of_allSome hrest a ha)

theorem finishCall_upholds (line : Nat) (callee : String) (hsymbol : symbol.Legible)
    (params : List ParamShape) {args : List (Option Value)}
    (hargs : ∀ arg ∈ args, LegibleValue arg) :
    Upholds s (finishCall line callee symbol params args) Result.Legible := by
  unfold finishCall
  split
  · exact report_upholds _ _ Result.legible_none
  · split
    · exact upholds_pure Result.legible_none
    · rename_i values hvalues
      have hlegible : ∀ v ∈ values, v.Legible := fun v hv =>
        hargs _ (mem_of_allSome hvalues v hv) v rfl
      rw [← bind_assoc]
      refine Upholds.next (invoke_upholds hsymbol.irName _ hlegible (by decide)) fun _ _ hv => ?_
      exact upholds_pure (Result.legible_some hv _)

theorem wholeArray?_legible (h : s.Tidy []) {e : Expr} {array : Symbol} {len : Nat}
    (hwhole : wholeArray? s e = some (array, len)) : array.Legible := by
  unfold wholeArray? at hwhole
  split at hwhole
  · split at hwhole
    · rename_i hresolve
      split at hwhole
      · cases hwhole
        exact (h.resolveVariable hresolve).1
      · cases hwhole
    · cases hwhole
  · cases hwhole

mutual

/-- **An expression**, and its value. -/
theorem expr_upholds : ∀ {e : Expr}, e.AsRead word → ∀ s : Lowering,
    Upholds s e.lower fun r => r.1.Legible
  | .literal value line _, h, s => by
    rw [Expr.lower]
    exact (literal_upholds line h.1).next fun _ _ hv => upholds_pure hv
  | .read place line _, h, s => by
    rw [Expr.lower]
    refine upholds_get fun hs => (orReport_upholds _ _).next fun found s1 hfound => ?_
    cases found with
    | none => exact upholds_pure Result.legible_none
    | some symbol =>
      obtain ⟨hsymbol, hname⟩ := hs.resolveVariable (hfound symbol rfl)
      refine (place_upholds hsymbol h.1 s1).next fun r s2 hr => ?_
      exact (readAt_upholds (hname ▸ hsymbol.name) symbol hr).next fun _ _ hv => upholds_pure hv
  | .not operand line _, h, s => by
    rw [Expr.lower]
    refine (expr_upholds (e := operand) h.1 s).next fun r s1 hr => ?_
    exact (complement_upholds line hr).next fun _ _ hv => upholds_pure hv
  | .binary op lhs rhs line _, h, s => by
    rw [Expr.lower]
    refine (expr_upholds h.1 s).next fun l s1 hl => (expr_upholds h.2.1 s1).next fun r s2 hr => ?_
    exact (binary_upholds line op hl hr).next fun _ _ hv => upholds_pure hv
  | .call callee args line _, h, s => by
    rw [Expr.lower]
    refine upholds_get fun hs => ?_
    cases hlookup : s.symbols.lookup? callee with
    | none =>
      exact Upholds.next (report_upholds _ _ Result.legible_none) fun _ _ hv => upholds_pure hv
    | some symbol =>
      obtain ⟨hsymbol, -⟩ := hs.symbols.lookup? hlookup
      dsimp only
      cases symbol.kind with
      | procedure params =>
        refine (args_upholds callee h.2.1 1 params s).next fun r s1 hr => ?_
        exact (finishCall_upholds line callee hsymbol params hr).next fun _ _ hv => upholds_pure hv
      | _ =>
        exact Upholds.next (report_upholds _ _ Result.legible_none) fun _ _ hv => upholds_pure hv

/-- **A place**, and its address. -/
theorem place_upholds {symbol : Symbol} (hsymbol : symbol.Legible) :
    ∀ {place : Place}, place.AsRead word → ∀ s : Lowering,
      Upholds s (place.lower symbol) fun r => LegibleValue r.1
  | .whole name negated line, _, s => by
    rw [Place.lower]
    split
    · exact upholds_pure (legibleValue_some hsymbol.binding)
    · exact Upholds.next (report_upholds _ _ legibleValue_none) fun _ _ hv => upholds_pure hv
    · exact Upholds.next (report_upholds _ _ legibleValue_none) fun _ _ hv => upholds_pure hv
  | .element name index negated line, h, s => by
    rw [Place.lower]
    cases symbol.kind with
    | array len =>
      refine (expr_upholds (e := index) h.2 s).next fun r s1 hr => ?_
      exact (elementAddress_upholds line hsymbol hr).next fun _ _ hv => upholds_pure hv
    | _ => exact Upholds.next (report_upholds _ _ legibleValue_none) fun _ _ hv => upholds_pure hv

/-- **Arguments**, and their values. -/
theorem args_upholds (callee : String) : ∀ {args : List Expr}, ArgsAsRead word args →
    ∀ (position : Nat) (params : List ParamShape) (s : Lowering),
      Upholds s (lowerArgs callee position params args) fun r => ∀ v ∈ r.1, LegibleValue v
  | [], _, position, params, s => by
    rw [lowerArgs]
    exact upholds_pure (by simp)
  | arg :: args, h, position, params, s => by
    rw [lowerArgs]
    have rest : ∀ {value : Option Value}, LegibleValue value → ∀ (lowered : Expr) (s1 : Lowering),
        Upholds s1 (do
          let (values, rest) ← lowerArgs callee (position + 1) params.tail args
          return (value :: values, lowered :: rest)) fun r => ∀ v ∈ r.1, LegibleValue v :=
      fun hvalue lowered s1 =>
        (args_upholds callee h.2 (position + 1) params.tail s1).next fun _ _ hvalues =>
          upholds_pure (List.forall_mem_cons.mpr ⟨hvalue, hvalues⟩)
    refine upholds_get fun hs => ?_
    cases hwhole : wholeArray? s arg with
    | some found =>
      obtain ⟨array, len⟩ := found
      have harray := wholeArray?_legible hs hwhole
      exact (passArray_upholds _ _ harray len).next fun value s1 hv => rest hv _ s1
    | none =>
      refine (expr_upholds h.1 s).next fun r s1 hr => ?_
      exact (passValue_upholds _ _ hr).next fun value s2 hv => rest hv r.2 s2

end

end Expr

end ProcLang
