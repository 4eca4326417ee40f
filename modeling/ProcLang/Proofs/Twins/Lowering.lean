import ProcLang.Proofs.Building
import ProcLang.Proofs.Grammar
import ProcLang.Proofs.Openings

/-!
# Lowering does not look at lines

The lines in a tree go into what is found wrong with a program and nowhere else, and what has been
found is never looked at. So a tree and the same tree without its lines are lowered alike from
states that differ in their findings only (`Lowering.Twins.stmt`). `Lowering.Twins` says what is
asked of a relation between such states; how it compares the findings is left open.
-/

namespace ProcLang

open Ir

/-- A relation between states that differ in their findings only. It is kept when both states change
in the same way, and when the same is found on any two lines. -/
structure Lowering.Twins (R : Lowering → Lowering → Prop) : Prop where
  builder : ∀ {s t}, R s t → s.builder = t.builder
  symbols : ∀ {s t}, R s t → s.symbols = t.symbols
  frames : ∀ {s t}, R s t → s.frames = t.frames
  change : ∀ {s t} builder symbols frames, R s t →
    R { s with builder, symbols, frames } { t with builder, symbols, frames }
  report : ∀ {s t} line line' cause, R s t →
    R { s with errors := s.errors ++ [⟨line, cause⟩] }
      { t with errors := t.errors ++ [⟨line', cause⟩] }
  warn : ∀ {s t} line line' message, R s t →
    R { s with warnings := s.warnings ++ [.warning line message] }
      { t with warnings := t.warnings ++ [.warning line' message] }

namespace Lower

/-- The outcomes of two steps: the same fault, or values and states that are related. -/
inductive Outcomes {α β : Type} (R : Lowering → Lowering → Prop) (same : α → β → Prop) :
    Except Fault (α × Lowering) → Except Fault (β × Lowering) → Prop
  | fault (fault : Fault) : Outcomes R same (.error fault) (.error fault)
  | ok {a : α} {b : β} {s t : Lowering} (value : same a b) (state : R s t) :
    Outcomes R same (.ok (a, s)) (.ok (b, t))

theorem Outcomes.of_ok {α β : Type} {R : Lowering → Lowering → Prop}
    {same : α → β → Prop} {a : α} {s : Lowering} {y : Except Fault (β × Lowering)}
    (h : Outcomes R same (.ok (a, s)) y) : ∃ b t, y = .ok (b, t) ∧ same a b ∧ R s t := by
  cases h with
  | ok value state => exact ⟨_, _, rfl, value, state⟩

theorem Outcomes.to_ok {α β : Type} {R : Lowering → Lowering → Prop}
    {same : α → β → Prop} {b : β} {t : Lowering} {x : Except Fault (α × Lowering)}
    (h : Outcomes R same x (.ok (b, t))) : ∃ a s, x = .ok (a, s) ∧ same a b ∧ R s t := by
  cases h with
  | ok value state => exact ⟨_, _, rfl, value, state⟩

/-- From related states two steps lead to related outcomes. -/
def Agree {α β : Type} (R : Lowering → Lowering → Prop) (same : α → β → Prop) (x : Lower α)
    (y : Lower β) : Prop :=
  ∀ s t, R s t → Outcomes R same (x s) (y t)

/-- Two pairs have the same first part. A step that lowers a tree gives the tree in the second. -/
def SameFirst {α β : Type} (a b : α × β) : Prop :=
  a.1 = b.1

/-! ## Steps in order -/

section Agree

variable {R : Lowering → Lowering → Prop} {α β γ δ : Type} {same : α → β → Prop}
  {same' : γ → δ → Prop}

theorem agree_pure {a : α} {b : β} (h : same a b) : Agree R same (pure a) (pure b) :=
  fun _ _ hR => .ok h hR

theorem Agree.bind {x : Lower α} {y : Lower β} {f : α → Lower γ} {g : β → Lower δ}
    (h : Agree R same x y) (hf : ∀ a b, same a b → Agree R same' (f a) (g b)) :
    Agree R same' (x >>= f) (y >>= g) := by
  intro s t hR
  have hxy := h s t hR
  cases hx : x s with
  | error fault =>
    cases hy : y t with
    | error fault' =>
      rw [hx, hy] at hxy
      cases hxy
      rw [run_bind_error hx, run_bind_error hy]
      exact .fault fault
    | ok r =>
      rw [hx, hy] at hxy
      cases hxy
  | ok r =>
    obtain ⟨a, s'⟩ := r
    cases hy : y t with
    | error fault' =>
      rw [hx, hy] at hxy
      cases hxy
    | ok r =>
      obtain ⟨b, t'⟩ := r
      rw [hx, hy] at hxy
      cases hxy with
      | ok value state =>
        rw [run_bind hx, run_bind hy]
        exact hf a b value s' t' state

/-- A step in front of two others that both use its value. -/
theorem Agree.next {x y : Lower α} {f : α → Lower γ} {g : α → Lower δ} (h : Agree R Eq x y)
    (hf : ∀ a, Agree R same' (f a) (g a)) : Agree R same' (x >>= f) (y >>= g) :=
  h.bind fun a _ hab => hab ▸ hf a

/-- A step that lowers trees, in front of two others that do not look at what the trees become. -/
theorem Agree.nextFirst {x y : Lower (α × β)} {f : α × β → Lower γ} {g : α × β → Lower δ}
    (h : Agree R SameFirst x y) (hf : ∀ a b b', Agree R same' (f (a, b)) (g (a, b'))) :
    Agree R same' (x >>= f) (y >>= g) := by
  refine h.bind fun ⟨a, b⟩ ⟨a', b'⟩ hab => ?_
  obtain rfl : a = a' := hab
  exact hf a b b'

theorem Agree.map {x : Lower α} {y : Lower β} (h : Agree R same x y) {f : α → γ} {g : β → δ}
    (hf : ∀ a b, same a b → same' (f a) (g b)) : Agree R same' (f <$> x) (g <$> y) := by
  rw [map_eq_pure_bind, map_eq_pure_bind]
  exact h.bind fun a b hab => agree_pure (hf a b hab)

theorem agree_ite {c : Prop} [Decidable c] {x x' : Lower α} {y y' : Lower β} (h : Agree R same x y)
    (h' : Agree R same x' y') : Agree R same (if c then x else x') (if c then y else y') := by
  split
  · exact h
  · exact h'

theorem agree_get {f : Lowering → Lower γ} {g : Lowering → Lower δ}
    (h : ∀ s t, R s t → Agree R same' (f s) (g t)) : Agree R same' (get >>= f) (get >>= g) :=
  fun s t hR => h s t hR s t hR

theorem agree_modify {f g : Lowering → Lowering} (h : ∀ s t, R s t → R (f s) (g t)) :
    Agree R Eq (modify f : Lower Unit) (modify g) :=
  fun s t hR => .ok rfl (h s t hR)

end Agree

end Lower

open Lower (Agree SameFirst agree_pure agree_ite agree_get agree_modify)

/-- Parameters with their types, without their lines. -/
def Lower.paramsUnlined (params : List (VariableDecl × ParamShape)) :
    List (VariableDecl × ParamShape) :=
  params.map (Prod.map VariableDecl.unlined id)

/-- A procedure that was declared, without its lines. -/
def Lower.Opened.unlined (opened : Lower.Opened) : Lower.Opened :=
  { opened with params := paramsUnlined opened.params }

theorem Place.unlined_name (place : Place) : place.unlined.name = place.name := by
  cases place <;> rfl

namespace Lowering.Twins

variable {R : Lowering → Lowering → Prop} (tw : Lowering.Twins R) (line line' : Nat)

include tw

/-! ## Findings, names and scopes -/

section Small

variable {s t : Lowering} {α : Type}

/-- Both states change in the same way. -/
theorem changed {builder builder' : Builder} {symbols symbols' : SymbolTable}
    {frames frames' : List Frame} (h : R s t) (hbuilder : builder = builder')
    (hsymbols : symbols = symbols') (hframes : frames = frames') :
    R { s with builder, symbols, frames }
      { t with builder := builder', symbols := symbols', frames := frames' } := by
  subst hbuilder hsymbols hframes
  exact tw.change builder symbols frames h

theorem resolveVariable (h : R s t) (name : String) :
    s.resolveVariable name = t.resolveVariable name := by
  rw [Lowering.resolveVariable, Lowering.resolveVariable, tw.symbols h]

theorem build (step : Build α) : Agree R Eq (Lower.build step) (Lower.build step) := by
  intro s t h
  unfold Lower.build
  rw [tw.builder h]
  cases step t.builder with
  | error fault => exact .fault fault
  | ok r => exact .ok rfl (tw.changed h rfl (tw.symbols h) (tw.frames h))

theorem reportOn (cause : LowerCause) :
    Agree R Eq (Lower.report line cause : Lower (Option α)) (Lower.report line' cause) :=
  fun _ _ h => .ok rfl (tw.report line line' cause h)

theorem orReport (outcome : Except LowerCause α) :
    Agree R Eq (Lower.orReport line outcome) (Lower.orReport line' outcome) := by
  cases outcome with
  | ok a => exact agree_pure rfl
  | error cause => exact tw.reportOn line line' cause

theorem uniqueName (hint : String) :
    Agree R Eq (Lower.uniqueName hint) (Lower.uniqueName hint) := by
  refine agree_get fun s t h => ?_
  rw [tw.symbols h]
  refine Agree.next (agree_modify fun s t h => ?_) fun _ => agree_pure rfl
  exact tw.changed h (tw.builder h) (congrArg SymbolTable.tick (tw.symbols h)) (tw.frames h)

theorem openScope (label : String) (frame : Frame) :
    Agree R Eq (Lower.openScope label frame) (Lower.openScope label frame) := by
  refine agree_modify fun s t h => tw.changed h (tw.builder h) ?_ ?_
  · rw [tw.symbols h]
  · rw [tw.frames h]

theorem closeScope : Agree R Eq Lower.closeScope Lower.closeScope := by
  refine agree_get fun s t h => ?_
  rw [tw.symbols h]
  cases t.symbols.pop? with
  | none => exact fun _ _ _ => .fault _
  | some symbols =>
    refine agree_modify fun s t h => tw.changed h (tw.builder h) rfl ?_
    rw [tw.frames h]

theorem declare (symbol : Symbol) (isGlobal : Bool) :
    Agree R Eq (Lower.declare line symbol isGlobal) (Lower.declare line' symbol isGlobal) := by
  refine agree_get fun s t h => ?_
  rw [tw.symbols h]
  cases t.symbols.add symbol isGlobal with
  | error e => exact tw.reportOn line line' _
  | ok symbols =>
    refine Agree.next (agree_modify fun s t h => ?_) fun _ => agree_pure rfl
    exact tw.changed h (tw.builder h) rfl (tw.frames h)

theorem coerce (value : Value) (source target : Ty) :
    Agree R Eq (Lower.coerce value source target) (Lower.coerce value source target) := by
  unfold Lower.coerce
  split
  · exact tw.build _
  · exact agree_pure rfl

end Small

/-! ## Expressions -/

section Expr

theorem operate (o : Operation) (lhs rhs : Value) (lty rty : Ty) :
    Agree R Eq (Lower.operate o lhs lty rhs rty) (Lower.operate o lhs lty rhs rty) := by
  cases o with
  | bits | integers | compareIntegers => exact tw.build _
  | floats | compareFloats =>
    exact (tw.coerce _ _ _).next fun _ => (tw.coerce _ _ _).next fun _ => tw.build _
  | equalStrings => exact (tw.build _).next fun _ => tw.build _

theorem binary (op : BinaryOp) (lhs rhs : Result) :
    Agree R Eq (Lower.binary line op lhs rhs) (Lower.binary line' op lhs rhs) := by
  unfold Lower.binary
  split
  · split
    · exact (tw.operate _ _ _ _ _).next fun _ => agree_pure rfl
    · exact tw.reportOn _ _ _
  · exact agree_pure rfl

theorem complement (operand : Result) :
    Agree R Eq (Lower.complement line operand) (Lower.complement line' operand) := by
  unfold Lower.complement
  split
  · exact agree_pure rfl
  · split
    · exact (tw.build _).next fun _ => agree_pure rfl
    · exact tw.reportOn _ _ _

theorem literal (value : Literal) :
    Agree R Eq (Lower.literal line value) (Lower.literal line' value) := by
  cases value with
  | integer | float | bool => exact agree_pure rfl
  | string text =>
    refine (tw.uniqueName _).next fun name => (tw.build _).next fun outcome => ?_
    cases outcome with
    | ok => exact agree_pure rfl
    | error => exact tw.reportOn _ _ _

theorem negate (negated : Bool) (value : Value) (ty : Ty) :
    Agree R Eq (Lower.negate line negated value ty) (Lower.negate line' negated value ty) := by
  unfold Lower.negate
  split
  · split
    · exact (tw.build _).next fun _ => agree_pure rfl
    · exact (tw.build _).next fun _ => agree_pure rfl
    · exact tw.reportOn _ _ _
  · exact agree_pure rfl

theorem readAt (place : Place) (symbol : Symbol) (address : Option Value) :
    Agree R Eq (Lower.readAt place symbol address) (Lower.readAt place.unlined symbol address) := by
  cases address with
  | none => exact agree_pure rfl
  | some address => cases place <;> exact (tw.build _).next fun _ => tw.negate _ _ _ _ _

theorem elementAddress (symbol : Symbol) (index : Result) :
    Agree R Eq (Lower.elementAddress line symbol index)
      (Lower.elementAddress line' symbol index) := by
  unfold Lower.elementAddress
  split
  · exact agree_pure rfl
  · exact (tw.build _).map fun _ _ h => congrArg some h
  · exact tw.reportOn _ _ _

theorem wholeArray? {s t : Lowering} (h : R s t) (arg : Expr) :
    Lower.wholeArray? s arg = Lower.wholeArray? t arg.unlined := by
  cases arg with
  | read place line ty =>
    cases place with
    | whole name negated line' =>
      cases negated with
      | false =>
        simp only [Expr.unlined, Place.unlined, Lower.wholeArray?, tw.resolveVariable h name]
      | true => rfl
    | element => rfl
  | _ => rfl

theorem passArray (slot : Lower.ArgumentSlot) (array : Symbol) (len : Nat) :
    Agree R Eq (Lower.passArray line slot array len) (Lower.passArray line' slot array len) := by
  unfold Lower.passArray
  split
  · split
    · exact agree_pure rfl
    · exact tw.reportOn _ _ _
  · exact agree_pure rfl

theorem passValue (slot : Lower.ArgumentSlot) (value : Result) :
    Agree R Eq (Lower.passValue line slot value) (Lower.passValue line' slot value) := by
  unfold Lower.passValue
  split
  · exact agree_pure rfl
  · split
    · split
      · exact (tw.coerce _ _ _).map fun _ _ h => congrArg some h
      · exact tw.reportOn _ _ _
    · exact agree_pure rfl

theorem finishCall (callee : String) (symbol : Symbol)
    (params : List ParamShape) (args : List (Option Value)) :
    Agree R Eq (Lower.finishCall line callee symbol params args)
      (Lower.finishCall line' callee symbol params args) := by
  unfold Lower.finishCall
  split
  · exact tw.reportOn _ _ _
  · split
    · exact agree_pure rfl
    · exact (tw.build _).next fun _ => (tw.build _).next fun _ => agree_pure rfl

mutual

/-- **An expression** is lowered as it is without its lines. -/
theorem expr : ∀ e : Expr, Agree R SameFirst e.lower e.unlined.lower
  | .literal value line _ => by
    rw [Expr.unlined, Expr.lower, Expr.lower]
    exact (tw.literal line 0 value).next fun _ => agree_pure rfl
  | .read mention line _ => by
    rw [Expr.unlined, Expr.lower, Expr.lower]
    refine agree_get fun s t h => ?_
    rw [tw.resolveVariable h, Place.unlined_name]
    refine (tw.orReport _ _ _).next fun found => ?_
    cases found with
    | none => exact agree_pure rfl
    | some symbol =>
      refine (place symbol mention).nextFirst fun address _ _ => ?_
      exact (tw.readAt mention symbol address).next fun _ => agree_pure rfl
  | .not operand line _ => by
    rw [Expr.unlined, Expr.lower, Expr.lower]
    refine (expr operand).nextFirst fun value _ _ => ?_
    exact (tw.complement line 0 value).next fun _ => agree_pure rfl
  | .binary op lhs rhs line _ => by
    rw [Expr.unlined, Expr.lower, Expr.lower]
    refine (expr lhs).nextFirst fun left _ _ => (expr rhs).nextFirst fun right _ _ => ?_
    exact (tw.binary line 0 op left right).next fun _ => agree_pure rfl
  | .call callee passed line _ => by
    rw [Expr.unlined, Expr.lower, Expr.lower]
    refine agree_get fun s t h => ?_
    rw [tw.symbols h]
    cases t.symbols.lookup? callee with
    | none => exact (tw.reportOn _ _ _).next fun _ => agree_pure rfl
    | some symbol =>
      dsimp only
      cases symbol.kind with
      | procedure params =>
        refine (args callee passed 1 params).nextFirst fun values _ _ => ?_
        exact (tw.finishCall line 0 callee symbol params values).next fun _ =>
          agree_pure rfl
      | _ => exact (tw.reportOn _ _ _).next fun _ => agree_pure rfl

/-- **A place** is lowered as it is without its lines. -/
theorem place (symbol : Symbol) : ∀ mention : Place,
    Agree R SameFirst (mention.lower symbol) (mention.unlined.lower symbol)
  | .whole name negated line => by
    rw [Place.unlined, Place.lower, Place.lower]
    split
    · exact agree_pure rfl
    · exact (tw.reportOn _ _ _).next fun _ => agree_pure rfl
    · exact (tw.reportOn _ _ _).next fun _ => agree_pure rfl
  | .element name index negated line => by
    rw [Place.unlined, Place.lower, Place.lower]
    cases symbol.kind with
    | array len =>
      refine (expr index).nextFirst fun value _ _ => ?_
      exact (tw.elementAddress line 0 symbol value).next fun _ => agree_pure rfl
    | _ => exact (tw.reportOn _ _ _).next fun _ => agree_pure rfl

/-- **Arguments** are lowered as they are without their lines. -/
theorem args (callee : String) : ∀ (more : List Expr) (position : Nat) (params : List ParamShape),
    Agree R SameFirst (lowerArgs callee position params more)
      (lowerArgs callee position params (argsUnlined more))
  | [], position, params => by
    rw [argsUnlined, lowerArgs]
    exact agree_pure rfl
  | arg :: more, position, params => by
    rw [argsUnlined, lowerArgs, lowerArgs]
    have rest : ∀ (value : Option Value) (lowered lowered' : Expr),
        Agree R SameFirst
          (do
            let (values, rest) ← lowerArgs callee (position + 1) params.tail more
            return (value :: values, lowered :: rest))
          (do
            let (values, rest) ← lowerArgs callee (position + 1) params.tail (argsUnlined more)
            return (value :: values, lowered' :: rest)) := fun value lowered lowered' =>
      (args callee more (position + 1) params.tail).nextFirst fun _ _ _ =>
        agree_pure rfl
    refine agree_get fun s t h => ?_
    rw [tw.wholeArray? h arg]
    cases Lower.wholeArray? t arg.unlined with
    | some found => exact (tw.passArray _ _ _ _ _).next fun value => rest value _ _
    | none =>
      refine (expr arg).nextFirst fun result _ _ => ?_
      exact (tw.passValue _ _ _ result).next fun value => rest value _ _

end

end Expr

/-! ## Declarations and assignments -/

section Declare

theorem globalStorage (name : String) (storage : Ir.Ty) (ty : Ty) (kind : SymbolKind) :
    Agree R Eq (Lower.globalStorage line name storage ty kind)
      (Lower.globalStorage line' name storage ty kind) := by
  refine (tw.build _).next fun outcome => ?_
  cases outcome with
  | ok => exact agree_pure rfl
  | error =>
    refine (tw.uniqueName _).next fun unique => (tw.build _).next fun outcome => ?_
    cases outcome with
    | ok => exact agree_pure rfl
    | error => exact tw.reportOn _ _ _

theorem storage (decl : VariableDecl) (ty : Ty) (len : Option Nat) :
    Agree R Eq (Lower.storage decl ty len) (Lower.storage decl.unlined ty len) := by
  refine agree_ite ?_ ?_
  · exact tw.globalStorage _ _ _ _ _ _
  · exact (tw.build _).next fun _ => agree_pure rfl

/-- **A variable** is declared as it is without its line. -/
theorem declareVariable (decl : VariableDecl) :
    Agree R Eq (Lower.declareVariable decl) (Lower.declareVariable decl.unlined) := by
  refine (tw.orReport _ _ _).next fun ty => ?_
  cases ty with
  | none => exact agree_pure rfl
  | some ty =>
    refine agree_get fun s t h => ?_
    rw [tw.symbols h]
    refine agree_ite ?_ ?_
    · exact tw.reportOn _ _ _
    · refine (tw.orReport _ _ _).next fun len => ?_
      cases len with
      | none => exact agree_pure rfl
      | some len =>
        refine (tw.storage decl ty len).next fun symbol => ?_
        cases symbol with
        | none => exact agree_pure rfl
        | some symbol => exact tw.declare _ _ _ _

theorem condition (value : Result) :
    Agree R Eq (Lower.condition line value) (Lower.condition line' value) := by
  unfold Lower.condition
  split
  · exact agree_pure rfl
  · exact agree_pure rfl
  · exact (tw.build _).map fun _ _ h => congrArg some h
  · exact tw.reportOn _ _ _

theorem assignTo (dest : Place) (value : Value) (ty : Ty) :
    Agree R SameFirst (Lower.assignTo line dest value ty)
      (Lower.assignTo line' dest.unlined value ty) := by
  refine agree_get fun s t h => ?_
  rw [tw.resolveVariable h, Place.unlined_name]
  refine (tw.orReport _ _ _).next fun found => ?_
  cases found with
  | none => exact agree_pure rfl
  | some symbol =>
    refine agree_get fun s t h => ?_
    rw [tw.symbols h]
    cases t.symbols.update { symbol with ty := if ty.fits symbol.ty then symbol.ty else ty } with
    | error => exact (tw.reportOn _ _ _).next fun _ => agree_pure rfl
    | ok symbols =>
      have hmodify : Agree R Eq (modify fun s => { s with symbols } : Lower Unit)
          (modify fun s => { s with symbols }) :=
        agree_modify fun s t h => tw.changed h (tw.builder h) rfl (tw.frames h)
      refine hmodify.next fun _ => (tw.coerce _ _ _).next fun _ => ?_
      refine (tw.place symbol dest).nextFirst fun address _ _ => ?_
      cases address with
      | none => exact agree_pure rfl
      | some address => exact (tw.build _).next fun _ => agree_pure rfl

/-- **An assignment** is lowered as it is without its lines. -/
theorem assign (dest : Place) (value : Expr) :
    Agree R SameFirst (Lower.assign line dest value)
      (Lower.assign line' dest.unlined value.unlined) := by
  refine (tw.expr value).nextFirst fun result _ _ => ?_
  cases result with
  | none => exact agree_pure rfl
  | some result =>
    exact (tw.assignTo line line' dest result.1 result.2).nextFirst fun _ _ _ =>
      agree_pure rfl

end Declare

/-! ## Control flow -/

section Control

theorem fallThrough (target : Ir.Cursor) :
    Agree R Eq (Lower.fallThrough target) (Lower.fallThrough target) := by
  refine (tw.build _).next fun ended => ?_
  cases ended with
  | true => exact agree_pure rfl
  | false => exact (tw.build _).next fun _ => agree_pure rfl

theorem branchOn (cond : Option Value) (yes no otherwise : Ir.Cursor) :
    Agree R Eq (Lower.branchOn cond yes no otherwise) (Lower.branchOn cond yes no otherwise) := by
  cases cond <;> exact tw.build _

theorem returnValue (value : Option Value) :
    Agree R Eq (Lower.returnValue value) (Lower.returnValue value) := by
  cases value <;> exact tw.build _

theorem asResult (ret : Ty) (value : Value) (ty : Ty) :
    Agree R Eq (Lower.asResult line ret value ty) (Lower.asResult line' ret value ty) := by
  unfold Lower.asResult
  split
  · exact (tw.coerce _ _ _).map fun _ _ h => congrArg some h
  · exact tw.reportOn _ _ _

theorem implicitReturn (name : String) (ret : Ty) (last : Result) :
    Agree R Eq (Lower.implicitReturn line name ret last)
      (Lower.implicitReturn line' name ret last) := by
  cases last with
  | some last => exact (tw.asResult _ _ _ _ _).next fun _ => tw.returnValue _
  | none => exact (tw.reportOn _ _ _).next fun _ => tw.returnValue _

theorem returnFrom (ret : Ty) (value : Result) :
    Agree R Eq (Lower.returnFrom line ret value) (Lower.returnFrom line' ret value) := by
  cases value with
  | some value => exact (tw.asResult _ _ _ _ _).next fun _ => tw.returnValue _
  | none => exact tw.returnValue none

end Control

/-! ## Procedures -/

section Procedure

theorem resolveParams : ∀ decls : List VariableDecl,
    Agree R (fun a b => b = a.map Lower.paramsUnlined) (Lower.resolveParams decls)
      (Lower.resolveParams (decls.map VariableDecl.unlined))
  | [] => agree_pure rfl
  | decl :: decls => by
    rw [List.map_cons, Lower.resolveParams, Lower.resolveParams]
    refine (tw.orReport _ _ _).next fun ty => (tw.orReport _ _ _).next fun len => ?_
    refine (resolveParams decls).bind fun rest _ hrest => ?_
    subst hrest
    cases ty with
    | none => exact agree_pure rfl
    | some ty =>
      cases len with
      | none => exact agree_pure rfl
      | some len => cases rest <;> exact agree_pure rfl

theorem openProcedure (heading : Heading) :
    Agree R (fun a b => b = a.map Lower.Opened.unlined) (Lower.openProcedure line heading)
      (Lower.openProcedure line' heading.unlined) := by
  refine (tw.orReport _ _ _).next fun ret => ?_
  refine (tw.resolveParams heading.params).bind fun params _ hparams => ?_
  subst hparams
  cases ret with
  | none => exact agree_pure rfl
  | some ret =>
    cases params with
    | none => exact agree_pure rfl
    | some params =>
      refine agree_get fun s t h => ?_
      rw [tw.symbols h]
      have refused : ∀ cause, Agree R (fun a b => b = a.map Lower.Opened.unlined)
          (Lower.report line cause) (Lower.report line' cause) := fun cause s t h =>
        .ok rfl (tw.report line line' cause h)
      refine agree_ite (refused _) (agree_get fun s t h => ?_)
      rw [tw.symbols h]
      dsimp only [Option.map_some, Heading.unlined, Lower.paramsUnlined]
      rw [List.map_map, List.map_map]
      refine (tw.build _).next fun outcome => ?_
      cases outcome with
      | error => exact refused _
      | ok entry =>
        refine (tw.declare line line' _ _).next fun declared => ?_
        cases declared <;> exact agree_pure rfl

theorem bindParam (decl : VariableDecl) (shape : ParamShape) :
    Agree R Eq (Lower.bindParam decl shape) (Lower.bindParam decl.unlined shape) := by
  unfold Lower.bindParam
  dsimp only
  cases shape.len with
  | some =>
    refine (agree_pure rfl).next fun _ => ?_
    exact (tw.declare _ _ _ _).next fun _ => agree_pure rfl
  | none =>
    refine (tw.build _).next fun _ => (tw.build _).next fun _ => (agree_pure rfl).next ?_
    exact fun _ => (tw.declare _ _ _ _).next fun _ => agree_pure rfl

theorem bindParams : ∀ params : List (VariableDecl × ParamShape),
    Agree R Eq (Lower.bindParams params) (Lower.bindParams (Lower.paramsUnlined params))
  | [] => agree_pure rfl
  | (decl, shape) :: params => (tw.bindParam decl shape).next fun _ => bindParams params

theorem unlessEnded {x y : Lower Unit} (h : Agree R Eq x y) :
    Agree R Eq (Lower.unlessEnded x) (Lower.unlessEnded y) :=
  (tw.build _).next fun _ => agree_ite (agree_pure rfl) h

theorem procedure {α : Type} (name : String) (opened : Lower.Opened)
    {body body' : Lower (Result × α)} (hbody : Agree R SameFirst body body') :
    Agree R (fun _ _ => True) (Lower.procedure line name opened body)
      (Lower.procedure line' name opened.unlined body') := by
  rw [Lower.procedure_eq, Lower.procedure_eq]
  refine agree_get fun s t h => ?_
  rw [tw.builder h]
  have enter : Agree R Eq (Lower.enterProcedure name opened)
      (Lower.enterProcedure name opened.unlined) :=
    (tw.build _).next fun _ => (tw.openScope _ _).next fun _ => tw.bindParams _
  have leave : Agree R Eq (Lower.leaveProcedure t.builder.cursor)
      (Lower.leaveProcedure t.builder.cursor) := tw.closeScope.next fun _ => tw.build _
  refine enter.next fun _ => hbody.nextFirst fun last a a' => ?_
  refine (tw.unlessEnded (tw.implicitReturn line line' _ _ _)).next fun _ => ?_
  exact leave.next fun _ => agree_pure trivial

end Procedure

/-! ## Statements -/

omit tw

mutual

/-- **A statement** is lowered as it is without its lines. -/
theorem stmt (tw : Lowering.Twins R) : ∀ stmt : Stmt,
    Agree R SameFirst stmt.lower stmt.unlined.lower
  | .assign dest value line => by
    rw [Stmt.unlined, Stmt.lower, Stmt.lower]
    exact (tw.assign line 0 dest value).nextFirst fun _ _ _ => agree_pure rfl
  | .call call line => by
    rw [Stmt.unlined, Stmt.lower, Stmt.lower]
    exact (tw.expr call).nextFirst fun _ _ _ => agree_pure rfl
  | .declare decl line => by
    rw [Stmt.unlined, Stmt.lower, Stmt.lower]
    exact (tw.declareVariable decl).next fun _ => agree_pure rfl
  | .declareType name mark isGlobal line => by
    rw [Stmt.unlined, Stmt.lower, Stmt.lower]
    refine Agree.next (agree_modify fun _ _ h => ?_) fun _ => agree_pure rfl
    exact tw.warn line 0 _ h
  | .branch cond yes none line => by
    rw [Stmt.unlined, Stmt.lower, Stmt.lower]
    refine (tw.expr cond).nextFirst fun value _ _ => (tw.condition _ _ _).next fun test => ?_
    refine (tw.build _).next fun yesBlock => (tw.build _).next fun merge => ?_
    refine (tw.branchOn _ _ _ _).next fun _ => (tw.build _).next fun _ => ?_
    refine (block tw yes none).nextFirst fun _ _ _ => (tw.fallThrough _).next fun _ => ?_
    exact (tw.build _).next fun _ => agree_pure rfl
  | .branch cond yes (some no) line => by
    rw [Stmt.unlined, Stmt.lower, Stmt.lower]
    refine (tw.expr cond).nextFirst fun value _ _ => (tw.condition _ _ _).next fun test => ?_
    refine (tw.build _).next fun yesBlock => (tw.build _).next fun noBlock => ?_
    refine (tw.build _).next fun merge => (tw.branchOn _ _ _ _).next fun _ => ?_
    refine (tw.build _).next fun _ => (block tw yes none).nextFirst fun _ _ _ => ?_
    refine (tw.fallThrough _).next fun yesEnded => (tw.build _).next fun _ => ?_
    refine (block tw no none).nextFirst fun _ _ _ => (tw.fallThrough _).next fun noEnded => ?_
    refine (tw.build _).next fun _ => agree_ite ?_ ?_
    · exact (tw.build _).next fun _ => agree_pure rfl
    · exact agree_pure rfl
  | .loop dest value cond body line => by
    rw [Stmt.unlined, Stmt.lower, Stmt.lower]
    refine (tw.assign line 0 dest value).nextFirst fun _ _ _ => ?_
    refine (tw.build _).next fun condBlock => (tw.build _).next fun bodyBlock => ?_
    refine (tw.build _).next fun endBlock => (tw.build _).next fun _ => ?_
    refine (tw.build _).next fun _ => (tw.expr cond).nextFirst fun result _ _ => ?_
    refine (tw.condition _ _ _).next fun test => (tw.branchOn _ _ _ _).next fun _ => ?_
    refine (tw.build _).next fun _ => (block tw body none).nextFirst fun _ _ _ => ?_
    refine (tw.fallThrough _).next fun _ => (tw.build _).next fun _ => agree_pure rfl
  | .result value line => by
    rw [Stmt.unlined, Stmt.lower, Stmt.lower]
    refine agree_get fun s t h => ?_
    have hreturn : s.returnType? = t.returnType? := by
      rw [Lowering.returnType?, Lowering.returnType?, tw.frames h]
    rw [hreturn]
    cases t.returnType? with
    | none => exact (tw.reportOn _ _ _).next fun _ => agree_pure rfl
    | some ret =>
      refine (tw.build _).next fun ended => agree_ite ?_ ?_
      · exact (tw.reportOn _ _ _).next fun _ => agree_pure rfl
      · refine (tw.expr value).nextFirst fun result _ _ => ?_
        exact (tw.returnFrom _ _ _ _).next fun _ => agree_pure rfl
  | .procedure heading body line => by
    rw [Stmt.unlined, Stmt.lower, Stmt.lower]
    refine (tw.openProcedure line 0 heading).bind fun opened _ hopened => ?_
    subst hopened
    cases opened with
    | none => exact agree_pure rfl
    | some opened =>
      exact (tw.procedure line 0 _ opened (block tw body none)).bind fun _ _ _ =>
        agree_pure rfl

/-- **Statements in order** are lowered as they are without their lines. -/
theorem block (tw : Lowering.Twins R) : ∀ (stmts : List Stmt) (last : Result),
    Agree R SameFirst (lowerBlock last stmts) (lowerBlock last (blockUnlined stmts))
  | [], last => by
    rw [blockUnlined, lowerBlock]
    exact agree_pure rfl
  | first :: stmts, last => by
    rw [blockUnlined, lowerBlock, lowerBlock]
    refine (stmt tw first).nextFirst fun result _ _ => ?_
    exact (block tw stmts _).nextFirst fun _ _ _ => agree_pure rfl

end

include tw

/-- **The end of a program.** -/
theorem finish : Agree R Eq Lower.finish Lower.finish := by
  have last : Agree R Eq (do return (← get).builder.module : Lower Module)
      (do return (← get).builder.module) :=
    agree_get fun s t h => agree_pure (by rw [tw.builder h])
  have hend : Agree R Eq Lower.endProgram Lower.endProgram := by
    refine agree_get fun s t h => ?_
    rw [tw.builder h]
    exact agree_ite (tw.unlessEnded (tw.build _)) (agree_pure rfl)
  rw [Lower.finish_eq]
  refine hend.next fun _ => agree_get fun s t h => ?_
  rw [tw.frames h]
  exact agree_ite last (tw.closeScope.next fun _ => last)

end Lowering.Twins

end ProcLang
