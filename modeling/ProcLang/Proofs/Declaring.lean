import ProcLang.Lower.Stmt
import ProcLang.Proofs.Building
import ProcLang.Proofs.Scopes

/-!
# What declarations do

A declaration is looked through before anything is changed. What is found wrong with its types and
bounds depends on the declaration alone (`VariableDecl.findings`, `Heading.findings`); the rest
depends on the names that are taken. For declarations of variables and of procedures this file says
what the state becomes:

* `VariableDecl.Wrong`, `Heading.Wrong`: what makes a declaration wrong;
* `Lower.declareVariable_wrong`, `Lower.openProcedure_wrong`: a wrong declaration adds to the errors
  and changes nothing else;
* `Lowering.Stores`, `Lower.openProcedure_opened`: what a declaration adds that is not wrong.
-/

namespace ProcLang

open Ir

/-! ## Errors that are recorded -/

/-- The state with more errors. -/
def Lowering.recorded (s : Lowering) (errors : List LowerError) : Lowering :=
  { s with errors := s.errors ++ errors }

@[simp]
theorem Lowering.recorded_nil (s : Lowering) : s.recorded [] = s := by
  simp [recorded]

@[simp]
theorem Lowering.recorded_recorded (s : Lowering) (errors more : List LowerError) :
    (s.recorded errors).recorded more = s.recorded (errors ++ more) := by
  simp [recorded]

namespace Lower

/-- What is recorded of an outcome. -/
def findings {α : Type} (line : Nat) : Except LowerCause α → List LowerError
  | .ok _ => []
  | .error cause => [⟨line, cause⟩]

theorem findings_eq_nil {α : Type} {line : Nat} {outcome : Except LowerCause α} :
    findings line outcome = [] ↔ ∃ a, outcome = .ok a := by
  cases outcome <;> simp [findings]

theorem report_run {α : Type} (s : Lowering) (line : Nat) (cause : LowerCause) :
    report (α := α) line cause s = .ok (none, s.recorded [⟨line, cause⟩]) := rfl

theorem orReport_run {α : Type} (s : Lowering) (line : Nat) (outcome : Except LowerCause α) :
    orReport line outcome s = .ok (outcome.toOption, s.recorded (findings line outcome)) := by
  cases outcome with
  | ok a =>
    rw [findings, Lowering.recorded_nil]
    rfl
  | error cause => rfl

/-! ## Types and bounds -/

theorem resolveType_eq_ok {mark : TypeMark} {ty : Ty} :
    resolveType mark = .ok ty ↔ mark = .builtin ty := by
  cases mark <;> simp [resolveType]

theorem lengthOf_eq_ok {name : String} {bound : Option Int} {len : Option Nat} :
    lengthOf name bound = .ok len ↔
      len = bound.map Int.toNat ∧ ∀ n, bound = some n → 1 ≤ n ∧ n ≤ 4294967295 := by
  cases bound with
  | none => simp [lengthOf, eq_comm]
  | some n =>
    rw [lengthOf, arrayLength]
    by_cases hn : 0 < n ∧ n ≤ 0xFFFFFFFF
    · rw [if_pos hn]
      have hbound : 1 ≤ n ∧ n ≤ 4294967295 := by omega
      simp [Functor.map, Except.map, hbound, eq_comm]
    · rw [if_neg hn]
      have hbound : ¬ (1 ≤ n ∧ n ≤ 4294967295) := by omega
      simp [Functor.map, Except.map, hbound]

end Lower

namespace VariableDecl

/-- The types of a declaration stand for a shape. -/
def Resolves (decl : VariableDecl) (shape : ParamShape) : Prop :=
  Lower.resolveType decl.mark = .ok shape.ty ∧ Lower.lengthOf decl.name decl.bound = .ok shape.len

/-- The type of a declaration is one of the language, and its bound one that an array can have. -/
def Proper (decl : VariableDecl) : Prop :=
  (∃ ty, decl.mark = .builtin ty) ∧ ∀ n, decl.bound = some n → 1 ≤ n ∧ n ≤ 4294967295

/-- A shape is told by the type mark and the bound. -/
theorem resolves_iff {decl : VariableDecl} {shape : ParamShape} :
    decl.Resolves shape ↔
      decl.Proper ∧ decl.mark = .builtin shape.ty ∧ shape.len = decl.bound.map Int.toNat := by
  unfold Resolves Proper
  rw [Lower.resolveType_eq_ok, Lower.lengthOf_eq_ok]
  constructor
  · rintro ⟨hty, hlen, hbound⟩
    exact ⟨⟨⟨_, hty⟩, hbound⟩, hty, hlen⟩
  · rintro ⟨⟨-, hbound⟩, hty, hlen⟩
    exact ⟨hty, hlen, hbound⟩

theorem Proper.resolves {decl : VariableDecl} (h : decl.Proper) : ∃ shape, decl.Resolves shape := by
  obtain ⟨ty, hty⟩ := h.1
  exact ⟨⟨ty, decl.bound.map Int.toNat⟩, resolves_iff.mpr ⟨h, hty, rfl⟩⟩

/-- What is wrong with the type and the bound of a declaration. -/
def findings (decl : VariableDecl) : List LowerError :=
  Lower.findings decl.line (Lower.resolveType decl.mark) ++
    Lower.findings decl.line (Lower.lengthOf decl.name decl.bound)

theorem findings_eq_nil {decl : VariableDecl} : decl.findings = [] ↔ decl.Proper := by
  unfold findings Proper
  rw [List.append_eq_nil_iff, Lower.findings_eq_nil, Lower.findings_eq_nil]
  simp only [Lower.resolveType_eq_ok, Lower.lengthOf_eq_ok, exists_and_right, exists_eq, true_and]

end VariableDecl

namespace Heading

/-- The types of a heading stand for a result type and the shapes of the parameters. -/
structure Resolves (heading : Heading) (ret : Ty) (params : List (VariableDecl × ParamShape)) :
    Prop where
  result : Lower.resolveType heading.result = .ok ret
  decls : params.map Prod.fst = heading.params
  shapes : ∀ p ∈ params, p.1.Resolves p.2

/-- The types of a heading are those of the language, and its bounds are those that arrays can
have. -/
def Proper (heading : Heading) : Prop :=
  (∃ ty, heading.result = .builtin ty) ∧ ∀ decl ∈ heading.params, decl.Proper

/-- What is wrong with the types and bounds of a heading. -/
def findings (heading : Heading) (line : Nat) : List LowerError :=
  Lower.findings line (Lower.resolveType heading.result) ++
    heading.params.flatMap VariableDecl.findings

theorem findings_eq_nil {heading : Heading} {line : Nat} :
    heading.findings line = [] ↔ heading.Proper := by
  unfold findings Proper
  rw [List.append_eq_nil_iff, Lower.findings_eq_nil, List.flatMap_eq_nil_iff]
  simp only [Lower.resolveType_eq_ok, VariableDecl.findings_eq_nil]

end Heading

/-! ## Variables -/

/-- What makes the declaration of a variable wrong: its type, its bound, or a name that the scope
has. -/
def VariableDecl.Wrong (s : Lowering) (decl : VariableDecl) : Prop :=
  ¬ decl.Proper ∨ s.symbols.isDeclared decl.name decl.isGlobal = true

/-- The state with more global data in the module. -/
def Lowering.withGlobal (s : Lowering) (g : Global) : Lowering :=
  { s with builder := { s.builder with module := { s.builder.module with
    globals := s.builder.module.globals ++ [g] } } }

/-- The state with one more symbol in the global scope. -/
def Lowering.withGlobalSymbol (s : Lowering) (symbol : Symbol) : Lowering :=
  { s with symbols := { s.symbols with globals := s.symbols.globals ++ [symbol] } }

/-- The symbol of a variable with a shape. -/
def VariableDecl.symbol (decl : VariableDecl) (shape : ParamShape) (binding : Value)
    (moduleName : Option String) (frame : Option Nat) : Symbol :=
  { name := decl.name
    binding
    ty := shape.ty
    kind := match shape.len with
      | none => .variable
      | some len => .array len
    moduleName
    frame }

/-- The form in which a variable with a shape is kept. -/
def ParamShape.storage (shape : ParamShape) : Ir.Ty :=
  match shape.len with
  | none => shape.ty.ir
  | some len => .array len shape.ty.ir

theorem ParamShape.storage_eq (shape : ParamShape) :
    Lower.storageType shape.ty shape.len = shape.storage := by
  obtain ⟨ty, _ | len⟩ := shape <;> rfl

/-- The storage of a variable is added, and one symbol for it. -/
inductive Lowering.Stores (s : Lowering) (decl : VariableDecl) (shape : ParamShape) :
    Lowering → Prop
  /-- A local variable has a slot. The function at the cursor reserves it in its entry, behind the
  slots that stand at the start of the entry. -/
  | slot {index block : Nat} {f : Function} {entry : Block} {later : List Block}
    {slots rest : List Instr} {scope : Scope} {outer : List Scope} :
    decl.isGlobal = false → s.builder.At index f block → f.blocks = entry :: later →
    entry.instrs = slots ++ rest → (∀ i ∈ slots, i.isAlloca = true) →
    (∀ i ∈ rest.head?, i.isAlloca = false) → s.symbols.locals = scope :: outer →
    Stores s decl shape
      { s with
        builder := s.builder.put index
          { f with
            blocks := { entry with
              instrs := slots ++ .alloca (f.freshName decl.name) shape.storage :: rest } :: later
            nextId := f.nextId + 1 } block
        symbols := { s.symbols with
          locals := { scope with
            symbols := scope.symbols ++ [decl.symbol shape
              (.register .ptr (f.freshName decl.name)) none (some (outer.length + 1))] } ::
                outer } }
  /-- A global variable has data of its name. -/
  | global : decl.isGlobal = true → s.builder.module.hasSymbol decl.name = false →
    Stores s decl shape
      ((s.withGlobal ⟨decl.name, shape.storage, .variable⟩).withGlobalSymbol
        (decl.symbol shape (.address decl.name) none none))
  /-- If the module has the name, the data have a unique one. -/
  | renamed : decl.isGlobal = true → s.builder.module.hasSymbol decl.name = true →
    Stores s decl shape
      (({ s with symbols := s.symbols.tick }.withGlobal
          ⟨s.symbols.uniqueName decl.name, shape.storage, .variable⟩).withGlobalSymbol
        (decl.symbol shape (.address (s.symbols.uniqueName decl.name))
          (some (s.symbols.uniqueName decl.name)) none))

namespace Lower

variable {s s' : Lowering} {decl : VariableDecl} {shape : ParamShape}

theorem declare_run {symbol : Symbol} {isGlobal : Bool}
    (hd : s.symbols.isDeclared symbol.name isGlobal = false) (line : Nat) :
    declare line symbol isGlobal s =
      .ok (some (), { s with symbols := s.symbols.insert symbol isGlobal }) := by
  rw [declare, run_bind run_get, SymbolTable.add_of_not_declared hd]
  rfl

theorem uniqueName_run (s : Lowering) (hint : String) :
    uniqueName hint s = .ok (s.symbols.uniqueName hint, { s with symbols := s.symbols.tick }) := rfl

theorem globalVariable_new {name : String} (h : s.builder.module.hasSymbol name = false)
    (storage : Ir.Ty) :
    build (.globalVariable name storage) s =
      .ok (.ok (.address name), s.withGlobal ⟨name, storage, .variable⟩) :=
  build_run (Build.addGlobal_new h)

theorem globalVariable_taken {name : String} (h : s.builder.module.hasSymbol name = true)
    (storage : Ir.Ty) : build (.globalVariable name storage) s = .ok (.error ⟨name⟩, s) :=
  build_run (Build.addGlobal_taken h)

/-- Global data whose name is taken get a unique one, if that is free. -/
theorem globalStorage_renamed {name : String} (htaken : s.builder.module.hasSymbol name = true)
    (hfree : s.builder.module.hasSymbol (s.symbols.uniqueName name) = false) (line : Nat)
    (storage : Ir.Ty) (ty : Ty) (kind : SymbolKind) :
    globalStorage line name storage ty kind s =
      .ok (some ⟨name, .address (s.symbols.uniqueName name), ty, kind,
          some (s.symbols.uniqueName name), none⟩,
        { s with symbols := s.symbols.tick }.withGlobal
          ⟨s.symbols.uniqueName name, storage, .variable⟩) := by
  rw [globalStorage, run_bind (globalVariable_taken htaken _)]
  dsimp only
  rw [run_bind (uniqueName_run s _),
    run_bind (globalVariable_new (s := { s with symbols := s.symbols.tick }) hfree _)]
  rfl

/-- **A wrong declaration of a variable** is recorded as an error, and nothing changes. -/
theorem declareVariable_wrong (h : decl.Wrong s) :
    ∃ e, declareVariable decl s = .ok (none, s.recorded [e]) := by
  unfold declareVariable
  rw [run_bind (orReport_run s _ _)]
  cases hty : resolveType decl.mark with
  | error cause => exact ⟨_, rfl⟩
  | ok ty =>
    dsimp only [Except.toOption, findings]
    rw [Lowering.recorded_nil, run_bind run_get]
    cases hd : s.symbols.isDeclared decl.name decl.isGlobal with
    | true => exact ⟨_, rfl⟩
    | false =>
      rw [if_neg Bool.false_ne_true, run_bind (orReport_run s _ _)]
      cases hlen : lengthOf decl.name decl.bound with
      | error cause => exact ⟨_, rfl⟩
      | ok len =>
        rcases h with himproper | hdeclared
        · have hres : decl.Resolves ⟨ty, len⟩ := ⟨hty, hlen⟩
          exact absurd (VariableDecl.resolves_iff.mp hres).1 himproper
        · rw [hd] at hdeclared
          cases hdeclared

section Proper

variable (hres : decl.Resolves shape)
  (hd : s.symbols.isDeclared decl.name decl.isGlobal = false)

include hres hd

/-- A declaration of a variable that is not wrong makes room for it and adds its symbol. -/
theorem declareVariable_run {symbol : Symbol}
    (hstorage : storage decl shape.ty shape.len s = .ok (some symbol, s')) :
    declareVariable decl s = declare decl.line symbol decl.isGlobal s' := by
  unfold declareVariable
  rw [run_bind (orReport_run s _ _), hres.1]
  dsimp only [Except.toOption, findings]
  rw [Lowering.recorded_nil, run_bind run_get, if_neg (by rw [hd]; exact Bool.false_ne_true),
    run_bind (orReport_run s _ _), hres.2]
  dsimp only [Except.toOption, findings]
  rw [Lowering.recorded_nil, run_bind hstorage]

theorem declareVariable_slot {index block : Nat} {f : Function} (hat : s.builder.At index f block)
    (hne : s.symbols.locals ≠ []) (hg : decl.isGlobal = false) :
    ∃ s', declareVariable decl s = .ok (some (), s') ∧ s.Stores decl shape s' := by
  obtain ⟨scope, outer, hl⟩ := List.exists_cons_of_ne_nil hne
  obtain ⟨entry, later, hblocks⟩ := List.exists_cons_of_length_pos (Nat.zero_lt_of_lt hat.block)
  have hrest : ∀ i ∈ (entry.instrs.dropWhile Instr.isAlloca).head?, i.isAlloca = false := by
    intro i hi
    have hnot := List.head?_dropWhile_not Instr.isAlloca entry.instrs
    rwa [hi] at hnot
  refine ⟨_, ?_, .slot hg hat hblocks List.takeWhile_append_dropWhile.symm
    (List.all_eq_true.mp List.all_takeWhile) hrest hl⟩
  have hstorage : storage decl shape.ty shape.len s =
      .ok (some (decl.symbol shape (.register .ptr (f.freshName decl.name)) none none),
        { s with builder := s.builder.put index (f.tick.modifyBlock 0
          (·.pushAlloca (.alloca (f.freshName decl.name) shape.storage))) block }) := by
    rw [storage, hg, if_neg Bool.false_ne_true, run_bind (build_run (Build.alloca_run hat _ _)),
      shape.storage_eq]
    rfl
  rw [declareVariable_run hres hd hstorage, declare_run hd, hg]
  have hblocks' : f.tick.blocks = entry :: later := hblocks
  dsimp only
  rw [SymbolTable.insert_local hl, Function.modifyBlock, hblocks']
  rfl

theorem declareVariable_global (hg : decl.isGlobal = true)
    (hnew : s.builder.module.hasSymbol decl.name = false) :
    ∃ s', declareVariable decl s = .ok (some (), s') ∧ s.Stores decl shape s' := by
  refine ⟨_, ?_, .global hg hnew⟩
  have hstorage : storage decl shape.ty shape.len s =
      .ok (some (decl.symbol shape (.address decl.name) none none),
        s.withGlobal ⟨decl.name, shape.storage, .variable⟩) := by
    rw [storage, hg, if_pos rfl, globalStorage, run_bind (globalVariable_new hnew _),
      shape.storage_eq]
    rfl
  rw [declareVariable_run hres hd hstorage, declare_run hd, hg, SymbolTable.insert_global]
  rfl

theorem declareVariable_renamed (hg : decl.isGlobal = true)
    (htaken : s.builder.module.hasSymbol decl.name = true)
    (hfree : s.builder.module.hasSymbol (s.symbols.uniqueName decl.name) = false) :
    ∃ s', declareVariable decl s = .ok (some (), s') ∧ s.Stores decl shape s' := by
  refine ⟨_, ?_, .renamed hg htaken⟩
  have hstorage : storage decl shape.ty shape.len s =
      .ok (some (decl.symbol shape (.address (s.symbols.uniqueName decl.name))
          (some (s.symbols.uniqueName decl.name)) none),
        { s with symbols := s.symbols.tick }.withGlobal
          ⟨s.symbols.uniqueName decl.name, shape.storage, .variable⟩) := by
    rw [storage, hg, if_pos rfl, globalStorage_renamed htaken hfree, shape.storage_eq]
    rfl
  rw [declareVariable_run hres hd hstorage, declare_run hd, hg, SymbolTable.insert_global]
  rfl

/-- **A declaration of a variable that is not wrong** adds its storage and its symbol, given that
its unique name is free. -/
theorem declareVariable_stores {index block : Nat} {f : Function} (hat : s.builder.At index f block)
    (hne : s.symbols.locals ≠ [])
    (hfree : s.builder.module.hasSymbol (s.symbols.uniqueName decl.name) = false) :
    ∃ s', declareVariable decl s = .ok (some (), s') ∧ s.Stores decl shape s' := by
  cases hg : decl.isGlobal with
  | false => exact declareVariable_slot hres hd hat hne hg
  | true =>
    cases hnew : s.builder.module.hasSymbol decl.name with
    | false => exact declareVariable_global hres hd hg hnew
    | true => exact declareVariable_renamed hres hd hg hnew hfree

end Proper

end Lower

/-! ## Procedures -/

/-- What makes the declaration of a procedure wrong: its types and bounds, a name that the scope
has, or one that the module has. -/
def Heading.Wrong (s : Lowering) (heading : Heading) : Prop :=
  ¬ heading.Proper ∨ s.symbols.isDeclared heading.name heading.isGlobal = true ∨
    s.builder.module.hasSymbol (s.symbols.qualifiedName heading.name) = true

namespace Lower

/-- The parameters of the function of a procedure. -/
def irParams (params : List (VariableDecl × ParamShape)) : List Param :=
  params.map fun (decl, shape) => ⟨argName decl.name, shape.passed⟩

/-- The symbol of a procedure that is declared at the state. -/
def procedureSymbol (s : Lowering) (heading : Heading) (ret : Ty)
    (params : List (VariableDecl × ParamShape)) : Symbol :=
  { name := heading.name
    binding := .address (s.symbols.qualifiedName heading.name)
    ty := ret
    kind := .procedure (params.map Prod.snd)
    moduleName := some (s.symbols.qualifiedName heading.name) }

/-- The state when a procedure was declared. Its function is still empty. -/
def declaredProcedure (s : Lowering) (heading : Heading) (ret : Ty)
    (params : List (VariableDecl × ParamShape)) : Lowering :=
  { s with
    builder := { s.builder with module := { s.builder.module with
      functions := s.builder.module.functions ++
        [.new (s.symbols.qualifiedName heading.name) ret.ir (irParams params)] } }
    symbols := s.symbols.insert (procedureSymbol s heading ret params) heading.isGlobal }

variable {s : Lowering}

/-- The parameters are looked through in order, and all that is found wrong is recorded. -/
theorem resolveParams_run : ∀ (decls : List VariableDecl) (s : Lowering),
    ∃ params?, resolveParams decls s =
        .ok (params?, s.recorded (decls.flatMap VariableDecl.findings)) ∧
      ((∃ params, params? = some params ∧ params.map Prod.fst = decls ∧
          ∀ p ∈ params, p.1.Resolves p.2) ∨
        (params? = none ∧ ∃ decl ∈ decls, ¬ decl.Proper))
  | [], s => ⟨some [], by rw [List.flatMap_nil, Lowering.recorded_nil]; rfl,
      Or.inl ⟨[], rfl, rfl, by simp⟩⟩
  | decl :: decls, s => by
    obtain ⟨rest?, hrun, hrest⟩ := resolveParams_run decls (s.recorded decl.findings)
    have hfound : s.recorded ((decl :: decls).flatMap VariableDecl.findings) =
        (s.recorded decl.findings).recorded (decls.flatMap VariableDecl.findings) := by
      rw [List.flatMap_cons, Lowering.recorded_recorded]
    rw [resolveParams, run_bind (orReport_run s _ _), run_bind (orReport_run _ _ _),
      Lowering.recorded_recorded, ← VariableDecl.findings, run_bind hrun, hfound]
    by_cases hproper : decl.Proper
    · obtain ⟨shape, hres⟩ := hproper.resolves
      rw [hres.1, hres.2]
      rcases hrest with ⟨params, rfl, hdecls, hshapes⟩ | ⟨rfl, hwrong⟩
      · refine ⟨_, rfl, Or.inl ⟨_, rfl, by rw [List.map_cons, hdecls], fun p hp => ?_⟩⟩
        rcases List.mem_cons.mp hp with rfl | hp
        · exact hres
        · exact hshapes p hp
      · obtain ⟨decl', hmem, hwrong⟩ := hwrong
        exact ⟨_, rfl, Or.inr ⟨rfl, decl', List.mem_cons_of_mem _ hmem, hwrong⟩⟩
    · refine ⟨none, ?_, Or.inr ⟨rfl, decl, List.mem_cons_self, hproper⟩⟩
      cases hty : resolveType decl.mark with
      | error cause => rfl
      | ok ty =>
        cases hlen : lengthOf decl.name decl.bound with
        | error cause => rfl
        | ok len =>
          have hres : decl.Resolves ⟨ty, len⟩ := ⟨hty, hlen⟩
          exact absurd (VariableDecl.resolves_iff.mp hres).1 hproper

variable {heading : Heading} {ret : Ty} {params : List (VariableDecl × ParamShape)}

/-- All that is found wrong with the types and bounds of a heading is recorded. -/
theorem openProcedure_improper (s : Lowering) (line : Nat) (h : ¬ heading.Proper) :
    openProcedure line heading s = .ok (none, s.recorded (heading.findings line)) := by
  obtain ⟨params?, hrun, hparams⟩ := resolveParams_run heading.params
    (s.recorded (findings line (resolveType heading.result)))
  rw [openProcedure, run_bind (orReport_run s _ _), run_bind hrun, Lowering.recorded_recorded,
    ← Heading.findings]
  cases hret : resolveType heading.result with
  | error cause => rfl
  | ok ret =>
    rcases hparams with ⟨params, rfl, hdecls, hshapes⟩ | ⟨rfl, -⟩
    · refine absurd ⟨⟨ret, resolveType_eq_ok.mp hret⟩, fun decl hmem => ?_⟩ h
      rw [← hdecls] at hmem
      obtain ⟨p, hp, rfl⟩ := List.mem_map.mp hmem
      exact (VariableDecl.resolves_iff.mp (hshapes p hp)).1
    · rfl

/-- If the types and bounds are right, the names decide. -/
theorem openProcedure_proper (s : Lowering) (line : Nat) (h : heading.Proper) :
    ∃ ret params, heading.Resolves ret params ∧
      openProcedure line heading s =
        if s.symbols.isDeclared heading.name heading.isGlobal then
          report line (.symbol (.duplicate heading.name)) s
        else if s.builder.module.hasSymbol (s.symbols.qualifiedName heading.name) then
          report line (.nameTaken ⟨s.symbols.qualifiedName heading.name⟩) s
        else
          .ok (some ⟨⟨s.builder.module.functions.length, 0⟩, ret, params⟩,
            declaredProcedure s heading ret params) := by
  obtain ⟨ret, hret⟩ := h.1
  have hret := resolveType_eq_ok.mpr hret
  obtain ⟨params?, hrun, ⟨params, rfl, hdecls, hshapes⟩ | ⟨-, decl, hmem, hwrong⟩⟩ :=
    resolveParams_run heading.params s
  · refine ⟨ret, params, ⟨hret, hdecls, hshapes⟩, ?_⟩
    have hnone : heading.params.flatMap VariableDecl.findings = [] :=
      List.flatMap_eq_nil_iff.mpr fun decl hmem => VariableDecl.findings_eq_nil.mpr (h.2 decl hmem)
    rw [hnone, Lowering.recorded_nil] at hrun
    rw [openProcedure, run_bind (orReport_run s _ _), hret]
    dsimp only [Except.toOption, findings]
    rw [Lowering.recorded_nil, run_bind hrun]
    dsimp only
    rw [run_bind run_get]
    cases hd : s.symbols.isDeclared heading.name heading.isGlobal with
    | true => rfl
    | false =>
      rw [if_neg Bool.false_ne_true, if_neg Bool.false_ne_true, run_bind run_get]
      cases htaken : s.builder.module.hasSymbol (s.symbols.qualifiedName heading.name) with
      | true => rw [run_bind (build_run (Build.defineFunction_taken htaken _ _)), if_pos rfl]
      | false =>
        rw [run_bind (build_run (Build.defineFunction_new htaken _ _)), if_neg Bool.false_ne_true]
        dsimp only
        rw [run_bind (declare_run hd line)]
        rfl
  · exact absurd (h.2 decl hmem) hwrong

/-- **A wrong declaration of a procedure** adds to the errors, and nothing else changes. -/
theorem openProcedure_wrong {s : Lowering} (line : Nat) (h : heading.Wrong s) :
    ∃ errors, errors ≠ [] ∧ openProcedure line heading s = .ok (none, s.recorded errors) := by
  by_cases hproper : heading.Proper
  · obtain ⟨ret, params, -, hrun⟩ := openProcedure_proper s line hproper
    rcases h with himproper | hnames
    · exact absurd hproper himproper
    · rw [hrun]
      split
      · exact ⟨_, List.cons_ne_nil _ _, report_run s _ _⟩
      · rename_i hd
        rw [if_pos (hnames.resolve_left hd)]
        exact ⟨_, List.cons_ne_nil _ _, report_run s _ _⟩
  · refine ⟨_, fun hnone => ?_, openProcedure_improper s line hproper⟩
    exact hproper (Heading.findings_eq_nil.mp hnone)

/-- **A declaration of a procedure that is not wrong** adds its function and its symbol. -/
theorem openProcedure_opened {s : Lowering} (line : Nat) (h : ¬ heading.Wrong s) :
    ∃ ret params, heading.Resolves ret params ∧
      s.symbols.isDeclared heading.name heading.isGlobal = false ∧
      openProcedure line heading s =
        .ok (some ⟨⟨s.builder.module.functions.length, 0⟩, ret, params⟩,
          declaredProcedure s heading ret params) := by
  simp only [Heading.Wrong, not_or, not_not, Bool.not_eq_true] at h
  obtain ⟨hproper, hd, hfree⟩ := h
  obtain ⟨ret, params, hres, hrun⟩ := openProcedure_proper s line hproper
  rw [hd, hfree] at hrun
  exact ⟨ret, params, hres, hd, hrun⟩

end Lower

end ProcLang
