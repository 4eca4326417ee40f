import ProcLang.Proofs.Stage.Stmt

/-!
# Procedures at a stage

The function of a procedure is built while the function around it waits. `Stage.enter` is the stage
inside, when the procedure was declared and its scope opened, and `Stage.leave` the stage when it is
finished and the cursor is back.

* `Stmt.procedures`: the procedures that a statement declares, with their names in the module;
* `Stage.bindParams_takes`: if no error is found, no parameter has the name of another;
* `Stage.procedure_takes`: a procedure keeps the invariant, given that its body does.
-/

namespace ProcLang

open Ir Naming

/-! ## Headings -/

variable {p : VariableDecl × ParamShape}

namespace Lower

/-- The arrays among the parameters, with the types of their storage. -/
def arrayParams (params : List (VariableDecl × ParamShape)) : List Param :=
  params.filterMap fun (decl, shape) =>
    shape.len.map fun len => ⟨argName decl.name, shape.ty.irArray len⟩

variable {params : List (VariableDecl × ParamShape)}

theorem mem_arrayParams {a : Param} :
    a ∈ arrayParams params ↔ ∃ p ∈ params, ∃ len, p.2.len = some len ∧
      a = ⟨argName p.1.name, p.2.ty.irArray len⟩ := by
  unfold arrayParams
  rw [List.mem_filterMap]
  constructor
  · rintro ⟨p, hp, ha⟩
    obtain ⟨len, hlen, rfl⟩ := Option.map_eq_some_iff.mp ha
    exact ⟨p, hp, len, hlen, rfl⟩
  · rintro ⟨p, hp, len, hlen, rfl⟩
    exact ⟨p, hp, Option.map_eq_some_iff.mpr ⟨len, hlen, rfl⟩⟩

theorem mem_irParams (hp : p ∈ params) : ⟨argName p.1.name, p.2.passed⟩ ∈ irParams params :=
  List.mem_map.mpr ⟨p, hp, rfl⟩

/-- Arrays are passed by their address. -/
theorem arrayParams_passed {a : Param} (ha : a ∈ arrayParams params) :
    ⟨a.name, .ptr⟩ ∈ irParams params := by
  obtain ⟨p, hp, len, hlen, rfl⟩ := mem_arrayParams.mp ha
  have := mem_irParams hp
  rw [ParamShape.passed, hlen] at this
  exact this

end Lower

mutual

/-- The procedures that a statement declares, with their names in the module, given the path of the
scopes around it. -/
def Stmt.procedures (path : String) : Stmt → List (String × Heading)
  | .procedure heading body _ =>
    (path ++ heading.name, heading) :: blockProcedures (path ++ heading.name ++ ".") body
  | .branch _ yes none _ => blockProcedures path yes
  | .branch _ yes (some no) _ => blockProcedures path yes ++ blockProcedures path no
  | .loop _ _ _ body _ => blockProcedures path body
  | .assign _ _ _ | .declare _ _ | .declareType _ _ _ _ | .result _ _ | .call _ _ => []

/-- The procedures that the statements of a block declare. -/
def blockProcedures (path : String) : List Stmt → List (String × Heading)
  | [] => []
  | stmt :: stmts => stmt.procedures path ++ blockProcedures path stmts

end

/-- When the items are lowered from the state on, the procedure is declared under the name: its
declaration is not wrong where it stands. -/
def Lowering.Opens (begun : Lowering) (items : List Stmt) (p : String × Heading) : Prop :=
  ∃ body line rest s, begun.Visits items (.procedure p.2 body line :: rest) s ∧ ¬ p.2.Wrong s ∧
    s.symbols.qualifiedName p.2.name = p.1

/-- The headings that are known include that of a procedure, if it is declared. -/
def Headings.Has (D : Headings) (begun : Lowering) (items : List Stmt) (p : String × Heading) :
    Prop :=
  begun.Opens items p → ∀ ret params, p.2.Resolves ret params →
    D p.1 ret.ir (Lower.irParams params) (Lower.arrayParams params)

/-- All headings are known. -/
def anyHeadings : Headings := fun _ _ _ _ => True

theorem anyHeadings_has {begun : Lowering} {items : List Stmt} (p : String × Heading) :
    anyHeadings.Has begun items p := fun _ _ _ _ => trivial

namespace Stage

variable {D : Headings} {st st' : Stage} {begun : Lowering} {items : List Stmt}

/-- What the names of procedures that are declared here start with. -/
def path (st : Stage) : String :=
  SymbolTable.path st.state.symbols.locals.dropLast

theorem path_congr : ∀ {a b : List Scope}, ScopesGrow a b →
    SymbolTable.path b.dropLast = SymbolTable.path a.dropLast
  | [], [], _ => rfl
  | [_], _ :: _, ⟨_, _, rfl⟩ => rfl
  | s :: t :: outer, s' :: _, ⟨hl, _, rfl⟩ => by
    simp only [SymbolTable.path, List.dropLast_cons_cons, List.reverse_cons, List.map_append,
      List.map_cons, List.map_nil, hl]

theorem Grows.path (h : st.Grows D st') : st'.path = st.path :=
  path_congr h.scopes

/-! ## Parameters -/

/-- The function at the cursor was passed the parameter. -/
structure Receives (st : Stage) (p : VariableDecl × ParamShape) : Prop where
  param : ⟨Lower.argName p.1.name, p.2.passed⟩ ∈ st.fn.params
  array : ∀ len, p.2.len = some len → ⟨Lower.argName p.1.name, p.2.ty.irArray len⟩ ∈ st.arrays

theorem Grows.receives (h : st.Grows D st') (hp : st.Receives p) : st'.Receives p :=
  ⟨h.fn.params ▸ hp.param, fun len hlen => h.arrays ▸ hp.array len hlen⟩

/-- The names of the innermost scope. -/
def scopeNames (st : Stage) : List String :=
  match st.state.symbols.locals with
  | [] => []
  | scope :: _ => scope.symbols.map Symbol.name

theorem Calm.scopeNames (h : st.Calm D st') : st'.scopeNames = st.scopeNames := by
  unfold Stage.scopeNames
  rw [h.locals]

theorem scopeNames_insert (h : st.Sound D) {symbol : Symbol}
    (hi : st'.state.symbols = st.state.symbols.insert symbol false) :
    st'.scopeNames = st.scopeNames ++ [symbol.name] := by
  obtain ⟨scope, outer, hl⟩ := List.exists_cons_of_ne_nil h.symbols.nonempty
  unfold Stage.scopeNames
  rw [hi, SymbolTable.insert_local hl, hl]
  simp

/-- Declares a parameter. Unless there is an error, its name is new. -/
theorem declareParam_takes (h : st.Sound D) (decl : VariableDecl) (shape : ParamShape)
    {binding : Value}
    (hs : Stored st.env st.fn st.arrays binding (Lower.storageType shape.ty shape.len)) :
    Takes (flow D) st (Lower.declare decl.line ⟨decl.name, binding, shape.ty,
      Lower.variableKind shape.len, none, none⟩ false >>= fun _ => pure ()) fun _ st' =>
      st'.state.errors = st.state.errors → st'.scopeNames = st.scopeNames ++ [decl.name] := by
  refine (declare_takes h decl.line (located_variable rfl hs) (fun hfalse => by cases hfalse)
    (callable_variable shape.len rfl)).bind ?_
  rintro r st' hs' - (⟨-, herrors⟩ | ⟨-, hinsert⟩)
  · exact takes_pure hs' fun hnone => absurd hnone herrors
  · exact takes_pure hs' fun _ => scopeNames_insert h hinsert

theorem bindParam_takes (h : st.Sound D) {decl : VariableDecl} {shape : ParamShape}
    (hp : st.Receives (decl, shape)) :
    Takes (flow D) st (Lower.bindParam decl shape) fun _ st' =>
      st'.state.errors = st.state.errors → st'.scopeNames = st.scopeNames ++ [decl.name] := by
  unfold Lower.bindParam
  split
  · rename_i len hlen
    refine declareParam_takes h decl shape ?_
    rw [hlen]
    exact ⟨rfl, Or.inr (hp.array len hlen)⟩
  · rename_i hlen
    have hparam : ⟨Lower.argName decl.name, shape.ty.ir⟩ ∈ st.fn.params := by
      have := hp.param
      rw [ParamShape.passed, hlen] at this
      exact this
    refine (alloca_takes h decl.name _).calmly.bind ?_
    rintro slot st1 hs1 hf1 ⟨hc1, hslot⟩
    have hparam1 := hf1.fn.params ▸ hparam
    have hvalue : st1.Offers (.register shape.ty.ir (Lower.argName decl.name)) := by
      refine ⟨Or.inl hparam1, ?_⟩
      rintro _ ⟨⟩
      exact Or.inl (Or.inl ⟨_, hparam1, rfl⟩)
    have hi : st1.Fits (.store (.register shape.ty.ir (Lower.argName decl.name)) slot) :=
      ⟨rfl, Or.inl hslot, by simp [Instr.operands, hvalue, hs1.offers_stored hslot],
        by simp [Instr.targets]⟩
    refine (emit_takes hs1 hi rfl).calmly.bind ?_
    rintro _ st2 hs2 hf2 ⟨hc2, -⟩
    have hslot2 : Stored st2.env st2.fn st2.arrays slot
        (Lower.storageType shape.ty shape.len) := by
      rw [hlen, hf2.arrays]
      exact hslot.mono hf2.env hf2.fn
    refine (declareParam_takes hs2 decl shape hslot2).mono fun _ st' _ hf' hnames hnone => ?_
    have := (errors_between (hf1.trans hf2).errors hf'.errors hnone).2
    rw [hnames this, (hc1.trans hc2).scopeNames]

theorem bindParams_takes : ∀ (params : List (VariableDecl × ParamShape)) {st : Stage},
    st.Sound D → (∀ p ∈ params, st.Receives p) →
    Takes (flow D) st (Lower.bindParams params) fun _ st' =>
      st'.state.errors = st.state.errors →
        st'.scopeNames = st.scopeNames ++ params.map fun p => p.1.name
  | [], st, h, _ => takes_pure h fun _ => by simp
  | (decl, shape) :: rest, st, h, hp => by
    rw [Lower.bindParams]
    refine (bindParam_takes h (hp _ List.mem_cons_self)).bind fun _ st1 hs1 hf1 hname => ?_
    refine (bindParams_takes rest hs1 fun p hmem =>
      hf1.receives (hp p (List.mem_cons_of_mem _ hmem))).mono fun _ st2 _ hf2 hnames hnone => ?_
    obtain ⟨hnone1, hnone2⟩ := errors_between hf1.errors hf2.errors hnone
    rw [hnames hnone2, hname hnone1, List.append_assoc]
    rfl

/-- If the scope holds the names of the parameters and nothing else, no parameter has the name of
another. -/
theorem params_nodup (h : st.Sound D) {params : List (VariableDecl × ParamShape)}
    (hn : st.scopeNames = params.map fun p => p.1.name) :
    ((Lower.irParams params).map Param.name).Nodup := by
  have hnames : (params.map fun p => p.1.name).Nodup := by
    rw [← hn]
    obtain ⟨scope, outer, hl⟩ := List.exists_cons_of_ne_nil h.symbols.nonempty
    unfold Stage.scopeNames
    rw [hl]
    exact h.symbols.regular.distinct scope (by rw [hl]; exact List.mem_cons_self)
  have hmap : (Lower.irParams params).map Param.name =
      (params.map fun p => p.1.name).map Lower.argName := by
    unfold Lower.irParams
    rw [List.map_map, List.map_map]
    rfl
  rw [hmap]
  exact hnames.map fun _ _ => argName_inj

/-! ## Declaring a procedure -/

theorem path_cons (scope : Scope) (outer : List Scope) :
    SymbolTable.path (scope :: outer) = SymbolTable.path outer ++ scope.label ++ "." := by
  refine String.toList_inj.mp ?_
  simp [SymbolTable.path]

/-- The module with a function for the procedure, which is still empty. -/
def defined (st : Stage) (heading : Heading) (ret : Ty)
    (params : List (VariableDecl × ParamShape)) : Module :=
  { st.module with
    functions := st.module.functions ++
      [.new (st.path ++ heading.name) ret.ir (Lower.irParams params)] }

/-- The state when the procedure was declared. -/
def declared (st : Stage) (heading : Heading) (ret : Ty)
    (params : List (VariableDecl × ParamShape)) : Lowering :=
  Lower.declaredProcedure st.state heading ret params

/-- A procedure is declared, unless its heading is wrong. Then nothing but the errors changes. -/
theorem openProcedure_runs (h : st.Sound D) (line : Nat) (heading : Heading) :
    Takes (calm D) st (Lower.openProcedure line heading)
        (fun r st' => r = none ∧ st'.state.builder = st.state.builder) ∨
      ¬ heading.Wrong st.state ∧ ∃ ret params, heading.Resolves ret params ∧
        st.state.symbols.isDeclared heading.name heading.isGlobal = false ∧
        Lower.openProcedure line heading st.state =
          .ok (some ⟨⟨st.module.functions.length, 0⟩, ret, params⟩,
            st.declared heading ret params) := by
  by_cases hwrong : heading.Wrong st.state
  · obtain ⟨errors, -, run⟩ := Lower.openProcedure_wrong line hwrong
    exact Or.inl ((h.outside_findings st.state.warnings (List.prefix_append _ errors)).calm
      h rfl rfl run ⟨rfl, rfl⟩)
  · exact Or.inr ⟨hwrong, Lower.openProcedure_opened line hwrong⟩

/-! ## Inside a procedure -/

theorem point_mem_path {scopes : List Scope} (h : scopes ≠ []) :
    '.' ∈ (SymbolTable.path scopes).toList := by
  obtain ⟨scope, outer, rfl⟩ := List.exists_cons_of_ne_nil h
  rw [path_cons, String.toList_append]
  exact List.mem_append_right _ (by decide)

theorem point_not_mem_routine : ∀ r ∈ Routine.callable, '.' ∉ r.name.toList := by decide

/-- A procedure whose function has the name of a routine is declared in the only scope that is open,
and hides the routine. -/
theorem Sound.hides (h : st.Sound D) {name : String} {isGlobal : Bool}
    (hd : st.state.symbols.isDeclared name isGlobal = false) {r : Routine}
    (hr : r ∈ Routine.callable) (hname : st.path ++ name = r.name) :
    isGlobal = false ∧ st.state.symbols.locals.length = 1 ∧ name = r.name := by
  have hdrop : st.state.symbols.locals.dropLast = [] := by
    by_contra hne
    refine point_not_mem_routine r hr ?_
    rw [← hname, String.toList_append]
    exact List.mem_append_left _ (point_mem_path hne)
  have hname : name = r.name := by
    rw [path, hdrop] at hname
    simpa [SymbolTable.path, String.join] using hname
  refine ⟨?_, ?_, hname⟩
  · cases isGlobal with
    | false => rfl
    | true =>
      rw [hname] at hd
      exact absurd ((h.symbols.routines r hr).symm.trans hd) (by decide)
  · have hlen := congrArg List.length hdrop
    have := List.length_pos_of_ne_nil h.symbols.nonempty
    rw [List.length_dropLast, List.length_nil] at hlen
    omega

theorem env_defined (st : Stage) (heading : Heading) (ret : Ty)
    (params : List (VariableDecl × ParamShape)) :
    st.env.Extends (st.defined heading ret params).interface := by
  refine ⟨List.Subset.refl _, fun d hd => ?_⟩
  simp only [env, Module.interface, defined, List.map_append, List.mem_append] at hd ⊢
  tauto

theorem Sound.symbols_declared (h : st.Sound D) {heading : Heading} (ret : Ty)
    (params : List (VariableDecl × ParamShape))
    (hd : st.state.symbols.isDeclared heading.name heading.isGlobal = false) :
    (st.declared heading ret params).symbols.Sound (st.defined heading ret params) st.fn
      st.arrays := by
  refine h.symbols.insert (env_defined st heading ret params) hd trivial (fun _ _ _ => trivial) ?_
    fun r hr hmem => ?_
  · rintro _ ⟨⟩
    refine List.mem_append_left _ (List.mem_map.mpr
      ⟨_, List.mem_append_right _ (List.mem_singleton.mpr rfl), ?_⟩)
    simp only [Function.signature, Function.new, Lower.irParams, List.map_map,
      Lower.procedureSymbol, Symbol.irName, Option.getD_some]
    rfl
  · simp only [defined, List.map_append, List.mem_append, List.map_cons, List.map_nil,
      List.mem_singleton] at hmem
    refine hmem.imp id fun hname => ?_
    exact h.hides hd hr hname.symm

end Stage

theorem SymbolTable.Sound.push {m : Module} {f : Function} {arrays : List Param} {t : SymbolTable}
    (h : t.Sound m f arrays) (label : String) (g : Function) (arrays' : List Param) :
    (t.push label).Sound m g arrays' where
  regular := h.regular.push label
  nonempty := List.cons_ne_nil _ _
  locals scope hs s hs' := by
    cases hs
    cases hs'
  procedures scope hs s hs' := by
    rcases List.mem_cons.mp hs with rfl | hs
    · cases hs'
    · exact h.procedures scope hs s hs'
  globals := h.globals
  routines := h.routines
  hidden r hr hmem := by
    obtain ⟨scope, hs, hc⟩ := h.hidden r hr hmem
    obtain ⟨s, outer, hl⟩ := List.exists_cons_of_ne_nil h.nonempty
    refine ⟨scope, ?_, hc⟩
    rw [hl] at hs
    simp only [SymbolTable.push, hl, List.getLast?_cons_cons]
    exact hs

/-- Closing the innermost scope. The symbols of the scope around it belong to another function. -/
theorem SymbolTable.Sound.pop {m : Module} {f g : Function} {arrays arrays' : List Param}
    {t : SymbolTable} (h : t.Sound m f arrays) {scope : Scope} {outer : List Scope}
    (hl : t.locals = scope :: outer) (hne : outer ≠ [])
    (hloc : ∀ scope ∈ outer.head?, ∀ s ∈ scope.symbols, s.Located m.interface g arrays') :
    { t with locals := outer }.Sound m g arrays' where
  regular := by
    have hframed := h.regular.framed
    rw [hl] at hframed
    refine ⟨hframed.2, fun s hs => ?_, h.regular.global_frame, h.regular.global_distinct⟩
    exact h.regular.distinct s (by rw [hl]; exact List.mem_cons_of_mem _ hs)
  nonempty := hne
  locals := hloc
  procedures s hs := h.procedures s (by rw [hl]; exact List.mem_cons_of_mem _ hs)
  globals := h.globals
  routines := h.routines
  hidden r hr hmem := by
    obtain ⟨s, hs, hc⟩ := h.hidden r hr hmem
    obtain ⟨s', outer', rfl⟩ := List.exists_cons_of_ne_nil hne
    refine ⟨s, ?_, hc⟩
    rw [hl, List.getLast?_cons_cons] at hs
    exact hs

namespace Stage

variable {D : Headings} {st inner : Stage}

/-- The stage inside a procedure that was declared, with its scope open and nothing lowered. -/
def enter (st : Stage) (heading : Heading) (ret : Ty)
    (params : List (VariableDecl × ParamShape)) : Stage where
  state :=
    { st.declared heading ret params with
      builder :=
        { module := st.defined heading ret params
          cursor := some ⟨st.module.functions.length, 0⟩ }
      symbols := (st.declared heading ret params).symbols.push heading.name
      frames := .procedure ret :: st.state.frames }
  index := st.module.functions.length
  fn := .new (st.path ++ heading.name) ret.ir (Lower.irParams params)
  block := 0
  avail _ _ := False
  pending := []
  arrays := Lower.arrayParams params

variable {heading : Heading} {ret : Ty} {params : List (VariableDecl × ParamShape)}

theorem Sound.enter (h : st.Sound D)
    (hd : st.state.symbols.isDeclared heading.name heading.isGlobal = false)
    (hD : D (st.path ++ heading.name) ret.ir (Lower.irParams params)
      (Lower.arrayParams params)) : (st.enter heading ret params).Sound D where
  placed := by
    refine ⟨rfl, ?_, Nat.zero_lt_one⟩
    simp only [Stage.enter, defined]
    exact List.getElem?_concat_length
  code := by
    refine Function.Sound.new _ _ _ _ fun p hp => ?_
    obtain ⟨q, -, rfl⟩ := List.mem_map.mp hp
    exact ⟨_, rfl⟩
  heading := hD
  passed _ ha := Lower.arrayParams_passed ha
  frame := ⟨_, _, rfl, rfl⟩
  ended n b hb _ := by
    have := (List.getElem?_eq_some_iff.mp hb).1
    exact Or.inl (Nat.lt_one_iff.mp this)
  declarations := h.declarations
  symbols := (h.symbols_declared ret params hd).push _ _ _

theorem enter_receives (hp : p ∈ params) : (st.enter heading ret params).Receives p :=
  ⟨Lower.mem_irParams hp, fun len hlen => Lower.mem_arrayParams.mpr ⟨p, hp, len, hlen, rfl⟩⟩

theorem enter_path (h : st.Sound D) :
    (st.enter heading ret params).path = st.path ++ heading.name ++ "." := by
  have hne := h.symbols.nonempty
  have hgrow := (SymbolTable.scopesGrow_insert hne
      (Lower.procedureSymbol st.state heading ret params)
    heading.isGlobal).1
  have hne' : (st.declared heading ret params).symbols.locals ≠ [] := by
    intro hnil
    obtain ⟨scope, outer, hl⟩ := List.exists_cons_of_ne_nil hne
    simp only [declared, Lower.declaredProcedure] at hnil
    rw [hl, hnil] at hgrow
    exact hgrow
  rw [path, path, ← path_congr hgrow]
  change SymbolTable.path ((_ :: (st.declared heading ret params).symbols.locals).dropLast) = _
  rw [List.dropLast_cons_of_ne_nil hne', path_cons]
  rfl

/-- Where the body of a procedure starts: its scope is open and its parameters are declared. -/
theorem enterProcedure_runs (h : st.Sound D)
    (hd : st.state.symbols.isDeclared heading.name heading.isGlobal = false)
    (hD : D (st.path ++ heading.name) ret.ir (Lower.irParams params) (Lower.arrayParams params)) :
    ∃ inner : Stage, Lower.enterProcedure heading.name
        ⟨⟨st.module.functions.length, 0⟩, ret, params⟩ (st.declared heading ret params) =
          .ok ((), inner.state) ∧
      inner.Sound D ∧ (st.enter heading ret params).Flows D inner ∧
      (inner.state.errors = st.state.errors →
        inner.scopeNames = params.map fun p => p.1.name) := by
  obtain ⟨_, inner, run, hs, hf, hnames⟩ := bindParams_takes params (h.enter hd hD) fun p hp =>
    enter_receives hp
  exact ⟨inner, run, hs, hf, hnames⟩

/-! ## Behind a procedure -/

/-- The stage behind a procedure: the scope is closed and the cursor is where it was before. -/
def leave (st inner : Stage) : Stage :=
  { st with
    state :=
      { inner.state with
        builder := { inner.state.builder with cursor := st.state.builder.cursor }
        symbols := { inner.state.symbols with locals := inner.state.symbols.locals.tail }
        frames := inner.state.frames.tail } }

theorem Sound.finished (h : inner.Sound D) (hended : ¬ inner.Open) (hp : inner.pending = []) :
    Finished D inner.env inner.fn := by
  refine ⟨inner.arrays, inner.avail, h.code, fun b hb => ?_, h.heading⟩
  obtain ⟨n, hn⟩ := List.getElem?_of_mem hb
  cases hterm : b.isTerminated with
  | true => rfl
  | false =>
    rcases h.ended n b hn hterm with rfl | hmem
    · exact absurd ⟨b, hn, hterm⟩ hended
    · rw [hp] at hmem
      cases hmem

section Leave

variable (hg : (st.enter heading ret params).Grows D inner)

include hg

/-- The functions around a procedure are not touched while it is lowered. -/
theorem enter_others {i : Nat} {f : Function} (hf : st.module.functions[i]? = some f) :
    inner.module.functions[i]? = some f := by
  have hi := (List.getElem?_eq_some_iff.mp hf).1
  refine hg.others i f (Nat.ne_of_lt hi) ?_
  exact (List.getElem?_append_left hi).trans hf

/-- The scopes around a procedure gain its symbol and nothing else. -/
theorem enter_locals : ∃ scope, inner.state.symbols.locals =
      scope :: (st.declared heading ret params).symbols.locals := by
  have hscopes := hg.scopes
  cases hl : inner.state.symbols.locals with
  | nil =>
    rw [hl] at hscopes
    exact hscopes.elim
  | cons scope outer =>
    rw [hl] at hscopes
    exact ⟨scope, by rw [hscopes.2.2]⟩

theorem Sound.leave (h : st.Sound D)
    (hd : st.state.symbols.isDeclared heading.name heading.isGlobal = false) (hs : inner.Sound D) :
    (st.leave inner).Sound D where
  placed := by
    have hfun : inner.module.functions[st.index]? = some st.fn := enter_others hg h.function
    exact ⟨h.placed.cursor, hfun, h.placed.block⟩
  code := h.code.mono ((env_defined st heading ret params).trans hg.env)
  heading := h.heading
  passed := h.passed
  frame := by
    obtain ⟨frame, outer, hf, hret⟩ := h.frame
    refine ⟨frame, outer, ?_, hret⟩
    simp only [Stage.leave, hg.frames, Stage.enter, List.tail_cons]
    exact hf
  ended := h.ended
  declarations := hs.declarations
  symbols := by
    have hdeclared := h.symbols_declared ret params hd
    obtain ⟨scope, hl⟩ := enter_locals hg
    simp only [Stage.leave, hl, List.tail_cons]
    exact hs.symbols.pop hl hdeclared.nonempty fun s hs' symbol hsymbol =>
      (hdeclared.locals s hs' symbol hsymbol).mono hg.env (.refl _)

theorem Sound.leave_flows (h : st.Sound D) (hs : inner.Sound D) (hended : ¬ inner.Open)
    (hp : inner.pending = []) (hnodup : inner.state.errors = st.state.errors →
      ((Lower.irParams params).map Param.name).Nodup) : st.Flows D (st.leave inner) where
  placed := h.placed.index_lt
  index := rfl
  arrays := rfl
  fn := .refl _
  blocks _ b hb := ⟨b, hb, rfl, List.prefix_rfl⟩
  avail _ _ := rfl
  env := (env_defined st heading ret params).trans hg.env
  functions := by
    refine Nat.le_trans ?_ hg.functions
    simp [module, Stage.enter, defined]
  others i f _ hf := by
    have hkept : inner.module.functions[i]? = some f := enter_others hg hf
    exact hkept
  added i f hi hf := by
    by_cases hlast : i = st.module.functions.length
    · -- the function of the procedure itself
      have hfn : inner.module.functions[i]? = some inner.fn := by
        rw [hlast, ← show inner.index = st.module.functions.length from hg.index]
        exact hs.function
      have : f = inner.fn := Option.some.inj (hf.symm.trans hfn)
      subst this
      refine ⟨hs.finished hended hp, fun hnone => ?_⟩
      rw [hg.fn.params]
      exact hnodup hnone
    · refine hg.added i f ?_ hf
      simp only [module, Stage.enter, defined, List.length_append, List.length_singleton]
      simp only [module] at hi hlast
      omega
  scopes := by
    obtain ⟨scope, hl⟩ := enter_locals hg
    simp only [Stage.leave, hl, List.tail_cons]
    exact (SymbolTable.scopesGrow_insert h.symbols.nonempty _ _).1
  globals := (SymbolTable.scopesGrow_insert h.symbols.nonempty _ _).2.trans hg.globals
  frames := by
    simp only [Stage.leave, hg.frames, Stage.enter, List.tail_cons]
  errors := hg.errors
  pending := rfl
  written _ := id
  block := Or.inl rfl
  kept n b b' _ hb hb' := by
    rw [show b' = b from Option.some.inj (hb'.symm.trans hb)]

/-- The cursor is where it was, and the functions that there were are as before. -/
structure Aside (st st' : Stage) : Prop where
  cursor : st'.state.builder.cursor = st.state.builder.cursor
  functions : st.module.functions <+: st'.module.functions

/-- Lowering a procedure leaves the functions around it alone. -/
theorem leave_aside : st.Aside (st.leave inner) := by
  have hkept : st.module.functions <+: inner.module.functions :=
    List.prefix_iff_getElem?.mpr fun _ hi => enter_others hg (List.getElem?_eq_getElem hi)
  exact ⟨rfl, hkept⟩

end Leave

/-- **A procedure** keeps the invariant, given that its body does, and goes back to where it was
declared. -/
theorem procedure_takes (h : st.Sound D) {heading : Heading} {body : List Stmt} {line : Nat}
    {rest : List Stmt} (hvisit : begun.Visits items (.procedure heading body line :: rest) st.state)
    (hD : D.Has begun items (st.path ++ heading.name, heading))
    (hbody : ∀ {inner : Stage}, inner.Sound D → begun.Visits items body inner.state →
      inner.path = st.path ++ heading.name ++ "." →
      Takes (flow D) inner (lowerBlock none body) fun r st' => st'.Gives r.1) :
    Takes (flow D) st (Stmt.lower (.procedure heading body line)) fun r st' =>
      st'.Gives r.1 ∧ st.Aside st' := by
  rw [Stmt.lower]
  rcases openProcedure_runs h line heading with hnone | ⟨hright, ret, params, hres, hd, run⟩
  · refine hnone.toFlow.bind ?_
    rintro r st1 hs1 - ⟨rfl, hbuilder⟩
    have hkept : st1.module = st.module := congrArg Builder.module hbuilder
    exact takes_pure hs1 ⟨gives_none st1, congrArg Builder.cursor hbuilder, hkept ▸ List.prefix_rfl⟩
  · obtain ⟨st2, run2, hs2, hf2, hnames⟩ := enterProcedure_runs h hd
      (hD ⟨body, line, rest, st.state, hvisit, hright, rfl⟩ ret params hres)
    obtain ⟨⟨last, lowered⟩, st3, run3, hs3, hf3, hlast⟩ :=
      hbody hs2 (hvisit.procedure run run2) (hf2.path.trans (enter_path h))
    have hf23 := hf2.trans hf3
    obtain ⟨_, st4, run4, hs4, hc4, hended⟩ := unlessEnded_takes hs3
      (fun _ => implicitReturn_takes hs3 line heading.name hf23.fn.ret hlast) fun hended => hended
    have hf := hf23.trans hc4.toFlows
    have hproc : Lower.procedure line heading.name ⟨⟨st.module.functions.length, 0⟩, ret, params⟩
        (lowerBlock none body) (st.declared heading ret params) =
        .ok (lowered, (st.leave st4).state) := by
      rw [Lower.procedure_eq, run_bind run_get, run_bind run2, run_bind run3]
      dsimp only
      rw [run_bind run4, Lower.leaveProcedure, bind_assoc, run_bind (closeScope_run hs4)]
      rfl
    have hnodup : st4.state.errors = st.state.errors →
        ((Lower.irParams params).map Param.name).Nodup := by
      intro hnone
      refine params_nodup hs2 ?_
      exact hnames (errors_between hf2.errors (hf3.trans hc4.toFlows).errors hnone).1
    refine ⟨(none, .procedure heading lowered line), st.leave st4, ?_, h.leave hf.toGrows hd hs4,
      h.leave_flows hf.toGrows hs4 hended hf.pending hnodup, gives_none _, leave_aside hf.toGrows⟩
    rw [run_bind run]
    dsimp only
    rw [run_bind hproc]
    rfl

/-! ## Statements -/

theorem result_takes (h : st.Sound D) (value : Expr) (line : Nat) :
    Takes (flow D) st (Stmt.lower (.result value line)) fun r st' => st'.Gives r.1 := by
  rw [Stmt.lower]
  refine takes_get ?_
  obtain ⟨frame, outer, hframes, hret⟩ := h.frame
  cases frame with
  | program =>
    have hnone : st.state.returnType? = none := by rw [Lowering.returnType?, hframes]
    rw [hnone]
    refine (report_takes h line _).toFlow.bind fun r st1 hs1 _ hr => takes_pure hs1 ?_
    rw [hr.1]
    exact gives_none st1
  | procedure ret =>
    have hsome : st.state.returnType? = some ret := by rw [Lowering.returnType?, hframes]
    rw [hsome]
    refine takes_isTerminated h (fun _ => ?_) fun _ => ?_
    · refine (expr_takes value h).toFlow.bind ?_
      rintro ⟨result, lowered⟩ st1 hs1 hf1 hr
      refine (returnFrom_takes hs1 line (hf1.fn.ret.trans hret) hr).toFlow.bind ?_
      exact fun _ st2 hs2 _ _ => takes_pure hs2 (gives_none st2)
    · refine (report_takes h line _).toFlow.bind fun r st1 hs1 _ hr => takes_pure hs1 ?_
      rw [hr.1]
      exact gives_none st1

mutual

/-- **Lowering a statement** keeps the invariant, if the headings of its procedures are known. -/
theorem stmt_takes : ∀ (stmt : Stmt) {rest : List Stmt} {st : Stage}, st.Sound D →
    begun.Visits items (stmt :: rest) st.state →
    (∀ p ∈ stmt.procedures st.path, D.Has begun items p) →
    Takes (flow D) st stmt.lower fun r st' => st'.Gives r.1
  | .assign dest value line, rest, st, h, _, _ => by
    rw [Stmt.lower]
    refine (assign_takes h line dest value).toFlow.bind ?_
    rintro ⟨result, dest', value'⟩ st1 hs1 - hr
    exact takes_pure hs1 hr
  | .call call line, rest, st, h, _, _ => by
    rw [Stmt.lower]
    refine (expr_takes call h).toFlow.bind ?_
    rintro ⟨result, call'⟩ st1 hs1 - hr
    exact takes_pure hs1 hr
  | .declare decl line, rest, st, h, _, _ => by
    rw [Stmt.lower]
    exact (declareVariable_takes h decl).bind fun _ st1 hs1 _ _ => takes_pure hs1 (gives_none st1)
  | .declareType name mark isGlobal line, rest, st, h, _, _ => by
    rw [Stmt.lower]
    exact (warn_takes h line _).toFlow.bind fun _ st1 hs1 _ _ => takes_pure hs1 (gives_none st1)
  | .branch cond yes none line, rest, st, h, hvisit, hD => by
    rw [Stmt.procedures] at hD
    exact branch_takes h hvisit fun hs hg hvisit =>
      block_takes yes none hs (gives_none _) hvisit (hg.path ▸ hD)
  | .branch cond yes (some no) line, rest, st, h, hvisit, hD => by
    rw [Stmt.procedures] at hD
    exact branchElse_takes h hvisit
      (fun hs hg hvisit => block_takes yes none hs (gives_none _) hvisit
        (hg.path ▸ fun p hp => hD p (List.mem_append_left _ hp)))
      fun hs hg hvisit => block_takes no none hs (gives_none _) hvisit
        (hg.path ▸ fun p hp => hD p (List.mem_append_right _ hp))
  | .loop dest value cond body line, rest, st, h, hvisit, hD => by
    rw [Stmt.procedures] at hD
    exact loop_takes h hvisit fun hs hg hvisit =>
      block_takes body none hs (gives_none _) hvisit (hg.path ▸ hD)
  | .result value line, rest, st, h, _, _ => result_takes h value line
  | .procedure heading body line, rest, st, h, hvisit, hD => by
    rw [Stmt.procedures] at hD
    refine (procedure_takes h hvisit (hD _ List.mem_cons_self) fun hs hvisit hpath =>
      block_takes body none hs (gives_none _) hvisit
        (hpath ▸ fun p hp => hD p (List.mem_cons_of_mem _ hp))).mono ?_
    exact fun _ _ _ _ hr => hr.1

/-- **Lowering a block** keeps the invariant. -/
theorem block_takes : ∀ (stmts : List Stmt) (last : Result) {st : Stage}, st.Sound D →
    st.Gives last → begun.Visits items stmts st.state →
    (∀ p ∈ blockProcedures st.path stmts, D.Has begun items p) →
    Takes (flow D) st (lowerBlock last stmts) fun r st' => st'.Gives r.1
  | [], last, st, h, hl, _, _ => by
    rw [lowerBlock]
    exact takes_pure h hl
  | stmt :: stmts, last, st, h, hl, hvisit, hD => by
    rw [blockProcedures] at hD
    rw [lowerBlock]
    refine (stmt_takes stmt h hvisit fun p hp => hD p (List.mem_append_left _ hp)).ran.bind ?_
    rintro ⟨result, stmt'⟩ st1 hs1 hf1 ⟨run, hr⟩
    have hlast : st1.Gives (result.or last) := by
      cases result with
      | none => exact hf1.gives hl
      | some found => exact hr
    refine (block_takes stmts _ hs1 hlast (hvisit.stmt run)
      (hf1.path ▸ fun p hp => hD p (List.mem_append_right _ hp))).bind ?_
    rintro ⟨last', stmts'⟩ st2 hs2 - hr'
    exact takes_pure hs2 hr'

end

theorem stmt_flows (stmt : Stmt) (h : st.Sound anyHeadings) :
    Takes (flow anyHeadings) st stmt.lower fun r st' => st'.Gives r.1 :=
  stmt_takes stmt h (@Lowering.Visits.start st.state [stmt]) fun p _ => anyHeadings_has p

theorem block_flows (stmts : List Stmt) (h : st.Sound anyHeadings) :
    Takes (flow anyHeadings) st (lowerBlock none stmts) fun r st' => st'.Gives r.1 :=
  block_takes stmts none h (gives_none _) .start fun p _ => anyHeadings_has p

end Stage

end ProcLang
