import ProcLang.Proofs.Declaring
import ProcLang.Proofs.Stage.Build

/-!
# Steps that leave the functions alone

Steps that record a finding, hand out a unique name, add global data, declare a routine or declare a
symbol do not touch the functions of the module or the cursor. `Stage.Outside` says what such a step
may do, and `Stage.Outside.flow` that it then is a step between sound stages.

* `Stage.addGlobal_takes`, `Stage.declareRoutine_takes`: entries of the module;
* `SymbolTable.Sound.insert`, `Stage.declare_takes`: symbols.
-/

namespace ProcLang

open Ir Naming

namespace Stage

variable {D : Headings} {st : Stage} {s : Lowering}

/-- The state differs from that of the stage in what is found outside of functions, and in that
things were added there. -/
structure Outside (st : Stage) (s : Lowering) : Prop where
  cursor : s.builder.cursor = st.state.builder.cursor
  functions : s.builder.module.functions = st.module.functions
  env : st.env.Extends s.builder.module.interface
  declarations : ∀ d ∈ s.builder.module.declarations,
    ∃ r ∈ Routine.callable ++ [Routine.stringEquals], d = r.declaration
  symbols : s.symbols.Sound s.builder.module st.fn st.arrays
  scopes : ScopesGrow st.state.symbols.locals s.symbols.locals
  globals : st.state.symbols.globals <+: s.symbols.globals
  frames : s.frames = st.state.frames
  errors : st.state.errors <+: s.errors

theorem Outside.sound (ho : st.Outside s) (h : st.Sound D) : { st with state := s }.Sound D where
  placed := ⟨ho.cursor.trans h.placed.cursor, by rw [ho.functions]; exact h.function,
    h.placed.block⟩
  code := h.code.mono ho.env
  heading := h.heading
  passed := h.passed
  frame := by
    obtain ⟨frame, outer, hf, hret⟩ := h.frame
    exact ⟨frame, outer, ho.frames.trans hf, hret⟩
  ended := h.ended
  declarations := ho.declarations
  symbols := ho.symbols

theorem Outside.flows (ho : st.Outside s) (h : st.Sound D) :
    st.Flows D { st with state := s } where
  placed := h.placed.index_lt
  index := rfl
  arrays := rfl
  fn := .refl _
  blocks _ b hb := ⟨b, hb, rfl, List.prefix_rfl⟩
  avail _ _ := rfl
  env := ho.env
  functions := Nat.le_of_eq (congrArg List.length ho.functions.symm)
  others _ _ _ hf := by
    rw [module, ho.functions]
    exact hf
  added i f hi hf := by
    rw [module, ho.functions] at hf
    exact absurd (List.getElem?_eq_some_iff.mp hf).1 (Nat.not_lt.mpr hi)
  scopes := ho.scopes
  globals := ho.globals
  frames := ho.frames
  errors := ho.errors
  pending := rfl
  written _ := id
  block := Or.inl rfl
  kept n b b' _ hb hb' := by
    rw [show b' = b from Option.some.inj (hb'.symm.trans hb)]

theorem Outside.flow {α : Type} {x : Lower α} {a : α} {post : α → Stage → Prop}
    (ho : st.Outside s) (h : st.Sound D) (run : x st.state = .ok (a, s))
    (hpost : post a { st with state := s }) : Takes (flow D) st x post :=
  ⟨a, { st with state := s }, run, ho.sound h, ho.flows h, hpost⟩

theorem Outside.calm {α : Type} {x : Lower α} {a : α} {post : α → Stage → Prop}
    (ho : st.Outside s) (h : st.Sound D) (hl : s.symbols.locals = st.state.symbols.locals)
    (hg : s.symbols.globals = st.state.symbols.globals) (run : x st.state = .ok (a, s))
    (hpost : post a { st with state := s }) : Takes (calm D) st x post :=
  ⟨a, { st with state := s }, run, ho.sound h, ⟨ho.flows h, hl, hg⟩, hpost⟩

/-! ## Findings and unique names -/

theorem Sound.outside_findings (h : st.Sound D) (warnings : List Diagnostic)
    {errors : List LowerError} (he : st.state.errors <+: errors) :
    st.Outside { st.state with warnings, errors } :=
  ⟨rfl, rfl, .refl _, h.declarations, h.symbols, .refl _, List.prefix_rfl, rfl, he⟩

theorem report_takes {α : Type} (h : st.Sound D) (line : Nat) (cause : LowerCause) :
    Takes (calm D) st (Lower.report (α := α) line cause) fun r st' =>
      r = none ∧ st'.state.errors ≠ st.state.errors :=
  (h.outside_findings st.state.warnings (List.prefix_append _ [⟨line, cause⟩])).calm h rfl rfl
    rfl ⟨rfl, by simp⟩

theorem warn_takes (h : st.Sound D) (line : Nat) (message : String) :
    Takes (calm D) st (Lower.warn line message) fun _ _ => True :=
  (h.outside_findings (st.state.warnings ++ [.warning line message]) List.prefix_rfl).calm h rfl
    rfl rfl trivial

theorem orReport_takes {α : Type} (h : st.Sound D) (line : Nat) (outcome : Except LowerCause α) :
    Takes (calm D) st (Lower.orReport line outcome) fun r st' => ∀ a, r = some a →
      outcome = .ok a ∧ st' = st := by
  cases outcome with
  | ok a =>
    refine takes_pure h fun b hb => ?_
    cases hb
    exact ⟨rfl, rfl⟩
  | error cause =>
    refine (report_takes h line cause).mono fun r st' _ _ hr a ha => ?_
    rw [hr.1] at ha
    cases ha

theorem uniqueName_takes (h : st.Sound D) (hint : String) :
    Takes (calm D) st (Lower.uniqueName hint) fun _ _ => True := by
  have hsym := h.symbols
  refine Outside.calm (s := { st.state with symbols := st.state.symbols.tick })
    ⟨rfl, rfl, .refl _, h.declarations, ?_, .refl _, List.prefix_rfl, rfl, List.prefix_rfl⟩ h rfl
    rfl rfl trivial
  exact ⟨hsym.regular.tick, hsym.nonempty, hsym.locals, hsym.procedures, hsym.globals,
    hsym.routines, hsym.hidden⟩

/-! ## Entries of the module -/

/-- Entries that are added to the module leave the symbols as they are. -/
theorem Sound.outside_module (h : st.Sound D) (m : Module)
    (hf : m.functions = st.module.functions) (he : st.env.Extends m.interface)
    (hd : ∀ d ∈ m.declarations, ∃ r ∈ Routine.callable ++ [Routine.stringEquals],
      d = r.declaration) :
    st.Outside { st.state with builder := { st.state.builder with module := m } } :=
  ⟨rfl, hf, he, hd, h.symbols.mono he (by rw [hf]) (.refl _), .refl _, List.prefix_rfl, rfl,
    List.prefix_rfl⟩

/-- Global data are added, unless their name is taken. -/
theorem addGlobal_takes (h : st.Sound D) (g : Global) :
    Takes (calm D) st (Lower.build (.addGlobal g)) fun r st' =>
      ∀ v, r = .ok v → v = .address g.name ∧ g ∈ st'.env.globals := by
  cases htaken : st.module.hasSymbol g.name with
  | true =>
    exact ⟨_, st, build_run (Build.addGlobal_taken htaken), h, h.calm_refl,
      fun v hv => by cases hv⟩
  | false =>
    refine (h.outside_module { st.module with globals := st.module.globals ++ [g] } rfl
      ⟨List.subset_append_left _ _, List.Subset.refl _⟩ h.declarations).calm h
      rfl rfl (build_run (Build.addGlobal_new htaken)) fun v hv => ?_
    cases hv
    exact ⟨rfl, List.mem_append_right _ (List.mem_singleton.mpr rfl)⟩

theorem find?_callable : ∀ r ∈ Routine.callable, Routine.find? r.name = some r := by decide

theorem routine_eq : ∀ r ∈ Routine.callable ++ [Routine.stringEquals],
    ∀ r' ∈ Routine.callable ++ [Routine.stringEquals], r.name = r'.name → r = r' := by decide

/-- A routine is declared, unless a function has its name. -/
theorem declareFunction_takes (h : st.Sound D) {r : Routine}
    (hr : r ∈ Routine.callable ++ [Routine.stringEquals]) :
    Takes (calm D) st (Lower.build (.declareFunction r.declaration)) fun _ st' =>
      r.declaration ∈ st'.env.callees := by
  cases hdeclared : (st.module.declaration? r.declaration.name).isSome with
  | true =>
    refine ⟨_, st, build_run (Build.declareFunction_old hdeclared), h, h.calm_refl,
      List.mem_append_right _ ?_⟩
    -- what is declared by this name is the routine itself
    obtain ⟨d, hd⟩ := Option.isSome_iff_exists.mp hdeclared
    have hmem := List.mem_of_find?_eq_some hd
    have hname : d.name = r.declaration.name := by simpa using List.find?_some hd
    obtain ⟨r', hr', rfl⟩ := h.declarations d hmem
    rw [routine_eq r hr r' hr' hname.symm]
    exact hmem
  | false =>
    refine (h.outside_module { st.module with
      declarations := st.module.declarations ++ [r.declaration] } rfl ?_ fun d hd => ?_).calm h
      rfl rfl (build_run (Build.declareFunction_new hdeclared)) ?_
    · refine ⟨List.Subset.refl _, fun d hd => ?_⟩
      rcases List.mem_append.mp hd with hd | hd
      · exact List.mem_append_left _ hd
      · exact List.mem_append_right _ (List.mem_append_left _ hd)
    · rcases List.mem_append.mp hd with hd | hd
      · exact h.declarations d hd
      · exact ⟨r, hr, List.mem_singleton.mp hd⟩
    · exact List.mem_append_right _ (List.mem_append_right _ (List.mem_singleton.mpr rfl))

/-- After a routine was asked for, it can be called, unless a function has its name. -/
theorem declareRoutine_takes (h : st.Sound D) (name : String) :
    Takes (calm D) st (Lower.build (.declareRoutine name)) fun _ st' =>
      ∀ r ∈ Routine.callable, r.name = name → name ∉ st.module.functions.map Function.name →
        r.declaration ∈ st'.env.callees := by
  cases hfun : (st.module.function? name).isSome with
  | true =>
    refine ⟨(), st, build_run (Build.declareRoutine_defined hfun), h, h.calm_refl,
      fun r _ _ hnone => absurd ?_ hnone⟩
    obtain ⟨f, hf⟩ := Option.isSome_iff_exists.mp hfun
    exact List.mem_map.mpr ⟨f, List.mem_of_find?_eq_some hf, by simpa using List.find?_some hf⟩
  | false =>
    cases hfind : Routine.find? name with
    | none =>
      refine ⟨(), st, build_run (Build.declareRoutine_unknown hfun hfind), h, h.calm_refl,
        fun r hr hname _ => ?_⟩
      rw [← hname, find?_callable r hr] at hfind
      cases hfind
    | some r =>
      obtain ⟨a, st', run', hs, hflow, hmem⟩ :=
        declareFunction_takes h (List.mem_of_find?_eq_some hfind)
      have run : Lower.build (.declareRoutine name) st.state = .ok (a, st'.state) := by
        rw [← run', Lower.build, Lower.build, Build.declareRoutine_known hfun hfind]
      refine ⟨a, st', run, hs, hflow, fun r' hr' hname _ => ?_⟩
      rw [← hname, find?_callable r' hr'] at hfind
      cases hfind
      exact hmem

end Stage

/-! ## Symbols -/

theorem Symbols.contains_append {symbols : Symbols} {name : String} (symbol : Symbol)
    (h : symbols.contains name = true) : Symbols.contains (symbols ++ [symbol]) name = true := by
  obtain ⟨s, hs, hname⟩ := Symbols.contains_iff.mp h
  exact Symbols.contains_iff.mpr ⟨s, List.mem_append_left _ hs, hname⟩

theorem Symbols.contains_concat (symbols : Symbols) (symbol : Symbol) :
    Symbols.contains (symbols ++ [symbol]) symbol.name = true :=
  Symbols.contains_iff.mpr ⟨symbol, List.mem_append_right _ (List.mem_singleton.mpr rfl), rfl⟩

/-- **Declaring a symbol** keeps a table sound. The module may have gained a function meanwhile; if
that has the name of a routine, it has to be the one that the symbol stands for. -/
theorem SymbolTable.Sound.insert {m m' : Module} {f : Function} {arrays : List Param}
    {t : SymbolTable} (h : t.Sound m f arrays) (he : m.interface.Extends m'.interface)
    {symbol : Symbol} {isGlobal : Bool} (hd : t.isDeclared symbol.name isGlobal = false)
    (hloc : symbol.Located m'.interface f arrays)
    (hglobal : isGlobal = true → ∀ g arrays, symbol.Located m'.interface g arrays)
    (hcall : symbol.Callable m'.interface)
    (hhidden : ∀ r ∈ Routine.callable, r.name ∈ m'.functions.map Function.name →
      r.name ∈ m.functions.map Function.name ∨
        (isGlobal = false ∧ t.locals.length = 1 ∧ symbol.name = r.name)) :
    (t.insert symbol isGlobal).Sound m' f arrays := by
  have hregular := h.regular.insert h.nonempty hd
  cases isGlobal with
  | true =>
    rw [insert_global] at hregular ⊢
    refine ⟨hregular, h.nonempty, fun scope hs s hs' => (h.locals scope hs s hs').mono he (.refl _),
      fun scope hs s hs' => (h.procedures scope hs s hs').mono he, fun s hs => ?_, fun r hr => ?_,
      fun r hr hmem => ?_⟩
    · rcases List.mem_append.mp hs with hs | hs
      · obtain ⟨hl, hc⟩ := h.globals s hs
        exact ⟨fun g arrays => (hl g arrays).mono he (.refl g), hc.imp (·.mono he) id⟩
      · rw [List.mem_singleton.mp hs]
        exact ⟨hglobal rfl, Or.inl hcall⟩
    · exact Symbols.contains_append _ (h.routines r hr)
    · rcases hhidden r hr hmem with hmem | ⟨hfalse, -, -⟩
      · exact h.hidden r hr hmem
      · cases hfalse
  | false =>
    obtain ⟨scope, outer, hl⟩ := List.exists_cons_of_ne_nil h.nonempty
    have hlocals := h.locals
    have hprocs := h.procedures
    have hhid := h.hidden
    rw [hl] at hlocals hprocs hhid hhidden
    rw [insert_local hl] at hregular ⊢
    refine ⟨hregular, List.cons_ne_nil _ _, fun scope' hs s hs' => ?_, fun scope' hs s hs' => ?_,
      fun s hs => ?_, h.routines, fun r hr hmem => ?_⟩
    · cases hs
      rcases List.mem_append.mp hs' with hs' | hs'
      · exact (hlocals scope rfl s hs').mono he (.refl _)
      · rw [List.mem_singleton.mp hs']
        exact hloc
    · rcases List.mem_cons.mp hs with rfl | hs
      · rcases List.mem_append.mp hs' with hs' | hs'
        · exact (hprocs scope List.mem_cons_self s hs').mono he
        · rw [List.mem_singleton.mp hs']
          exact hcall
      · exact (hprocs scope' (List.mem_cons_of_mem _ hs) s hs').mono he
    · obtain ⟨hl, hc⟩ := h.globals s hs
      exact ⟨fun g arrays => (hl g arrays).mono he (.refl g), hc.imp (·.mono he) id⟩
    · -- the outermost scope is the innermost one only if there is no other
      cases outer with
      | nil =>
        refine ⟨_, rfl, ?_⟩
        rcases hhidden r hr hmem with hmem | ⟨-, -, hname⟩
        · obtain ⟨s, hs, hc⟩ := hhid r hr hmem
          cases hs
          exact Symbols.contains_append _ hc
        · rw [← hname]
          exact Symbols.contains_concat _ _
      | cons scope2 outer =>
        have hmem : r.name ∈ m.functions.map Function.name := by
          refine (hhidden r hr hmem).resolve_right ?_
          rintro ⟨-, hlen, -⟩
          simp at hlen
        obtain ⟨s, hs, hc⟩ := hhid r hr hmem
        rw [List.getLast?_cons_cons] at hs
        exact ⟨s, by rw [List.getLast?_cons_cons]; exact hs, hc⟩

/-- Declaring a symbol adds to the innermost scope, or to the global one. -/
theorem SymbolTable.scopesGrow_insert {t : SymbolTable} (hne : t.locals ≠ []) (symbol : Symbol)
    (isGlobal : Bool) :
    ScopesGrow t.locals (t.insert symbol isGlobal).locals ∧
      t.globals <+: (t.insert symbol isGlobal).globals := by
  cases isGlobal with
  | true =>
    rw [insert_global]
    exact ⟨.refl _, List.prefix_append _ _⟩
  | false =>
    obtain ⟨scope, outer, hl⟩ := List.exists_cons_of_ne_nil hne
    rw [insert_local hl, hl]
    exact ⟨⟨rfl, List.prefix_append _ _, rfl⟩, List.prefix_rfl⟩

namespace Stage

variable {D : Headings} {st : Stage}

/-- A symbol is declared, unless the scope has its name. -/
theorem declare_takes (h : st.Sound D) (line : Nat) {symbol : Symbol} {isGlobal : Bool}
    (hloc : symbol.Located st.env st.fn st.arrays)
    (hglobal : isGlobal = true → ∀ g arrays, symbol.Located st.env g arrays)
    (hcall : symbol.Callable st.env) :
    Takes (flow D) st (Lower.declare line symbol isGlobal) fun r st' =>
      (r = none ∧ st'.state.errors ≠ st.state.errors) ∨
        (r = some () ∧ st'.state.symbols = st.state.symbols.insert symbol isGlobal) := by
  cases hd : st.state.symbols.isDeclared symbol.name isGlobal with
  | true =>
    have hadd : st.state.symbols.add symbol isGlobal = .error (.duplicate symbol.name) :=
      SymbolTable.add_eq_error_iff.mpr ⟨hd, rfl⟩
    refine takes_get ?_
    rw [hadd]
    exact (report_takes h line _).toFlow.mono fun r st' _ _ hr => Or.inl hr
  | false =>
    obtain ⟨hscopes, hglobals⟩ :=
      SymbolTable.scopesGrow_insert h.symbols.nonempty symbol isGlobal
    have ho : st.Outside { st.state with symbols := st.state.symbols.insert symbol isGlobal } :=
      ⟨rfl, rfl, .refl _, h.declarations,
        h.symbols.insert (.refl _) hd hloc hglobal hcall fun _ _ => Or.inl, hscopes, hglobals, rfl,
        List.prefix_rfl⟩
    exact ho.flow h (Lower.declare_run hd line) (Or.inr ⟨rfl, rfl⟩)

end Stage

end ProcLang
