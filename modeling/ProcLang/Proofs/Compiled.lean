import ProcLang.Proofs.Readings
import ProcLang.Proofs.Stage.Procedure

/-!
# Compiled modules

Every text that can be compiled at all gives a module whose functions are finished
(`compile_finished`), whatever is wrong with the text. The headings of the functions are those of
the procedures that were read from the text (`sourceItems`), and of the program itself.

Items are lowered one by one. `Underway` is what holds between two items.
-/

namespace ProcLang

open Ir Naming

variable {source : String} {options : Options} {c : Compilation}

/-! ## Headings -/

/-- The headings of the functions for a program with the given items: that of the program itself,
and those with which its procedures were declared. -/
def itemHeadings (begun : Lowering) (items : List Stmt) : Headings := fun name ret params arrays =>
  (name = Lower.mainName ∧ ret = .i32 ∧ params = [] ∧ arrays = []) ∨
    ∃ p ∈ blockProcedures "" items, begun.Opens items p ∧ ∃ ty shapes, p.2.Resolves ty shapes ∧
      name = p.1 ∧ ret = ty.ir ∧ params = Lower.irParams shapes ∧ arrays = Lower.arrayParams shapes

theorem mem_blockProcedures {path : String} {p : String × Heading} {stmts : List Stmt} :
    p ∈ blockProcedures path stmts ↔ ∃ stmt ∈ stmts, p ∈ stmt.procedures path := by
  induction stmts with
  | nil => simp [blockProcedures]
  | cons stmt stmts ih => simp [blockProcedures, ih]

/-- The headings of the functions for a text. -/
def sourceHeadings (source : String) (options : Options) : Headings := fun name ret params arrays =>
  ∃ program begun findings, (sourceHeader source options).value = some program ∧
    (Lowering.new (options.moduleName.getD program)).begin program = .ok (begun, findings) ∧
    itemHeadings begun (sourceItems source options) name ret params arrays

/-! ## Between two items -/

/-- No error is among the diagnostics. -/
def Clean (found : List Diagnostic) : Prop :=
  found.any Diagnostic.isError = false

theorem clean_append {a b : List Diagnostic} : Clean (a ++ b) ↔ Clean a ∧ Clean b := by
  simp [Clean, List.any_append]

theorem errors_of_clean {s : Lowering} (h : Clean s.diagnostics) : s.errors = [] := by
  rw [Lowering.diagnostics, clean_append] at h
  cases he : s.errors with
  | nil => rfl
  | cons e es =>
    rw [he] at h
    exact absurd h.2 (by
      simp [Clean, Diagnostic.ofLowerError, Diagnostic.error, Diagnostic.isError])

/-- How an item was lowered. -/
theorem item_inv {s after : Lowering} {stmt : Stmt} {findings : List Diagnostic}
    (h : s.item stmt = .ok (after, findings)) :
    ∃ lowered s', stmt.lower s = .ok (lowered, s') ∧ after = s'.clearFindings ∧
      findings = s'.diagnostics := by
  unfold Lowering.item at h
  cases hlower : stmt.lower s with
  | error fault =>
    rw [hlower] at h
    cases h
  | ok r =>
    rw [hlower] at h
    cases h
    exact ⟨r.1, r.2, rfl, rfl, rfl⟩

/-- What holds of the stage and the diagnostics so far before and behind every item. -/
structure Underway (D : Headings) (st : Stage) (found : List Diagnostic) : Prop where
  sound : st.Sound D
  index : st.index = 0
  ret : st.fn.ret = .i32
  params : st.fn.params = []
  path : st.path = ""
  pending : st.pending = []
  clear : st.state.errors = []
  others : ∀ (i : Nat) (f : Function), i ≠ 0 → st.module.functions[i]? = some f →
    Finished D st.env f ∧ (Clean found → (f.params.map Param.name).Nodup)

namespace Underway

variable {D : Headings} {st : Stage} {found : List Diagnostic}

theorem weaken (h : Underway D st found) (more : List Diagnostic) : Underway D st (found ++ more) :=
  { h with
    others := fun i f hi hf =>
      ⟨(h.others i f hi hf).1, fun hc => (h.others i f hi hf).2 (clean_append.mp hc).1⟩ }

/-- **Lowering an item** leads from between two items to between two items. -/
theorem item (h : Underway D st found) {begun : Lowering} {items rest : List Stmt} {stmt : Stmt}
    (hvisit : begun.Visits items (stmt :: rest) st.state)
    (hD : ∀ p ∈ stmt.procedures "", D.Has begun items p) :
    ∃ st' findings, st.state.item stmt = .ok (st'.state, findings) ∧
      Underway D st' (found ++ findings) ∧ begun.Visits items rest st'.state := by
  obtain ⟨⟨result, lowered⟩, st1, run, hs, hf, -⟩ :=
    Stage.stmt_takes stmt h.sound hvisit (h.path ▸ hD)
  refine ⟨{ st1 with state := st1.state.clearFindings }, st1.state.diagnostics, ?_, ?_,
    (hvisit.stmt run).next⟩
  · simp only [Lowering.item, run, bind, Except.bind]
    rfl
  · refine ⟨⟨hs.placed, hs.code, hs.heading, hs.passed, hs.frame, hs.ended, hs.declarations,
      hs.symbols⟩, hf.index.trans h.index, hf.fn.ret.trans h.ret, hf.fn.params.trans h.params,
      hf.path.trans h.path, hf.pending.trans h.pending, rfl, fun i f hi hfun => ?_⟩
    rcases hf.function_cases (by rw [h.index]; exact hi) hfun with hold | ⟨hfin, hnodup⟩
    · obtain ⟨hfin, hnodup⟩ := h.others i f hi hold
      exact ⟨hfin.mono hf.env, fun hc => hnodup (clean_append.mp hc).1⟩
    · refine ⟨hfin, fun hc => hnodup ?_⟩
      rw [h.clear, errors_of_clean (clean_append.mp hc).2]

theorem lowers (h : Underway anyHeadings st found) (stmt : Stmt) :
    ∃ st' findings, st.state.item stmt = .ok (st'.state, findings) ∧
      Underway anyHeadings st' (found ++ findings) := by
  obtain ⟨st', findings, run, h', -⟩ := h.item (@Lowering.Visits.start st.state [stmt])
    fun p _ => anyHeadings_has p
  exact ⟨st', findings, run, h'⟩

/-- The last block returns zero, unless it has ended. -/
theorem finish_run (h : Underway D st found) :
    ∃ st' s, Lower.finish st.state = .ok (st'.module, s) ∧ st'.Sound D ∧ st.Flows D st' ∧
      st'.state.errors = st.state.errors ∧ ¬ st'.Open ∧
      (st.Open → st' = st.push (.ret (.int 0))) := by
  have htakes : Stage.Takes (Stage.calm D) st (Lower.unlessEnded (Lower.build (.ret (.int 0))))
      fun _ st' => st'.state.errors = st.state.errors ∧ ¬ st'.Open ∧
        (st.Open → st' = st.push (.ret (.int 0))) := by
    refine Stage.unlessEnded_takes h.sound (fun hopen => ?_) fun hended =>
      ⟨rfl, hended, fun hopen => absurd hopen hended⟩
    have hi : st.Fits (.ret (.int 0)) :=
      ⟨rfl, h.ret.symm, by simp [Instr.operands, Stage.offers_int], by simp [Instr.targets]⟩
    have hemit := Stage.emit_run h.sound (.ret (.int 0))
    rw [Stage.room_of_open hopen] at hemit
    refine ⟨(), _, hemit, h.sound.push hopen hi (by rintro d ⟨⟩),
      h.sound.push_calm hi.code, rfl, fun hopen' => ?_, fun _ => rfl⟩
    cases (Stage.emitted_push hopen (.ret (.int 0))).ended.mp hopen'
  obtain ⟨_, st', run, hs', hc', herrors, hended, hpush⟩ := htakes
  obtain ⟨frame, outer, hframes, -⟩ := hs'.frame
  have hcursor : st.state.builder.cursor.isSome = true := by rw [h.sound.placed.cursor]; rfl
  have hne : st'.state.frames.isEmpty = false := by rw [hframes]; rfl
  refine ⟨st', { st'.state with
    symbols := { st'.state.symbols with locals := st'.state.symbols.locals.tail }
    frames := st'.state.frames.tail }, ?_, hs', hc'.toFlows, herrors, hended, hpush⟩
  rw [Lower.finish_eq, Lower.endProgram, bind_assoc, run_bind run_get, if_pos hcursor, run_bind run,
    Lower.leaveProgram, run_bind run_get, hne]
  dsimp only
  rw [if_neg Bool.false_ne_true, run_bind (Stage.closeScope_run hs')]
  rfl

/-- **Finishing a program** finishes all functions. -/
theorem finish (h : Underway D st found) :
    ∃ m s, Lower.finish st.state = .ok (m, s) ∧ ∀ f ∈ m.functions,
      Finished D m.interface f ∧ (Clean found → (f.params.map Param.name).Nodup) := by
  obtain ⟨st', s, run, hs, hf, herrors, hended, -⟩ := h.finish_run
  refine ⟨st'.module, s, run, fun f hfun => ?_⟩
  obtain ⟨i, hi⟩ := List.getElem?_of_mem hfun
  by_cases hzero : i = 0
  · have hfn : st'.module.functions[i]? = some st'.fn := by
      rw [hzero, ← h.index, ← hf.index]
      exact hs.function
    have : f = st'.fn := Option.some.inj (hi.symm.trans hfn)
    subst this
    refine ⟨hs.finished hended (hf.pending.trans h.pending), fun _ => ?_⟩
    rw [hf.fn.params, h.params]
    exact List.nodup_nil
  · rcases hf.function_cases (by rw [h.index]; exact hzero) hi with hold | ⟨hfin, hnodup⟩
    · obtain ⟨hfin, hnodup⟩ := h.others i f hzero hold
      exact ⟨hfin.mono hf.env, hnodup⟩
    · exact ⟨hfin, fun _ => hnodup herrors⟩

end Underway

/-! ## Before the first item -/

/-- The stage before the first item. -/
def Stage.start (moduleName name : String) : Stage where
  state :=
    { builder :=
        { module := { name := moduleName, functions := [.new Lower.mainName .i32 []] }
          cursor := some ⟨0, 0⟩ }
      symbols := Routine.symbols.push name
      frames := [.program] }
  index := 0
  fn := .new Lower.mainName .i32 []
  block := 0
  avail _ _ := False
  pending := []
  arrays := []

/-- The name of the program's function is not taken yet. -/
theorem begin_run (moduleName name : String) :
    (Lowering.new moduleName).begin name = .ok ((Stage.start moduleName name).state, []) :=
  rfl

theorem Routine.symbols_regular : Routine.symbols.Regular where
  framed := trivial
  distinct := by simp [Routine.symbols]
  global_frame := by simp [Routine.symbols, Routine.symbol]
  global_distinct := by decide

theorem Stage.start_sound {D : Headings} (moduleName name : String)
    (hD : D Lower.mainName .i32 [] []) : (Stage.start moduleName name).Sound D where
  placed := ⟨rfl, rfl, Nat.zero_lt_one⟩
  code := .new _ [] Lower.mainName .i32 (by simp)
  heading := hD
  passed := by simp [Stage.start]
  frame := ⟨.program, [], rfl, rfl⟩
  ended n b hb _ := by
    have := (List.getElem?_eq_some_iff.mp hb).1
    exact Or.inl (Nat.lt_one_iff.mp this)
  declarations := by simp [Stage.start, Stage.module]
  symbols :=
    { regular := Routine.symbols_regular.push name
      nonempty := List.cons_ne_nil _ _
      locals := by simp [Stage.start, SymbolTable.push]
      procedures := by simp [Stage.start, SymbolTable.push, Routine.symbols]
      globals := by
        intro s hs
        obtain ⟨r, hr, rfl⟩ := List.mem_map.mp hs
        exact ⟨fun _ _ => trivial, Or.inr ⟨r, hr, rfl⟩⟩
      routines := fun r hr => Symbols.contains_iff.mpr ⟨r.symbol, List.mem_map_of_mem hr, rfl⟩
      hidden := fun r hr hmem => by
        have names : ∀ r ∈ Routine.callable, r.name ≠ Lower.mainName := by decide
        exact absurd (List.mem_singleton.mp hmem) (names r hr) }

theorem Stage.start_underway {D : Headings} (hD : D Lower.mainName .i32 [] [])
    (moduleName name : String) (found : List Diagnostic) :
    Underway D (Stage.start moduleName name) found where
  sound := Stage.start_sound moduleName name hD
  index := rfl
  ret := rfl
  params := rfl
  path := rfl
  pending := rfl
  clear := rfl
  others i f hi hf := by
    have := (List.getElem?_eq_some_iff.mp hf).1
    exact absurd (Nat.lt_one_iff.mp this) hi

/-! ## Item by item -/

/-- What holds of the items so far, the errors in the text, the state of lowering and the
diagnostics stays so when a text is found wrong or the next item of a list is lowered, which it can
be. -/
structure ItemInvariant (items : List Stmt)
    (I : List Stmt → List SyntaxError → Lowering → List Diagnostic → Prop) : Prop where
  text : ∀ {done errors s found} (more : List SyntaxError), I done errors s found →
    I done (errors ++ more) s (found ++ more.map .ofSyntaxError)
  item : ∀ {done errors s found} stmt, done ++ [stmt] <+: items → I done errors s found →
    ∃ s' findings, s.item stmt = .ok (s', findings) ∧
      I (done ++ [stmt]) errors s' (found ++ findings)

section ItemInvariant

variable {items : List Stmt} {errors : List SyntaxError} {s : Lowering} {found : List Diagnostic}
  {I : List Stmt → List SyntaxError → Lowering → List Diagnostic → Prop}

/-- The invariant holds behind a section if it holds in front of it. -/
theorem compileSection_run (inv : ItemInvariant items I) (part : Section) (p : Parser)
    {done : List Stmt} {errors : List SyntaxError} {s : Lowering} {found : List Diagnostic}
    (sub : done ++ (p.reading part).1 <+: items) (h : I done errors s found) :
    ∃ s' found', compileSection part p s found =
        .ok ((p.reading part).2.1, ⟨(p.reading part).2.2, s', found'⟩) ∧
      I (done ++ (p.reading part).1) (errors ++ (p.items part).after.errors) s' found' := by
  -- The errors that are found later stand behind those that are set aside here.
  have later : ∀ q : Parser, errors ++ (q.items part).after.errors =
      errors ++ q.errors ++ (q.clearErrors.items part).after.errors := fun q => by
    rw [(items_setAside part q).2, List.append_assoc]
    rfl
  rw [Parser.reading] at sub ⊢
  rw [compileSection, Parser.items]
  cases hnext : p.nextItem part with
  | item stmt q lt =>
    rw [hnext, List.append_cons] at sub
    have : q.clearErrors.remaining < p.remaining := lt
    obtain ⟨s1, findings, hitem, h1⟩ :=
      inv.item stmt ((List.prefix_append _ _).trans sub) (inv.text q.errors h)
    obtain ⟨s2, found2, hrest, h2⟩ := compileSection_run inv part q.clearErrors sub h1
    refine ⟨s2, found2, ?_, ?_⟩
    · simp only [hitem]
      exact hrest
    · rw [List.append_assoc, ← later] at h2
      exact h2
  | recovered q lt =>
    rw [hnext] at sub
    have : q.clearErrors.remaining < p.remaining := lt
    obtain ⟨s2, found2, hrest, h2⟩ :=
      compileSection_run inv part q.clearErrors sub (inv.text q.errors h)
    rw [← later] at h2
    exact ⟨s2, found2, hrest, h2⟩
  | finished q le | ended q le =>
    exact ⟨s, _, rfl, by rw [List.append_nil]; exact inv.text q.errors h⟩
termination_by p.remaining

/-- The invariant holds behind both sections if it holds in front of them. -/
theorem compileSections_run (inv : ItemInvariant items I) (p : Parser)
    (sub : p.readings <+: items) (h : I [] errors s found) :
    ∃ progress, compileSections p s found = .ok progress ∧
      progress.parser = p.body.after.clearErrors ∧
      I p.readings (errors ++ p.body.after.errors) progress.lowering progress.diagnostics := by
  obtain ⟨hafter, -⟩ := reading_items .declarations p
  rw [Parser.readings] at sub ⊢
  rw [body_after]
  cases hcomplete : (p.reading .declarations).2.1 with
  | false =>
    simp only [hcomplete, Bool.false_eq_true, if_false] at sub ⊢
    obtain ⟨s1, found1, run1, h1⟩ :=
      compileSection_run inv .declarations p (by rwa [List.nil_append]) h
    refine ⟨⟨(p.reading .declarations).2.2, s1, found1⟩, ?_, hafter.symm, h1⟩
    rw [compileSections, run1, hcomplete]
    rfl
  | true =>
    simp only [hcomplete, if_true] at sub ⊢
    obtain ⟨s1, found1, run1, h1⟩ :=
      compileSection_run inv .declarations p ((List.prefix_append _ _).trans sub) h
    obtain ⟨s2, found2, run2, h2⟩ := compileSection_run inv .statements _ sub h1
    obtain ⟨hlast, -⟩ := reading_items .statements (p.reading .declarations).2.2
    refine ⟨⟨((p.reading .declarations).2.2.reading .statements).2.2, s2, found2⟩, ?_, ?_, ?_⟩
    · rw [compileSections, run1, hcomplete]
      exact congrArg (· >>= fun r => pure r.2) run2
    · rw [(items_setAside .statements _).2, hafter]
      exact hlast.symm
    · rw [(items_setAside .statements _).2, hafter]
      rw [List.append_assoc] at h2
      exact h2

/-- The invariant holds in front of the end of a program. -/
theorem compileBody_run (inv : ItemInvariant items I) (p : Parser) (name moduleName : String)
    (sub : p.clearErrors.readings <+: items)
    (h : I [] p.errors (Stage.start moduleName name).state p.diagnostics) :
    ∃ progress : Progress,
      I p.clearErrors.readings p.body.after.errors progress.lowering progress.diagnostics ∧
      ∀ m s, Lower.finish progress.lowering = .ok (m, s) →
        compileBody p name moduleName =
          .ok (p.body.after.clearErrors, { module := m, diagnostics := progress.diagnostics }) := by
  rw [← List.append_nil p.diagnostics] at h
  obtain ⟨progress, run, hparser, h'⟩ := compileSections_run inv p.clearErrors sub h
  rw [(body_setAside p).2]
  refine ⟨progress, h', fun m s hfinish => ?_⟩
  simp only [compileBody, begin_run, run, hfinish, hparser, bind, Except.bind, pure, Except.pure]
  rfl

end ItemInvariant

/-- Between two items stands a stage that is underway, and the other items come next. -/
def Between (D : Headings) (begun : Lowering) (items done : List Stmt) (s : Lowering)
    (found : List Diagnostic) : Prop :=
  ∃ st : Stage, st.state = s ∧ Underway D st found ∧
    ∃ rest, done ++ rest = items ∧ begun.Visits items rest s

theorem Stage.start_between {D : Headings} (hD : D Lower.mainName .i32 [] [])
    (moduleName name : String) (items : List Stmt) (found : List Diagnostic) :
    Between D (Stage.start moduleName name).state items []
      (Stage.start moduleName name).state found :=
  ⟨_, rfl, start_underway hD moduleName name found, items, rfl, .start⟩

theorem between_invariant {D : Headings} {begun : Lowering} {items : List Stmt}
    (hD : ∀ p ∈ blockProcedures "" items, D.Has begun items p) :
    ItemInvariant items fun done _ => Between D begun items done where
  text := by
    rintro done errors s found more ⟨st, rfl, h, hrest⟩
    exact ⟨st, rfl, h.weaken _, hrest⟩
  item := by
    rintro done errors s found stmt ⟨later, hlater⟩ ⟨st, rfl, h, rest, hrest, hvisit⟩
    obtain rfl : rest = stmt :: later := by
      rw [← hlater, List.append_assoc] at hrest
      exact List.append_cancel_left hrest
    have hmem : stmt ∈ items := by
      rw [← hrest]
      simp
    obtain ⟨st', findings, run, h', hvisit'⟩ :=
      h.item hvisit fun p hp => hD p (mem_blockProcedures.mpr ⟨stmt, hmem, hp⟩)
    exact ⟨st'.state, findings, run, st', rfl, h', later, hlater, hvisit'⟩

/-- What is kept by every item that is lowered is kept together with that. -/
theorem between_and {begun : Lowering} {items : List Stmt}
    {I : List Stmt → List SyntaxError → Lowering → List Diagnostic → Prop}
    (text : ∀ {done errors s found} (more : List SyntaxError), I done errors s found →
      I done (errors ++ more) s (found ++ more.map .ofSyntaxError))
    (item : ∀ {done errors s found s' findings}, ∀ stmt ∈ items, I done errors s found →
      s.item stmt = .ok (s', findings) → I (done ++ [stmt]) errors s' (found ++ findings)) :
    ItemInvariant items fun done errors s found =>
      Between anyHeadings begun items done s found ∧ I done errors s found :=
  have between := between_invariant fun p _ => anyHeadings_has p
  { text := fun {_ errors _ _} more h =>
      ⟨@ItemInvariant.text _ _ between _ errors _ _ more h.1, text more h.2⟩
    item := fun {_ errors _ _} stmt hnext h => by
      obtain ⟨s', findings, run, h'⟩ := @ItemInvariant.item _ _ between _ errors _ _ stmt hnext h.1
      exact ⟨s', findings, run, h', item stmt (hnext.subset (by simp)) h.2 run⟩ }

/-! ## A whole text -/

/-- **The functions of a compiled module are finished**: a text that can be compiled at all gives a
module with finished functions, with the headings that were read from the text. -/
theorem compile_finished (source : String) (options : Options) :
    compile source options = .error .overflow ∨
      ∃ c, compile source options = .ok c ∧ ∀ f ∈ c.module.functions,
        Finished (sourceHeadings source options) c.module.interface f ∧
          (c.hasErrors = false → (f.params.map Param.name).Nodup) := by
  cases hheader : (sourceHeader source options).value with
  | none =>
    rw [compile, hheader]
    dsimp only [pure, Except.pure, bind, Except.bind]
    split
    · exact Or.inl rfl
    · exact Or.inr ⟨_, rfl, by simp⟩
  | some name =>
    have hitems := sourceItems_eq hheader
    have hD : ∀ {f ret params arrays}, itemHeadings (Stage.start (options.moduleName.getD name)
        name).state (sourceItems source options) f ret params arrays →
        sourceHeadings source options f ret params arrays :=
      fun h => ⟨name, _, [], hheader, begin_run _ name, h⟩
    obtain ⟨progress, ⟨st, hst, h, -⟩, run⟩ :=
      compileBody_run (between_invariant fun p hp hopens ty shapes hres =>
          hD (Or.inr ⟨p, hp, hopens, ty, shapes, hres, rfl, rfl, rfl, rfl⟩))
        (sourceHeader source options).after name
        (options.moduleName.getD name) (hitems ▸ List.prefix_rfl)
        (Stage.start_between (hD (Or.inl ⟨rfl, rfl, rfl, rfl⟩)) _ name _ _)
    obtain ⟨m, s, hfinish, hfunctions⟩ := h.finish
    rw [hst] at hfinish
    rw [compile, hheader]
    dsimp only
    rw [run m s hfinish]
    dsimp only [bind, Except.bind]
    split
    · exact Or.inl rfl
    · exact Or.inr ⟨_, rfl, hfunctions⟩

variable (compiled : compile source options = .ok c)

include compiled

/-- The body of a program that is compiled. -/
theorem compile_body {name : String}
    (hname : (sourceHeader source options).value = some name) :
    ∃ last, compileBody (sourceHeader source options).after name
      (options.moduleName.getD name) = .ok (last, c) := by
  rw [compile, hname] at compiled
  cases hrun : compileBody (sourceHeader source options).after name
      (options.moduleName.getD name) with
  | error fault =>
    simp only [hrun] at compiled
    cases compiled
  | ok r =>
    simp only [hrun, bind, Except.bind] at compiled
    split at compiled
    · cases compiled
    · cases compiled
      exact ⟨_, rfl⟩

/-- **What every item keeps holds in the end**: what holds of the items so far, the state and the
diagnostics before the first item, and stays so when a text is found wrong or an item is lowered,
holds in front of the end of the program. -/
theorem compile_between_items {name : String}
    (hname : (sourceHeader source options).value = some name)
    {I : List Stmt → Lowering → List Diagnostic → Prop}
    (start : ∀ found, I [] (Stage.start (options.moduleName.getD name) name).state found)
    (text : ∀ {done s found} (more : List Diagnostic), I done s found → I done s (found ++ more))
    (item : ∀ {done s found s' findings}, ∀ stmt ∈ sourceItems source options, I done s found →
      s.item stmt = .ok (s', findings) → I (done ++ [stmt]) s' (found ++ findings)) :
    ∃ st s, Underway anyHeadings st c.diagnostics ∧
      I (sourceItems source options) st.state c.diagnostics ∧
      Lower.finish st.state = .ok (c.module, s) := by
  have hitems := sourceItems_eq hname
  obtain ⟨last, hbody⟩ := compile_body compiled hname
  obtain ⟨progress, ⟨⟨st, hst, h, -⟩, hI⟩, run⟩ := compileBody_run
    (@between_and _ (sourceItems source options) (fun done _ => I done)
      (fun more => text (more.map .ofSyntaxError)) item)
    (sourceHeader source options).after name (options.moduleName.getD name)
    (hitems ▸ List.prefix_rfl) ⟨Stage.start_between trivial _ name _ _, start _⟩
  obtain ⟨m, s, hfinish, -⟩ := h.finish
  rw [hst] at hfinish
  cases hbody.symm.trans (run m s hfinish)
  rw [← hitems] at hI
  exact ⟨st, s, h, hst ▸ hI, hst ▸ hfinish⟩

/-- A text without a heading has an empty module. -/
theorem compile_headless (hheader : (sourceHeader source options).value = none) :
    c.module = { name := options.moduleName.getD "" } := by
  rw [compile, hheader] at compiled
  dsimp only [pure, Except.pure, bind, Except.bind] at compiled
  split at compiled
  · cases compiled
  · cases compiled
    rfl

/-- The same for what does not depend on the items. A text without a heading has an empty module. -/
theorem compile_between {I : Lowering → List Diagnostic → Prop}
    (start : ∀ moduleName name found, I (Stage.start moduleName name).state found)
    (text : ∀ {s found} (more : List Diagnostic), I s found → I s (found ++ more))
    (item : ∀ {s found s' findings}, ∀ stmt ∈ sourceItems source options, I s found →
      s.item stmt = .ok (s', findings) → I s' (found ++ findings)) :
    (∃ name, c.module = { name }) ∨
      ∃ st s, Underway anyHeadings st c.diagnostics ∧
        I st.state c.diagnostics ∧ Lower.finish st.state = .ok (c.module, s) := by
  cases hheader : (sourceHeader source options).value with
  | none => exact Or.inl ⟨_, compile_headless compiled hheader⟩
  | some name =>
    exact Or.inr (@compile_between_items source options c compiled name hheader (fun _ => I)
      (start _ _) text item)

end ProcLang
