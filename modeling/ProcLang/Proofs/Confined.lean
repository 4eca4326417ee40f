import ProcLang.Proofs.Reached

/-!
# What statements leave alone

A statement can be lowered at every state that is reached, whatever is wrong with it. What it may
change is narrow (`Lowering.Confined`): it adds to the function at the cursor, to the innermost
scope and to the global one. A declaration is done as a whole or not at all.

* `stmt_confined`: a statement leaves the frames, the scopes around the innermost one and the other
  functions as they are; a procedure leaves all functions and the cursor;
* `declarations_all_or_nothing`: a wrong declaration changes nothing but the errors, and one that is
  not wrong adds its storage and its symbol.
-/

namespace ProcLang

open Ir Stage

/-- All that lowering a statement may have changed: symbols were added to the innermost scope and to
the global one, functions were added to the module, and the function at the cursor may have changed.
-/
structure Lowering.Confined (s s' : Lowering) : Prop where
  depth : s'.symbols.depth = s.symbols.depth
  frames : s'.frames = s.frames
  /-- The cursor is in the same function. -/
  function : s'.builder.cursor.map Ir.Cursor.function = s.builder.cursor.map Ir.Cursor.function
  innermost : ∀ scope, s.symbols.locals.head? = some scope → ∃ scope',
    s'.symbols.locals.head? = some scope' ∧ scope'.label = scope.label ∧
      scope.symbols <+: scope'.symbols
  outer : s'.symbols.locals.tail = s.symbols.locals.tail
  globals : s.symbols.globals <+: s'.symbols.globals
  others : ∀ i f, s.builder.cursor.map Ir.Cursor.function ≠ some i →
    s.builder.module.functions[i]? = some f → s'.builder.module.functions[i]? = some f

namespace Stage

theorem scopesGrow_length : ∀ {a b : List Scope}, ScopesGrow a b → b.length = a.length
  | [], [], _ => rfl
  | _ :: _, _ :: _, ⟨_, _, houter⟩ => by rw [List.length_cons, List.length_cons, houter]

theorem scopesGrow_tail : ∀ {a b : List Scope}, ScopesGrow a b → b.tail = a.tail
  | [], [], _ => rfl
  | _ :: _, _ :: _, ⟨_, _, houter⟩ => houter

theorem scopesGrow_head : ∀ {a b : List Scope}, ScopesGrow a b → ∀ scope, a.head? = some scope →
    ∃ scope', b.head? = some scope' ∧ scope'.label = scope.label ∧ scope.symbols <+: scope'.symbols
  | _ :: _, scope' :: _, ⟨hlabel, hsymbols, _⟩, _, rfl => ⟨scope', rfl, hlabel, hsymbols⟩

variable {D : Headings} {st st' : Stage}

/-- What happens between two stages is confined to the function at the cursor. -/
theorem Grows.confined (hg : st.Grows D st') (h : st.Sound D) (h' : st'.Sound D) :
    st.state.Confined st'.state where
  depth := scopesGrow_length hg.scopes
  frames := hg.frames
  function := by rw [h'.placed.cursor, h.placed.cursor, Option.map_some, Option.map_some, hg.index]
  innermost := scopesGrow_head hg.scopes
  outer := scopesGrow_tail hg.scopes
  globals := hg.globals
  others i f hi hf := by
    refine hg.others i f (fun heq => hi ?_) hf
    rw [h.placed.cursor, heq]
    rfl

end Stage

/-- **Lowering a statement is scoped**, however wrong the statement is. Behind a procedure the
cursor is back, and all functions that there were are the same. -/
theorem stmt_confined {s : Lowering} (h : s.Reached) (stmt : Stmt) :
    ∃ r s', stmt.lower s = .ok (r, s') ∧ s.Confined s' ∧
      ∀ heading body line, stmt = .procedure heading body line →
        s'.builder.cursor = s.builder.cursor ∧
          s.builder.module.functions <+: s'.builder.module.functions := by
  obtain ⟨st, rfl, hs⟩ := h.sound
  obtain ⟨r, st', run, hs', hflows, -⟩ := stmt_flows stmt hs
  refine ⟨r, st'.state, run, hflows.confined hs hs', ?_⟩
  rintro heading body line rfl
  obtain ⟨st'', hstate, -, -, -, haside⟩ := (procedure_takes hs
    (@Lowering.Visits.start st.state [.procedure heading body line]) (anyHeadings_has _)
    fun hinner _ _ => block_flows body hinner).of_run run
  rw [← hstate]
  exact ⟨haside.cursor, haside.functions⟩

/-- A procedure with an array of no elements inside, an unknown name and another procedure that
declares a parameter twice. -/
def faulty : Stmt :=
  .procedure ⟨"p", .builtin .integer, [], false⟩
    [.declare ⟨"a", .builtin .integer, false, some 0, 2⟩ 2,
      .procedure ⟨"q", .builtin .float,
          [⟨"x", .builtin .float, false, none, 3⟩, ⟨"x", .builtin .bool, false, none, 3⟩], true⟩
        [.assign (.whole "a" false 4) (.read (.whole "b" false 4) 4 none) 4] 3,
      .result (.literal (.integer 1) 5 none) 5] 1

theorem faulty_confined :
    ∃ r s', faulty.lower (Stage.start "m" "t").state = .ok (r, s') ∧ s'.errors.length = 4 ∧
      (Stage.start "m" "t").state.Confined s' ∧
      s'.builder.cursor = (Stage.start "m" "t").state.builder.cursor := by
  have hcount : ((faulty.lower (Stage.start "m" "t").state).toOption.map
      fun r => r.2.errors.length) = some 4 := by decide +kernel
  obtain ⟨r, s', run, hconfined, hprocedure⟩ := stmt_confined (.start (begin_run "m" "t")) faulty
  rw [run] at hcount
  exact ⟨r, s', run, Option.some.inj hcount, hconfined, (hprocedure _ _ _ rfl).1⟩

/-! ## Declarations -/

theorem Lowering.Stores.errors {s s' : Lowering} {decl : VariableDecl} {shape : ParamShape}
    (h : s.Stores decl shape s') : s'.errors = s.errors := by
  cases h <;> rfl

theorem Lowering.Reached.declares {s : Lowering} (h : s.Reached) {decl : VariableDecl}
    (hright : ¬ decl.Wrong s) :
    ∃ shape s', decl.mark = .builtin shape.ty ∧ shape.len = decl.bound.map Int.toNat ∧
      Lower.declareVariable decl s = .ok (some (), s') ∧ s.Stores decl shape s' := by
  simp only [VariableDecl.Wrong, not_or, not_not, Bool.not_eq_true] at hright
  obtain ⟨shape, hres⟩ := hright.1.resolves
  obtain ⟨st, rfl, hs⟩ := h.sound
  obtain ⟨s', run, hstores⟩ := Lower.declareVariable_stores hres hright.2 hs.placed
    hs.symbols.nonempty (h.fresh.uniqueName decl.name)
  obtain ⟨-, hty, hlen⟩ := VariableDecl.resolves_iff.mp hres
  exact ⟨shape, s', hty, hlen, run, hstores⟩

/-- **Declarations are all or nothing.** A variable is declared with its storage and one symbol,
unless its declaration is wrong; then one error is recorded. A wrong declaration of a procedure is
recorded too, and nothing of its body is lowered; one that is not wrong gets its function. -/
theorem declarations_all_or_nothing {s : Lowering} (h : s.Reached) :
    (∀ decl line, ∃ s',
      Stmt.lower (.declare decl line) s = .ok ((none, .declare decl line), s') ∧
        (s'.errors ≠ s.errors ↔ decl.Wrong s) ∧
        (decl.Wrong s → ∃ e, s' = s.recorded [e]) ∧
        (¬ decl.Wrong s → ∃ shape : ParamShape, decl.mark = .builtin shape.ty ∧
          shape.len = decl.bound.map Int.toNat ∧ s.Stores decl shape s')) ∧
    (∀ heading body line, heading.Wrong s → ∃ errors, errors ≠ [] ∧
      Stmt.lower (.procedure heading body line) s =
        .ok ((none, .procedure heading body line), s.recorded errors)) ∧
    (∀ heading line, ¬ heading.Wrong s → ∃ ret params, heading.Resolves ret params ∧
      Lower.openProcedure line heading s =
        .ok (some ⟨⟨s.builder.module.functions.length, 0⟩, ret, params⟩,
          Lower.declaredProcedure s heading ret params)) := by
  refine ⟨fun decl line => ?_, fun heading body line hwrong => ?_, fun heading line hright => ?_⟩
  · by_cases hwrong : decl.Wrong s
    · obtain ⟨e, run⟩ := Lower.declareVariable_wrong hwrong
      refine ⟨s.recorded [e], ?_, ?_, fun _ => ⟨e, rfl⟩, fun hright => absurd hwrong hright⟩
      · rw [Stmt.lower, run_bind run]
        rfl
      · simp [Lowering.recorded, hwrong]
    · obtain ⟨shape, s', hty, hlen, run, hstores⟩ := h.declares hwrong
      refine ⟨s', ?_, ?_, fun hw => absurd hw hwrong, fun _ => ⟨shape, hty, hlen, hstores⟩⟩
      · rw [Stmt.lower, run_bind run]
        rfl
      · simp [hstores.errors, hwrong]
  · obtain ⟨errors, hne, run⟩ := Lower.openProcedure_wrong line hwrong
    refine ⟨errors, hne, ?_⟩
    rw [Stmt.lower, run_bind run]
    rfl
  · obtain ⟨ret, params, hres, -, run⟩ := Lower.openProcedure_opened line hright
    exact ⟨ret, params, hres, run⟩

/-- At the start of a program an array can be declared, but not one without elements, and no
procedure can have the name of the program's function. -/
theorem first_declarations :
    (∃ s' shape, Stmt.lower (.declare ⟨"a", .builtin .float, false, some 3, 1⟩ 1)
        (Stage.start "m" "t").state =
          .ok ((none, .declare ⟨"a", .builtin .float, false, some 3, 1⟩ 1), s') ∧
      (Stage.start "m" "t").state.Stores ⟨"a", .builtin .float, false, some 3, 1⟩ shape s') ∧
    (∃ e, Stmt.lower (.declare ⟨"a", .builtin .float, false, some 0, 1⟩ 1)
        (Stage.start "m" "t").state =
          .ok ((none, .declare ⟨"a", .builtin .float, false, some 0, 1⟩ 1),
            (Stage.start "m" "t").state.recorded [e])) ∧
    (∃ errors, errors ≠ [] ∧ Stmt.lower (.procedure ⟨"main", .builtin .integer, [], false⟩ [] 1)
        (Stage.start "m" "t").state =
          .ok ((none, .procedure ⟨"main", .builtin .integer, [], false⟩ [] 1),
            (Stage.start "m" "t").state.recorded errors)) := by
  obtain ⟨hvariables, hprocedures, -⟩ := declarations_all_or_nothing (.start (begin_run "m" "t"))
  refine ⟨?_, ?_, hprocedures _ _ _ (Or.inr (Or.inr (by decide)))⟩
  · obtain ⟨s', run, -, -, hright⟩ := hvariables ⟨"a", .builtin .float, false, some 3, 1⟩ 1
    obtain ⟨shape, -, -, hstores⟩ := hright (by
      rintro (himproper | hdeclared)
      · exact himproper ⟨⟨_, rfl⟩, fun n hn => by cases hn; decide⟩
      · revert hdeclared
        decide)
    exact ⟨s', shape, run, hstores⟩
  · obtain ⟨s', run, -, hwrong, -⟩ := hvariables ⟨"a", .builtin .float, false, some 0, 1⟩ 1
    obtain ⟨e, rfl⟩ := hwrong (Or.inl fun hproper => absurd (hproper.2 0 rfl) (by decide))
    exact ⟨e, run⟩

end ProcLang
