import ProcLang.Proofs.ModuleNames
import ProcLang.Proofs.Names

/-!
# States that are reached

`Lowering.Reached` says that a program can be compiled in such a way that an expression is to be
lowered at the state: in the program itself or in a procedure, and however deep inside other
statements. The program may be wrong.

* `Lowering.Reached.sound`: the invariant of lowering holds at such a state;
* `Lowering.Reached.sourced`: every name in the module was chosen or handed out;
* `Lowering.Reached.fresh`: no unique name is taken before it is handed out;
* `compile_reached`: every text is compiled through such states.
-/

namespace ProcLang

open Ir Naming Relation

/-- The state is reached when programs are compiled that declare words as names. -/
inductive Lowering.Reached : Lowering → Prop
  /-- In front of the first item. -/
  | start {moduleName name : String} {s : Lowering} {findings : List Diagnostic} :
    (Lowering.new moduleName).begin name = .ok (s, findings) → Reached s
  /-- Between two items of the program. -/
  | next {s : Lowering} : Reached s → Reached s.clearFindings
  /-- Behind a statement. -/
  | stmt {s s' : Lowering} {stmt : Stmt} {r : Result × Stmt} : Reached s →
    stmt.DeclaresOnly (isWord · = true) → stmt.lower s = .ok (r, s') → Reached s'
  /-- Behind an expression, in front of another operand. -/
  | expr {s s' : Lowering} {e : Expr} {r : Result × Expr} : Reached s →
    e.lower s = .ok (r, s') → Reached s'
  /-- Behind some arguments of a call. -/
  | args {s s' : Lowering} {callee : String} {position : Nat} {params : List ParamShape}
    {args : List Expr} {r : List (Option Value) × List Expr} : Reached s →
    lowerArgs callee position params args s = .ok (r, s') → Reached s'
  /-- At the place of an assignment. -/
  | place {s s' : Lowering} {line : Nat} {dest : Place} {value value' : Expr}
    {opened : Symbol × Value} : Reached s →
    Lower.openAssign line dest value s = .ok ((some opened, value'), s') → Reached s'
  /-- In the first arm of a branch. -/
  | arm {s s' : Lowering} {cond : Expr} {alternative : Bool} {r : Expr × Ir.Cursor × Ir.Cursor} :
    Reached s → Lower.openBranch cond alternative s = .ok (r, s') → Reached s'
  /-- In the second arm of a branch. -/
  | alternative {s s1 s2 s3 s4 : Lowering} {cond cond' : Expr} {no merge : Ir.Cursor}
    {yes : List Stmt} {r : Result × List Stmt} {ended : Bool} : Reached s →
    Lower.openBranch cond true s = .ok ((cond', no, merge), s1) →
    BlockDeclaresOnly (isWord · = true) yes → lowerBlock none yes s1 = .ok (r, s2) →
    Lower.fallThrough merge s2 = .ok (ended, s3) →
    Lower.build (.moveTo no) s3 = .ok ((), s4) → Reached s4
  /-- At the condition of a loop. -/
  | rounds {s s' : Lowering} {line : Nat} {dest : Place} {value : Expr}
    {r : Place × Expr × Lower.LoopBlocks} : Reached s →
    Lower.openLoop line dest value s = .ok (r, s') → Reached s'
  /-- In the body of a loop. -/
  | body {s s1 s2 : Lowering} {line : Nat} {dest dest' : Place} {value value' cond cond' : Expr}
    {blocks : Lower.LoopBlocks} : Reached s →
    Lower.openLoop line dest value s = .ok ((dest', value', blocks), s1) →
    Lower.openRound cond blocks s1 = .ok (cond', s2) → Reached s2
  /-- In the body of a procedure. -/
  | procedure {s s1 s2 : Lowering} {line : Nat} {heading : Heading} {opened : Lower.Opened} :
    Reached s → isWord heading.name = true →
    Lower.openProcedure line heading s = .ok (some opened, s1) →
    Lower.enterProcedure heading.name opened s1 = .ok ((), s2) → Reached s2

/-! ## The invariant of lowering -/

namespace Stage

variable {D : Headings} {base st : Stage} {α : Type} {x : Lower α} {post : α → Stage → Prop}
  {a : α} {s : Lowering}

theorem Takes.of_run {way : Way D} (h : Takes way st x post) (run : x st.state = .ok (a, s)) :
    ∃ st', st'.state = s ∧ st'.Sound D ∧ way.rel st st' ∧ post a st' := by
  obtain ⟨a', st', run', hs, hrel, ha⟩ := h
  cases run.symm.trans run'
  exact ⟨st', rfl, hs, hrel, ha⟩

theorem Continues.of_run (h : Continues D base st x post) (run : x st.state = .ok (a, s)) :
    ∃ st', st'.state = s ∧ st'.Sound D ∧ base.Roams D st' ∧ post a st' := by
  obtain ⟨a', st', run', hs, hrel, ha⟩ := h
  cases run.symm.trans run'
  exact ⟨st', rfl, hs, hrel, ha⟩

/-- Where the body of a procedure starts. -/
theorem procedure_of_run (h : st.Sound anyHeadings) {line : Nat} {heading : Heading}
    {opened : Lower.Opened} {s1 s2 : Lowering}
    (run1 : Lower.openProcedure line heading st.state = .ok (some opened, s1))
    (run2 : Lower.enterProcedure heading.name opened s1 = .ok ((), s2)) :
    ∃ inner : Stage, inner.state = s2 ∧ inner.Sound anyHeadings ∧
      inner.path = st.path ++ heading.name ++ "." := by
  rcases openProcedure_runs h line heading with hnone | ⟨-, ret, params, -, hd, run⟩
  · obtain ⟨_, _, _, _, hr, -⟩ := hnone.of_run run1
    cases hr
  · cases run1.symm.trans run
    obtain ⟨inner, run', hs, hflows, -⟩ := enterProcedure_runs h hd trivial
    cases run2.symm.trans run'
    exact ⟨inner, rfl, hs, hflows.path.trans (enter_path h)⟩

end Stage

open Stage

/-- **The invariant of lowering holds** at every state that is reached. -/
theorem Lowering.Reached.sound {s : Lowering} (h : s.Reached) :
    ∃ st : Stage, st.state = s ∧ st.Sound anyHeadings := by
  induction h with
  | @start moduleName name s findings run =>
    rw [begin_run] at run
    cases run
    exact ⟨_, rfl, Stage.start_sound moduleName name trivial⟩
  | next _ ih =>
    obtain ⟨st, rfl, h⟩ := ih
    exact ⟨{ st with state := st.state.clearFindings }, rfl, h.placed, h.code, h.heading, h.passed,
      h.frame, h.ended, h.declarations, h.symbols⟩
  | stmt _ _ run ih =>
    obtain ⟨st, rfl, h⟩ := ih
    obtain ⟨st', rfl, h', -⟩ := (stmt_flows _ h).of_run run
    exact ⟨st', rfl, h'⟩
  | expr _ run ih =>
    obtain ⟨st, rfl, h⟩ := ih
    obtain ⟨st', rfl, h', -⟩ := (expr_takes _ h).of_run run
    exact ⟨st', rfl, h'⟩
  | args _ run ih =>
    obtain ⟨st, rfl, h⟩ := ih
    obtain ⟨st', rfl, h', -⟩ := (args_takes _ _ h _ _).of_run run
    exact ⟨st', rfl, h'⟩
  | place _ run ih =>
    obtain ⟨st, rfl, h⟩ := ih
    obtain ⟨st', rfl, h', -⟩ := (openAssign_takes h _ _ _).of_run run
    exact ⟨st', rfl, h'⟩
  | arm _ run ih =>
    obtain ⟨st, rfl, h⟩ := ih
    obtain ⟨base, -, -, hopen⟩ := openBranch_continues h _ _
    obtain ⟨st', rfl, h', -⟩ := hopen.of_run run
    exact ⟨st', rfl, h'⟩
  | alternative _ run1 _ run2 run3 run4 ih =>
    obtain ⟨st, rfl, h⟩ := ih
    obtain ⟨base, hbase, hf, hopen⟩ := openBranch_continues h _ _
    obtain ⟨st1, rfl, h1, hr1, n?, m, hsome, hblocks, hn, hm, hp1⟩ := hopen.of_run run1
    cases hblocks
    obtain ⟨n, rfl⟩ := Option.isSome_iff_exists.mp hsome
    obtain ⟨_, _, _, _, st3, run2', run3', h3, hr3, hg3, hended, hp3⟩ :=
      body_runs h1 hbase hr1 hm (fun hs _ _ => block_flows _ hs) .start
    cases run2.symm.trans run2'
    cases run3.symm.trans run3'
    obtain ⟨st4, rfl, h4, -⟩ :=
      (move_continues h3 hr3 hended ((hn n rfl).grows hg3) (m :: base.pending)
      (by rw [hp3, hp1]; grind)).of_run run4
    exact ⟨st4, rfl, h4⟩
  | rounds _ run ih =>
    obtain ⟨st, rfl, h⟩ := ih
    obtain ⟨base, -, -, hopen⟩ := openLoop_continues h _ _ _
    obtain ⟨st', rfl, h', -⟩ := hopen.of_run run
    exact ⟨st', rfl, h'⟩
  | body _ run1 run2 ih =>
    obtain ⟨st, rfl, h⟩ := ih
    obtain ⟨base, hbase, -, hopen⟩ := openLoop_continues h _ _ _
    obtain ⟨st1, rfl, h1, hr1, c, b, e, hblocks, -, hb, he, hp⟩ := hopen.of_run run1
    cases hblocks
    obtain ⟨st2, rfl, h2, -⟩ := (openRound_continues h1 hbase hr1 _ _ hb he hp).of_run run2
    exact ⟨st2, rfl, h2⟩
  | procedure _ _ run1 run2 ih =>
    obtain ⟨st, rfl, h⟩ := ih
    obtain ⟨inner, hinner, hs, -⟩ := procedure_of_run h run1 run2
    exact ⟨inner, hinner, hs⟩

/-! ## Unique names -/

namespace Ir

theorem Module.mem_names {m : Module} {name : String} : name ∈ m.names ↔
    name ∈ m.globals.map Global.name ∨ name ∈ m.declarations.map Declaration.name ∨
      name ∈ m.functions.map Function.name := by
  rw [names, List.mem_append, List.mem_append]

theorem Module.mem_names_of_hasSymbol {m : Module} {name : String} (h : m.hasSymbol name = true) :
    name ∈ m.names := by
  rw [hasSymbol, Bool.or_eq_true, Bool.or_eq_true, function?_isSome, declaration?_isSome,
    global?_isSome] at h
  exact mem_names.mpr (by tauto)

end Ir

/-- The names that the language and a text choose for the entries of a module. -/
inductive Chosen : String → Prop
  | main : Chosen Lower.mainName
  | routine {r : Routine} : r ∈ Routine.callable ++ [Routine.stringEquals] → Chosen r.name
  | global {name : String} : isWord name = true → Chosen name
  | procedure {name : String} (t : SymbolTable) : isWord name = true → Chosen (t.qualifiedName name)

theorem point_not_mem_routines :
    ∀ r ∈ Routine.callable ++ [Routine.stringEquals], '.' ∉ r.name.toList := by decide

/-- The name of a procedure ends in a word. -/
theorem qualifiedName_ne_numbered {t : SymbolTable} {name : String} (h : isWord name = true)
    (hint : String) (n : Nat) : t.qualifiedName name ≠ numbered hint n := by
  intro heq
  have lists := congrArg String.toList heq
  rw [SymbolTable.qualifiedName, String.toList_append, toList_numbered] at lists
  cases hscopes : t.locals.dropLast with
  | nil =>
    refine numbered_ne_of_point_not_mem (point_not_mem_of_isWord h) hint n ?_
    rw [← heq, SymbolTable.qualifiedName, hscopes]
    rfl
  | cons scope outer =>
    rw [hscopes, Stage.path_cons, String.toList_append, List.append_assoc] at lists
    have hword := (split_at_last_point (point_not_mem_of_isWord h) (point_not_mem_toString n)
      lists).2
    exact isWord_ne_toString h n (String.toList_inj.mp hword)

/-- **No name that is chosen ends in a point and a number.** -/
theorem Chosen.ne_numbered {name : String} (h : Chosen name) (hint : String) (n : Nat) :
    name ≠ numbered hint n := by
  cases h with
  | main => exact numbered_ne_of_point_not_mem (by decide) hint n
  | routine hr => exact numbered_ne_of_point_not_mem (point_not_mem_routines _ hr) hint n
  | global hword => exact numbered_ne_of_point_not_mem (point_not_mem_of_isWord hword) hint n
  | procedure t hword => exact qualifiedName_ne_numbered hword hint n

namespace Lowering

variable {s s' : Lowering}

/-- The names in the module that end in a point and a number were handed out before. -/
def Fresh (s : Lowering) : Prop :=
  ∀ hint n, numbered hint n ∈ s.module.names → n < s.symbols.nextUnique

/-- A unique name is not taken. -/
theorem Fresh.uniqueName (h : s.Fresh) (hint : String) :
    s.module.hasSymbol (s.symbols.uniqueName hint) = false := by
  by_contra htaken
  have := h _ _ (Module.mem_names_of_hasSymbol (Bool.eq_true_of_not_eq_false htaken))
  exact Nat.lt_irrefl _ this

/-- The names in the module were chosen, or they were handed out. -/
def Sourced (s : Lowering) : Prop :=
  ∀ name ∈ s.module.names, Chosen name ∨ Issued s.symbols.nextUnique name

theorem Sourced.fresh (h : s.Sourced) : s.Fresh := by
  intro hint n hmem
  rcases h _ hmem with hchosen | ⟨hint', k, hk, heq⟩
  · exact absurd rfl (hchosen.ne_numbered hint n)
  · rw [(numbered_inj heq).2]
    exact hk

/-! ### The counter -/

theorem Plain.counter {declared : String → Prop} (step : Plain declared s s') :
    s.symbols.nextUnique ≤ s'.symbols.nextUnique := by
  cases step with
  | tick | clash => exact Nat.le_succ _
  | rebind updated => exact Nat.le_of_eq (SymbolTable.update_nextUnique updated).symm
  | declare added => exact Nat.le_of_eq (SymbolTable.add_nextUnique added).symm
  | _ => exact Nat.le_refl _

/-- The counter of unique names is never set back. -/
theorem Step.counter {declared : String → Prop} (step : Step declared s s') :
    s.symbols.nextUnique ≤ s'.symbols.nextUnique := by
  cases step with
  | plain step => exact step.counter
  | _ => exact Nat.le_refl _

/-! ### Names that come to the module -/

/-- A function changes, but not its name. -/
theorem names_put_function {index block : Nat} {f f' : Function}
    (hf : s.module.functions[index]? = some f) (hname : f'.name = f.name) :
    (s.builder.put index f' block).module.names = s.module.names := by
  rw [Module.names, Module.names, ← names_put hf hname]
  rfl

theorem Plain.names (step : Plain (isWord · = true) s s') {x : String} (hx : x ∈ s'.module.names) :
    x ∈ s.module.names ∨ Chosen x ∨ Issued s.symbols.nextUnique x := by
  cases step with
  | warn | report | clash | tick | rebind | declare => exact Or.inl hx
  | @global g new name =>
    rcases Module.mem_names.mp hx with hx | hx
    · rcases mem_names_concat hx with hx | rfl
      · exact Or.inl (Module.mem_names.mpr (Or.inl hx))
      · exact Or.inr (name.symm.imp (fun hword => .global hword.1) id)
    · exact Or.inl (Module.mem_names.mpr (Or.inr hx))
  | @routine r known undefined new =>
    rcases Module.mem_names.mp hx with hx | hx | hx
    · exact Or.inl (Module.mem_names.mpr (Or.inl hx))
    · rcases mem_names_concat hx with hx | rfl
      · exact Or.inl (Module.mem_names.mpr (Or.inr (Or.inl hx)))
      · exact Or.inr (Or.inl (.routine known))
    · exact Or.inl (Module.mem_names.mpr (Or.inr (Or.inr hx)))
  | code cursor function gains =>
    exact Or.inl (names_put_function function gains.instrs.1 ▸ hx)

/-- **Names come to the module in two ways**: they are chosen, or they were handed out. -/
theorem Step.names (step : Step (isWord · = true) s s') {x : String} (hx : x ∈ s'.module.names) :
    x ∈ s.module.names ∨ Chosen x ∨ Issued s.symbols.nextUnique x := by
  cases step with
  | plain step => exact step.names hx
  | terminator cursor function gains =>
    exact Or.inl (names_put_function function gains.instrs.1 ▸ hx)
  | @append index block f hint cursor function =>
    have hname : (f.append hint).name = f.name := rfl
    exact Or.inl (names_put_function function hname ▸ hx)
  | move | scopes | refuse => exact Or.inl hx
  | @define name known new ret params =>
    rcases Module.mem_names.mp hx with hx | hx | hx
    · exact Or.inl (Module.mem_names.mpr (Or.inl hx))
    · exact Or.inl (Module.mem_names.mpr (Or.inr (Or.inl hx)))
    · rcases mem_names_concat hx with hx | rfl
      · exact Or.inl (Module.mem_names.mpr (Or.inr (Or.inr hx)))
      · exact Or.inr (Or.inl (.procedure s.symbols known))

/-- **Every step keeps the names sourced.** -/
theorem Sourced.step (h : s.Sourced) (step : Step (isWord · = true) s s') : s'.Sourced := by
  intro x hx
  rcases step.names hx with hold | hchosen | hissued
  · exact (h x hold).imp id (·.mono step.counter)
  · exact Or.inl hchosen
  · exact Or.inr (hissued.mono step.counter)

theorem Sourced.steps (h : s.Sourced) (steps : ReflTransGen (Step (isWord · = true)) s s') :
    s'.Sourced := by
  induction steps with
  | refl => exact h
  | tail _ step ih => exact ih.step step

/-- A run that takes steps only. -/
theorem Sourced.goes {α : Type} {x : Lower α} {a : α} {n : Nat} (h : s.Sourced)
    (hx : Walks (Step (isWord · = true)) n s x) (run : x s = .ok (a, s')) : s'.Sourced :=
  h.steps (hx.goes a s' run)

end Lowering

/-- **The names in the module are sourced** at a state that is reached. -/
theorem Lowering.Reached.sourced {s : Lowering} (h : s.Reached) : s.Sourced := by
  induction h with
  | @start moduleName name s findings run =>
    rw [begin_run] at run
    cases run
    intro x hmem
    have hmain : x = Lower.mainName := by
      simpa [Stage.start, Module.names, Function.new] using hmem
    rw [hmain]
    exact Or.inl .main
  | next _ ih => exact ih
  | stmt _ hdeclared run ih => exact ih.goes (stmt_walks hdeclared _) run
  | expr _ run ih => exact ih.goes (expr_walks _ _).toStep run
  | args _ run ih => exact ih.goes (args_walks _ _ _ _ _).toStep run
  | place _ run ih => exact ih.goes (openAssign_walks _ _ _ _).toStep run
  | arm _ run ih => exact ih.goes (openBranch_walks _ _ _) run
  | alternative _ run1 hdeclared run2 run3 run4 ih =>
    have h2 := (ih.goes (openBranch_walks _ _ _) run1).goes (block_walks hdeclared none _) run2
    exact (h2.goes (fallThrough_walks _) run3).goes (moveTo_walks _) run4
  | rounds _ run ih => exact ih.goes (openLoop_walks _ _ _ _) run
  | body _ run1 run2 ih =>
    exact (ih.goes (openLoop_walks _ _ _ _) run1).goes (openRound_walks _ _ _) run2
  | procedure _ hword run1 run2 ih =>
    exact (ih.goes (openProcedure_walks _ hword) run1).goes (enterProcedure_walks _ _) run2

/-- **No unique name is taken** at a state that is reached. -/
theorem Lowering.Reached.fresh {s : Lowering} (h : s.Reached) : s.Fresh :=
  h.sourced.fresh

/-! ## Compiling -/

/-- **A text is compiled through states that are reached**: so are those between its items, up to
the end of the program. A text without a heading has an empty module. -/
theorem compile_reached {source : String} {options : Options} {c : Compilation}
    (compiled : compile source options = .ok c) :
    (∃ name, c.module = { name }) ∨
      ∃ s s', s.Reached ∧ Lower.finish s = .ok (c.module, s') := by
  have item : ∀ {s s' : Lowering} {findings : List Diagnostic}, ∀ stmt ∈ sourceItems source options,
      s.Reached → s.item stmt = .ok (s', findings) → s'.Reached := by
    intro s s' findings stmt hmem h run
    obtain ⟨lowered, s1, hlower, rfl, -⟩ := item_inv run
    exact .next (.stmt h (sourceItems_declare_words source options stmt hmem) hlower)
  rcases compile_between compiled (I := fun s _ => s.Reached)
    (fun moduleName name _ => .start (begin_run moduleName name)) (fun _ h => h) item with
    hempty | ⟨st, s', -, h, run⟩
  · exact Or.inl hempty
  · exact Or.inr ⟨st.state, s', h, run⟩

end ProcLang
