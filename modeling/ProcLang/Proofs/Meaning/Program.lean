import ProcLang.Proofs.Meaning.Reading
import ProcLang.Proofs.Meaning.Stmt
import ProcLang.Proofs.Meaning.Storage

/-!
# Compiled programs do what the programs do

* `compile_preserves_meaning`: if a program without procedures is compiled without errors, the
  function for it comes to its end or to a fault exactly if the program does, with the same calls of
  the library and the same contents of all variables.

Running the program is compared with running the function in both directions. From the program to
the function, the code of the items is followed one by one. Back again, a run of the function that
halts after `n` steps leaves the program no time for more than `n` rounds of a loop, so the program
halts too if so many rounds are allowed; and two runs of the function end in the same way.
-/

namespace ProcLang

open Ir Naming

/-! ## Runs that have halted -/

/-- The run does not go on. -/
def Ir.State.Halted {W : World} : State W → Prop
  | running _ _ => False
  | _ => True

namespace Ir.State

variable {W : World} {m : Module} {f : Function} {state d d' : State W} {k k' : Nat}

theorem Halted.run (hd : d.Halted) (n : Nat) : State.run m f n d = d := by
  cases d with
  | running code act => cases hd
  | finished act => exact run_finished n
  | stopped stop => exact run_stopped n stop

theorem Halted.stays (hd : d.Halted) (h : State.run m f k state = d) (hle : k ≤ k') :
    State.run m f k' state = d := by
  obtain ⟨j, rfl⟩ := Nat.exists_eq_add_of_le hle
  rw [run_add, h, hd.run]

/-- **A run halts in one way only.** -/
theorem Halted.unique (hd : d.Halted) (hd' : d'.Halted) (h : State.run m f k state = d)
    (h' : State.run m f k' state = d') : d = d' :=
  (hd.stays h (Nat.le_max_left k k')).symm.trans (hd'.stays h' (Nat.le_max_right k k'))

end Ir.State

/-- What a run that halts says about the program, given that it does what the program does whatever
number of rounds is allowed. -/
theorem Final.Reaches.halts {W : World} {E : Final W} {α : Type} {state d : State W} {k : Nat}
    {outcome : Nat → Except W.Stop (α × Store W)} {post : α → Store W → State W → Prop}
    (h : ∀ n, E.Reaches n state (outcome n) post)
    (hpost : ∀ a store state, post a store state → state.Halted)
    (hrun : State.run E.module E.fn k state = d) (hd : d.Halted) :
    (∃ n a store, outcome n = .ok (a, store) ∧ post a store d) ∨
      ∃ n trace, outcome n = .error (.fault trace) ∧ d = .stopped (.fault trace) := by
  -- with more rounds than the run has steps, the program is not cut short
  have hreach := h (k + 1)
  cases houtcome : outcome (k + 1) with
  | ok r =>
    obtain ⟨a, store⟩ := r
    rw [houtcome] at hreach
    obtain ⟨j, hj⟩ := hreach
    refine Or.inl ⟨k + 1, a, store, houtcome, ?_⟩
    rw [hd.unique (hpost _ _ _ hj) hrun rfl]
    exact hj
  | error stop =>
    rw [houtcome] at hreach
    cases stop with
    | fault trace =>
      obtain ⟨j, hj⟩ := hreach
      exact Or.inr ⟨k + 1, trace, houtcome, hd.unique trivial hrun hj⟩
    | timeout =>
      obtain ⟨j, hle, code, act, hj⟩ := hreach
      rw [hd.stays hrun (by omega)] at hj
      subst hj
      cases hd
    | stuck => exact hreach.elim

/-! ## Item by item -/

theorem blockProcedureFree_iff {stmts : List Stmt} :
    BlockProcedureFree stmts ↔ ∀ stmt ∈ stmts, stmt.ProcedureFree := by
  induction stmts with
  | nil => simp [BlockProcedureFree]
  | cons stmt stmts ih => simp [BlockProcedureFree, ih]

theorem blockDeclares_concat (stmt : Stmt) : ∀ (env : Env) (stmts : List Stmt),
    blockDeclares env (stmts ++ [stmt]) = stmt.declares (blockDeclares env stmts)
  | env, [] => by simp [blockDeclares]
  | env, first :: stmts => by
    rw [List.cons_append, blockDeclares, blockDeclares, blockDeclares_concat]

theorem execBlock_concat (W : World) (fuel : Nat) (stmt : Stmt) : ∀ (env : Env) (stmts : List Stmt),
    execBlock W fuel env (stmts ++ [stmt]) =
      (do execBlock W fuel env stmts; stmt.exec W fuel (blockDeclares env stmts))
  | env, [] => by
    rw [List.nil_append, execBlock, execBlock, execBlock, pure_bind]
    exact bind_pure_unit
  | env, first :: stmts => by
    rw [List.cons_append, execBlock, execBlock, blockDeclares, execBlock_concat, bind_assoc]

/-- Findings that are set aside make no difference. -/
theorem Simulates.clearFindings {env env' : Env} {s s' : Lowering} {w : Spot}
    {exec : (W : World) → Nat → Exec W Unit} (h : Simulates env s w env' s' exec) :
    Simulates env s w env' s'.clearFindings exec := by
  obtain ⟨w', hs', hleads, hdoes⟩ := h
  have hstill : s'.Still s'.clearFindings := ⟨.refl _, rfl, rfl, rfl⟩
  refine ⟨w', ⟨⟨hs'.placed, hs'.block⟩, hs'.isOpen⟩,
    hleads.trans (hstill.leads hleads.scene (Spot.Adds.refl w').roams), ?_⟩
  intro W E hg hknows n
  exact hdoes hg (hknows.anti hstill) n

/-- The place in front of the first item. -/
def Spot.start : Spot :=
  ⟨0, .new Lower.mainName .i32 [], 0, ⟨"entry", []⟩⟩

section Start

variable (moduleName name : String)

theorem start_at : (Stage.start moduleName name).state.At .start :=
  ⟨⟨⟨rfl, rfl, Nat.zero_lt_one⟩, rfl⟩, rfl⟩

theorem start_scene : Scene {} (Stage.start moduleName name).state where
  locals := ⟨name, [], rfl, .nil⟩
  globals := ⟨[], (List.append_nil _).symm, .nil⟩
  isLocal := by simp
  isGlobal := by simp
  regular := Routine.symbols_regular.push name
  functions := rfl
  frames := rfl

theorem start_apart : Apart (Stage.start moduleName name).state .start where
  locals scope hscope := by
    cases List.mem_singleton.mp hscope
    exact ⟨List.nodup_nil, by simp⟩
  globals := ⟨[], (List.append_nil _).symm, List.nodup_nil, by simp⟩

/-- **Between two items** the code so far does what the items so far do. -/
theorem simulates_invariant {items : List Stmt} (hfree : ∀ stmt ∈ items, stmt.ProcedureFree)
    (hrange : ∀ stmt ∈ items, stmt.InRange) :
    ItemInvariant items fun done _ s found => ∃ st : Stage, st.state = s ∧
      Underway anyHeadings st found ∧
      (Clean found → Simulates {} (Stage.start moduleName name).state .start
        (blockDeclares {} done) s fun W n => execBlock W n {} done) where
  text := by
    rintro done errors s found more ⟨st, rfl, h, hsim⟩
    exact ⟨st, rfl, h.weaken _, fun hclean => hsim (clean_append.mp hclean).1⟩
  item := by
    rintro done errors s found stmt hnext ⟨st, rfl, h, hsim⟩
    have hmem : stmt ∈ items := hnext.subset (by simp)
    obtain ⟨st', findings, run, h'⟩ := h.lowers stmt
    refine ⟨st'.state, findings, run, st', rfl, h', fun hclean => ?_⟩
    obtain ⟨hfound, hfindings⟩ := clean_append.mp hclean
    obtain ⟨r, after, hlower, hafter, rfl⟩ := item_inv run
    have herrors : after.errors = st.state.errors := by
      rw [errors_of_clean hfindings, h.clear]
    rw [hafter, blockDeclares_concat]
    simp only [execBlock_concat]
    refine ((hsim hfound).seq ?_).clearFindings
    intro w hs hscene
    exact stmt_simulates stmt (hfree stmt hmem) (hrange stmt hmem) hs hscene hlower herrors

end Start

/-! ## Whole runs -/

/-- The cells of storage hold what the variables hold. -/
def Mirrors {W : World} (home : Variable → Operand) (vars : List Variable)
    (mem : Operand → Nat → W.Val) (contents : Variable → Nat → W.Val) : Prop :=
  ∀ v ∈ vars, ∀ k < v.cells, mem (home v) k = contents v k

/-- The function does what the program does, from given contents on. -/
structure SameRuns (W : World) (m : Module) (f : Function) (home : Variable → Operand)
    (program : Program) (start : Variable → Nat → W.Val) (mem : Operand → Nat → W.Val) : Prop where
  /-- If the program comes to its end, so does the function. -/
  finishes : ∀ contents trace, program.Finishes W start contents trace →
    ∃ mem', f.Finishes W m mem mem' trace ∧ Mirrors home program.vars mem' contents
  /-- If the function comes to its end, so does the program. -/
  finished : ∀ mem' trace, f.Finishes W m mem mem' trace →
    ∃ contents, program.Finishes W start contents trace ∧ Mirrors home program.vars mem' contents
  faults : ∀ trace, program.Faults W start trace ↔ f.Faults W m mem trace
  /-- Only a fault stops the program or the function, apart from a limit of rounds. -/
  stops : (∀ fuel, program.exec W fuel ⟨start, []⟩ ≠ .error .stuck) ∧
    ∀ n stop, State.run m f n (.start f mem) = .stopped stop → ∃ trace, stop = .fault trace

namespace Final

variable {W : World} {E : Final W}

/-- The run has come to the end of the function, in agreement with the run of the program. -/
def Ends (E : Final W) (store : Store W) (state : State W) : Prop :=
  ∃ act, state = .finished act ∧ E.Agrees act store

theorem Ends.halted {store : Store W} {state : State W} (h : E.Ends store state) :
    state.Halted := by
  obtain ⟨act, rfl, -⟩ := h
  trivial

/-- **The end of the function**, behind all parts of the program. -/
theorem Does.finish {n : Nat} {w w1 w2 : Spot} {x : Exec W Unit} {v : Value} (hx : E.Does n w w1 x)
    (h : w1.Adds [.ret v] w2) (hw : E.Has w2) {store : Store W} {state : State W}
    (hstands : E.Stands w store state) : E.Reaches n state (x store) fun _ => E.Ends := by
  have hend : ∀ (a : Unit) store' state', E.Stands w1 store' state' →
      E.Reaches n state' ((pure a : Exec W Unit) store') fun _ => E.Ends := by
    rintro a store' _ ⟨act, rfl, hagree⟩
    refine ⟨1, act, ?_, hagree⟩
    rw [rest_adds h hw]
    rfl
  have hseq := (hx store state hstands).bind hend
  rwa [bind_pure] at hseq

/-- **Runs that reach what the program does** are the same. -/
theorem sameRuns {program : Program} (hvars : E.vars = program.vars)
    {start : Variable → Nat → W.Val} {mem : Operand → Nat → W.Val}
    (h : ∀ n, E.Reaches n (.start E.fn mem) (program.exec W n ⟨start, []⟩) fun _ => E.Ends) :
    SameRuns W E.module E.fn E.base program start mem := by
  have halts : ∀ {k : Nat} {d : State W}, State.run E.module E.fn k (.start E.fn mem) = d →
      d.Halted → (∃ n a store, program.exec W n ⟨start, []⟩ = .ok (a, store) ∧ E.Ends store d) ∨
        ∃ n trace, program.exec W n ⟨start, []⟩ = .error (.fault trace) ∧
          d = .stopped (.fault trace) :=
    fun hrun hd => Reaches.halts h (fun _ _ _ => Ends.halted) hrun hd
  refine ⟨?_, ?_, fun trace => ⟨?_, ?_⟩, ?_, ?_⟩
  · rintro contents trace ⟨fuel, hexec⟩
    have hreach := h fuel
    rw [hexec] at hreach
    obtain ⟨k, ⟨regs, mem', trace'⟩, hrun, hagree⟩ := hreach
    cases hagree.trace
    exact ⟨mem', ⟨k, regs, hrun⟩, hvars ▸ hagree.cells⟩
  · rintro mem' trace ⟨k, regs, hrun⟩
    rcases halts hrun trivial with ⟨n, a, ⟨contents, trace'⟩, hexec, act, hact, hagree⟩ |
      ⟨n, trace', -, hstopped⟩
    · cases hact
      cases hagree.trace
      exact ⟨contents, ⟨n, hexec⟩, hvars ▸ hagree.cells⟩
    · cases hstopped
  · rintro ⟨fuel, hexec⟩
    have hreach := h fuel
    rw [hexec] at hreach
    exact hreach
  · rintro ⟨k, hrun⟩
    rcases halts hrun trivial with ⟨n, a, store, -, act, hact, -⟩ | ⟨n, trace', hexec, hstopped⟩
    · cases hact
    · cases hstopped
      exact ⟨n, hexec⟩
  · intro fuel hexec
    have hreach := h fuel
    rw [hexec] at hreach
    exact hreach
  · intro k stop hrun
    rcases halts hrun trivial with ⟨n, a, store, -, act, hact, -⟩ | ⟨n, trace, -, hstopped⟩
    · cases hact
    · cases hstopped
      exact ⟨trace, rfl⟩

end Final

/-- Every variable has storage of its own in the module. Whatever it holds at first, the function
does what the program does. -/
def Program.KeptBy (program : Program) (m : Module) (f : Function) : Prop :=
  ∃ home, Houses m f program.vars home ∧
    ∀ (W : World) (start : Variable → Nat → W.Val) (mem : Operand → Nat → W.Val),
      (∀ v ∈ program.vars, ∀ k < v.cells, (start v k).ty = v.ty) →
      Mirrors home program.vars mem start → SameRuns W m f home program start mem

/-- **The function that all items were lowered to** does what the program does, once it returns at
its end. -/
theorem returns_kept {program : Program} {s0 s s' : Lowering} {w w' : Spot} {v : Value}
    {env : Interface} {avail : Nat → String → Prop} (hapart : Apart s0 .start)
    (hleads : Leads {} s0 .start (blockDeclares {} program.items) s w)
    (hdoes : ∀ {W : World} {E : Final W}, w.fn.GrowsTo E.fn →
      E.Knows (blockDeclares {} program.items) s → ∀ n, E.Does n .start w (program.exec W n))
    (hstill : s.Still s') (hs' : s'.In w') (hret : w.Adds [.ret v] w')
    (hcode : w'.fn.Sound env [] avail) (hsymbols : s'.symbols.Sound s'.builder.module w'.fn []) :
    program.KeptBy s'.builder.module w'.fn := by
  have hscene := hstill.scene hleads.scene
  have hapart' := hstill.apart hret.fn (hleads.apart hapart)
  have hhouses := hscene.houses hapart' hsymbols
  refine ⟨s'.symbols.home, hhouses, fun W start mem hty hmem => ?_⟩
  obtain ⟨k, hstands⟩ := hhouses.start (w := .start) hcode rfl rfl hty hmem
  have hknows : (hhouses.final hcode W).Knows (blockDeclares {} program.items) s' :=
    ⟨.refl _, hscene.homes hapart', List.Subset.refl _⟩
  refine Final.sameRuns (E := hhouses.final hcode W) rfl fun n => ?_
  have hdone := (hdoes hret.fn (hknows.anti hstill) n).finish hret ⟨hs'.block, .refl _⟩ hstands
  exact (hdone.after k).weaken (Nat.le_add_right n k) fun _ _ _ hends => hends

/-- The function that the cursor is in is that of the program. -/
theorem Scene.main {env : Env} {s : Lowering} {w : Spot} (h : Scene env s) (hs : s.In w) :
    s.builder.module.function? Lower.mainName = some w.fn := by
  obtain ⟨f, hfunctions, hname⟩ := List.map_eq_singleton_iff.mp h.functions
  have hmem := List.mem_of_getElem? hs.placed.function
  rw [hfunctions, List.mem_singleton] at hmem
  rw [Module.function?, hfunctions, hmem,
    List.find?_cons_of_pos (by rw [hname]; exact beq_self_eq_true _)]

/-- **Finishing a program** whose items were lowered without errors. -/
theorem Underway.finish_kept {D : Headings} {st : Stage} {found : List Diagnostic}
    (h : Underway D st found) {program : Program} {moduleName name : String}
    (hsim : Simulates {} (Stage.start moduleName name).state .start
      (blockDeclares {} program.items) st.state fun W n => program.exec W n) :
    ∃ m s f, Lower.finish st.state = .ok (m, s) ∧ m.function? Lower.mainName = some f ∧
      program.KeptBy m f := by
  obtain ⟨w, hs, hleads, hdoes⟩ := hsim
  obtain ⟨hindex, hfn, hblock⟩ := h.sound.placed.unique hs.placed
  have hopen : st.Open := ⟨w.block, by rw [hfn, hblock]; exact hs.block, hs.isOpen⟩
  have harrays : st.arrays = [] := by
    refine List.eq_nil_iff_forall_not_mem.mpr fun a ha => ?_
    have hparam := h.sound.passed a ha
    rw [h.params] at hparam
    cases hparam
  obtain ⟨st', s, hfinish, hsound, -, -, -, hpush⟩ := h.finish_run
  obtain rfl := hpush hopen
  obtain ⟨hstill, hs', hret⟩ :=
    push_in (f := w.fn) (i := .ret (.int 0)) hs rfl rfl (Nat.le_refl _) rfl
  have hfn' : (st.push (.ret (.int 0))).fn =
      w.fn.modifyBlock w.number (·.push (.ret (.int 0))) := by
    simp only [Stage.push, Stage.put, hfn, hblock]
  have hstate : (st.push (.ret (.int 0))).state =
      st.state.put w (w.fn.modifyBlock w.number (·.push (.ret (.int 0)))) w.number := by
    simp only [Stage.push, Stage.put, Lowering.put, hindex, hfn, hblock]
  rw [← hstate] at hstill hs'
  have hcode := hsound.code
  have hsymbols := hsound.symbols
  rw [hfn', show (st.push (.ret (.int 0))).arrays = [] from harrays] at hcode hsymbols
  have hkept := returns_kept (start_apart moduleName name) hleads hdoes hstill hs' hret hcode
    hsymbols
  exact ⟨_, s, _, hfinish, (hstill.scene hleads.scene).main hs', hkept⟩

/-- **Compiling keeps the meaning of programs**: let a program without procedures be compiled
without errors. Then every variable has storage of its own in the module. Whatever the variables
hold at first and whatever the routines of the library answer, the function for the program comes to
its end if and only if the program does, with the same calls and the same contents of all variables,
and both end with a fault after the same calls or not at all. -/
theorem compile_preserves_meaning {source : String} {options : Options} {program : Program}
    {errors : List SyntaxError} {c : Compilation}
    (parsed : Program.parse options.tabWidth source = .ok ⟨some program, errors⟩)
    (compiled : compile source options = .ok c) (clean : c.hasErrors = false)
    (free : program.ProcedureFree) :
    ∃ f home, c.module.function? Lower.mainName = some f ∧
      Houses c.module f program.vars home ∧
      ∀ (W : World) (start : Variable → Nat → W.Val) (mem : Operand → Nat → W.Val),
        (∀ v ∈ program.vars, ∀ k < v.cells, (start v k).ty = v.ty) →
        Mirrors home program.vars mem start → SameRuns W c.module f home program start mem := by
  have hitems := parse_items parsed
  obtain ⟨name, hname, -⟩ := program_value (parse_value parsed)
  obtain ⟨last, hbody⟩ := compile_body compiled hname
  have hreadings := (sourceItems_eq hname).symm.trans hitems
  have inv := simulates_invariant (options.moduleName.getD name) name
    (blockProcedureFree_iff.mp free) (parse_inRange parsed)
  obtain ⟨progress, ⟨st, hst, hunderway, hsim⟩, run⟩ := compileBody_run inv
    (sourceHeader source options).after name (options.moduleName.getD name)
    (hreadings ▸ List.prefix_rfl)
    ⟨_, rfl, Stage.start_underway trivial _ name _, fun _ =>
      simulates_nil (start_at _ name) (start_scene _ name)⟩
  rw [hreadings, ← hst] at hsim
  rw [← hst] at run
  obtain ⟨m, s, hfinish, -⟩ := hunderway.finish
  cases hbody.symm.trans (run m s hfinish)
  obtain ⟨m', s', f, hfinish', hmain, home, hkept⟩ := hunderway.finish_kept (hsim clean)
  cases hfinish.symm.trans hfinish'
  exact ⟨f, home, hmain, hkept⟩

/-- The text of a program that fills an array and puts out an element of it. -/
def fillText : String :=
  "program fill is integer a[2]; integer i; begin " ++
    "for (i := 0; i < 2) a[i] := i; i := i + 1; end for; putfloat(a[1]); end program."

/-- A program that fills an array and puts out an element of it, as a float. -/
def fill : Program where
  name := "fill"
  declarations :=
    [.declare ⟨"a", .builtin .integer, false, some 2, 1⟩ 1,
      .declare ⟨"i", .builtin .integer, false, none, 1⟩ 1]
  statements :=
    [.loop (.whole "i" false 1) (.literal (.integer 0) 1 none)
      (.binary .less (.read (.whole "i" false 1) 1 none) (.literal (.integer 2) 1 none) 1 none)
      [.assign (.element "a" (.read (.whole "i" false 1) 1 none) false 1)
          (.read (.whole "i" false 1) 1 none) 1,
        .assign (.whole "i" false 1)
          (.binary .add (.read (.whole "i" false 1) 1 none) (.literal (.integer 1) 1 none) 1 none)
          1] 1,
      .call (.call "putfloat" [.read (.element "a" (.literal (.integer 1) 1 none) false 1) 1 none]
        1 none) 1]

/-- The function for the program comes to its end. The array is filled, and its last element was put
out, which has become a float. -/
theorem compile_fill_finishes :
    ∃ c f home mem, Program.parse 4 fillText = .ok ⟨some fill, []⟩ ∧
      compile fillText {} = .ok c ∧ c.hasErrors = false ∧ fill.ProcedureFree ∧
      c.module.function? "main" = some f ∧ Houses c.module f fill.vars home ∧
      f.Finishes .latter c.module (fun _ _ => .integer 0) mem
        [⟨"putfloat", [.float (.ofInt 1)]⟩] ∧
      mem (home ⟨false, "a", .integer, some 2⟩) 1 = .integer 1 ∧
      mem (home ⟨false, "i", .integer, none⟩) 0 = .integer 2 := by
  have parsed : Program.parse 4 fillText = .ok ⟨some fill, []⟩ := by
    set_option maxRecDepth 2000 in with_unfolding_all rfl
  have evaluated : (compile fillText {}).toOption.any (fun c => !c.hasErrors) = true := by
    decide +kernel
  have free : fill.ProcedureFree :=
    ⟨trivial, trivial, ⟨trivial, trivial, trivial⟩, trivial, trivial⟩
  cases compiled : compile fillText {} with
  | error fault =>
    rw [compiled] at evaluated
    cases evaluated
  | ok c =>
    rw [compiled] at evaluated
    have clean : c.hasErrors = false := (Bool.not_eq_true' _).mp evaluated
    obtain ⟨f, home, hmain, hhouses, hsame⟩ :=
      compile_preserves_meaning parsed compiled clean free
    have hvars : fill.vars =
        [⟨false, "a", .integer, some 2⟩, ⟨false, "i", .integer, none⟩] := rfl
    have hruns := hsame .latter (fun _ _ => .integer 0) (fun _ _ => .integer 0)
      (by rw [hvars]; simp [Val.ty]) fun _ _ _ _ => rfl
    obtain ⟨mem, hfinishes, hmirrors⟩ :=
      hruns.finishes _ [⟨"putfloat", [.float (.ofInt 1)]⟩] ⟨3, rfl⟩
    exact ⟨c, f, home, mem, parsed, rfl, clean, free, hmain, hhouses, hfinishes,
      hmirrors _ (by simp [hvars]) 1 (by decide), hmirrors _ (by simp [hvars]) 0 (by decide)⟩

end ProcLang
