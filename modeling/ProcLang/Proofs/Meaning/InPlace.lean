import ProcLang.Proofs.Meaning.Expr
import ProcLang.Proofs.Meaning.Storage
import ProcLang.Proofs.TypeRules

/-!
# Expressions in their place

What the code of an expression does where it stands: in the program or in a procedure, and however
deep inside other statements. Of the run so far nothing is assumed but that the variables which can
be used are stored where their symbols say (`Lowering.Holds`). Arrays that were passed may share
storage.

* `SymbolTable.env`: the variables that can be used;
* `lower_computes`: an expression without calls is lowered to code in one block, which gives its
  value and changes no storage.
-/

namespace ProcLang

open Ir Naming

/-! ## Variables that can be used -/

/-- The variable that a symbol stands for, unless it stands for a procedure. -/
def Symbol.asVariable? (isGlobal : Bool) (symbol : Symbol) : Option Variable :=
  match symbol.kind with
  | .variable => some ⟨isGlobal, symbol.name, symbol.ty, none⟩
  | .array len => some ⟨isGlobal, symbol.name, symbol.ty, some len⟩
  | .procedure _ => none

/-- The variables that can be used: those of the innermost scope, and global ones. -/
def SymbolTable.env (t : SymbolTable) : Env where
  locals := t.innermost.filterMap (·.asVariable? false)
  globals := t.globals.filterMap (·.asVariable? true)

theorem SymbolTable.mem_innermost {t : SymbolTable} {symbol : Symbol} :
    symbol ∈ t.innermost ↔ ∃ scope ∈ t.locals.head?, symbol ∈ scope.symbols := by
  unfold innermost
  cases t.locals.head? <;> simp

section Variables

variable {isGlobal : Bool} {symbol : Symbol} {symbols : Symbols} {v : Variable}

theorem asVariable?_eq_some (h : symbol.asVariable? isGlobal = some v) :
    Denotes v symbol ∧ v.isGlobal = isGlobal := by
  unfold Symbol.asVariable? at h
  split at h
  · rename_i hk
    cases h
    exact ⟨⟨rfl, rfl, hk⟩, rfl⟩
  · rename_i len hk
    cases h
    exact ⟨⟨rfl, rfl, hk⟩, rfl⟩
  · cases h

theorem exists_asVariable? (isGlobal : Bool) (h : symbol.isProcedure = false) :
    ∃ v, symbol.asVariable? isGlobal = some v := by
  unfold Symbol.isProcedure at h
  unfold Symbol.asVariable?
  cases hk : symbol.kind with
  | procedure params => simp [hk] at h
  | _ => exact ⟨_, rfl⟩

/-- Names that are found once among symbols are found among the variables. -/
theorem find?_variable (hd : (symbols.map Symbol.name).Nodup) (hmem : symbol ∈ symbols)
    (hv : symbol.asVariable? isGlobal = some v) :
    (symbols.filterMap (·.asVariable? isGlobal)).find? (·.name == symbol.name) = some v := by
  have hname : v.name = symbol.name := (asVariable?_eq_some hv).1.name.symm
  have hsome : ((symbols.filterMap (·.asVariable? isGlobal)).find?
      (·.name == symbol.name)).isSome = true := by
    rw [List.find?_isSome]
    exact ⟨v, List.mem_filterMap.mpr ⟨symbol, hmem, hv⟩, by simp [hname]⟩
  obtain ⟨u, hu⟩ := Option.isSome_iff_exists.mp hsome
  obtain ⟨symbol', hmem', hu'⟩ := List.mem_filterMap.mp (List.mem_of_find?_eq_some hu)
  have hname' : symbol'.name = symbol.name := by
    rw [(asVariable?_eq_some hu').1.name]
    simpa using List.find?_some hu
  cases List.inj_on_of_nodup_map hd hmem' hmem hname'
  rw [hu, ← hu', hv]

theorem find?_variable_none {name : String} (h : ∀ symbol ∈ symbols, symbol.name ≠ name) :
    (symbols.filterMap (·.asVariable? isGlobal)).find? (·.name == name) = none := by
  rw [List.find?_eq_none]
  intro v hv
  obtain ⟨symbol, hmem, hsymbol⟩ := List.mem_filterMap.mp hv
  rw [beq_iff_eq, ← (asVariable?_eq_some hsymbol).1.name]
  exact h symbol hmem

end Variables

/-- **What names stand for**: a variable that can be used is found under its name. -/
theorem env_names {s : Lowering} (h : s.symbols.Regular) : Names s.symbols.env s := by
  intro name symbol hr
  rcases (resolveVariable_iff h).mp hr with ⟨scope, outer, hscopes, hmem, rfl, hproc⟩ |
    ⟨hlacks, hmem, rfl, hproc⟩
  · obtain ⟨v, hv⟩ := exists_asVariable? false hproc
    obtain ⟨hd, hlocal⟩ := asVariable?_eq_some hv
    have hinner : s.symbols.innermost = scope.symbols := by
      rw [SymbolTable.innermost, show s.symbols.locals = scope :: outer from hscopes]
      rfl
    have hmem' : symbol ∈ s.symbols.innermost := hinner ▸ hmem
    refine ⟨v, ?_, ?_, hd, fun home hh => hh.locals symbol hmem' v hd hlocal⟩
    · exact List.mem_append_left _ (List.mem_filterMap.mpr ⟨symbol, hmem', hv⟩)
    · rw [Env.find?, SymbolTable.env, find?_variable h.innermost_distinct hmem' hv, Option.some_or]
  · obtain ⟨v, hv⟩ := exists_asVariable? true hproc
    obtain ⟨hd, hglobal⟩ := asVariable?_eq_some hv
    have hinner : ∀ t ∈ s.symbols.innermost, t.name ≠ symbol.name := by
      intro t ht
      obtain ⟨scope, hscope, ht⟩ := SymbolTable.mem_innermost.mp ht
      exact hlacks scope (List.mem_of_mem_head? hscope) t ht
    refine ⟨v, ?_, ?_, hd, fun home hh => hh.globals symbol hmem v hd hglobal⟩
    · exact List.mem_append_right _ (List.mem_filterMap.mpr ⟨symbol, hmem, hv⟩)
    · rw [Env.find?, SymbolTable.env, find?_variable_none hinner, Option.none_or,
        find?_variable h.global_distinct hmem hv]

section Still

variable {s s' : Lowering}

theorem Lowering.Still.env (h : s.Still s') : s'.symbols.env = s.symbols.env := by
  unfold SymbolTable.env SymbolTable.innermost
  rw [h.locals, h.globals]

theorem Lowering.Still.home (h : s.Still s') : s'.symbols.home = s.symbols.home := by
  funext v
  unfold SymbolTable.home SymbolTable.innermost
  rw [h.locals, h.globals]

end Still

/-! ## Runs -/

/-- In the run the variables that can be used hold some values of their types. Their symbols are
bound to the addresses of their storage. -/
structure Lowering.Holds {W : World} (s : Lowering) (base : Variable → Operand)
    (mem : Variable → Nat → W.Val) (act : Activation W) : Prop where
  bound : ∀ v ∈ s.symbols.env.vars, Value.eval s.builder.module act.regs ⟨.ptr, s.symbols.home v⟩ =
    some (.address (base v) v.cells 0)
  cells : ∀ v ∈ s.symbols.env.vars, ∀ k < v.cells, act.mem (base v) k = mem v k
  typed : ∀ v ∈ s.symbols.env.vars, ∀ k < v.cells, (mem v k).ty = v.ty

/-- Storage as the symbols of a state have it, for code in a module. -/
def Lowering.target {W : World} (s : Lowering) (module : Module) (base : Variable → Operand) :
    Target W :=
  ⟨module, s.symbols.env.vars, s.symbols.home, base⟩

/-- What an operand stands for stays so when the module grows. -/
theorem Ir.Module.GrowsTo.eval {m m' : Module} (h : m.GrowsTo m') {W : World}
    {regs : String → Option (Word W)} {v : Value} {word : Word W}
    (hv : v.eval m regs = some word) : v.eval m' regs = some word := by
  unfold Value.eval at hv ⊢
  cases hop : v.operand with
  | symbol name =>
    rw [hop] at hv
    dsimp only at hv ⊢
    cases hg : m.global? name with
    | none =>
      rw [hg] at hv
      cases hv
    | some g =>
      rw [hg] at hv
      rw [h.global? hg]
      exact hv
  | _ =>
    rw [hop] at hv
    exact hv

theorem Lowering.Holds.agrees {W : World} {s : Lowering} {base : Variable → Operand}
    {mem : Variable → Nat → W.Val} {act : Activation W} (h : s.Holds base mem act) {m : Module}
    (hm : s.builder.module.GrowsTo m) : (s.target m base).Agrees act ⟨mem, act.trace⟩ :=
  ⟨rfl, h.cells, h.typed, fun v hv => hm.eval (h.bound v hv)⟩

/-- Code that matches a part of the program comes to its end or faults, as that does. -/
theorem Target.Matches.ends {W : World} {T : Target W} {α : Type} {code : List Instr}
    {act : Activation W} {outcome : Except W.Stop (α × Store W)}
    {post : α → Store W → Activation W → Prop} (h : T.Matches code act outcome post) :
    (∃ a store act', outcome = .ok (a, store) ∧ execCode T.module code act = .ok ((), act') ∧
      post a store act') ∨
    ∃ trace, outcome = .error (.fault trace) ∧
      execCode T.module code act = .error (.fault trace) := by
  cases outcome with
  | ok r =>
    obtain ⟨act', hcode, hpost⟩ := h
    exact Or.inl ⟨r.1, r.2, act', rfl, hcode, hpost⟩
  | error stop =>
    cases stop with
    | fault trace => exact Or.inr ⟨trace, rfl, h⟩
    | timeout => exact h.elim
    | stuck => exact h.elim

theorem Ir.Function.mem_instrs_of_codeAt {f : Function} {n : Nat} {i : Instr}
    (h : i ∈ f.codeAt n) : i ∈ f.instrs := by
  unfold codeAt at h
  cases hb : f.blocks[n]? with
  | none =>
    rw [hb] at h
    cases h
  | some b =>
    rw [hb] at h
    exact mem_instrs_of_getElem? hb h

theorem Symbol.Located.ptr {env : Interface} {f : Function} {arrays : List Param} {symbol : Symbol}
    (h : symbol.Located env f arrays) (hproc : symbol.isProcedure = false) :
    symbol.binding.ty = .ptr := by
  unfold Symbol.Located at h
  unfold Symbol.isProcedure at hproc
  split at h
  · exact h.ptr
  · exact h.ptr
  · simp_all

namespace Stage

variable {D : Headings} {st : Stage}

/-- Variables that can be used are located in the function at the cursor. -/
theorem Sound.located_innermost (h : st.Sound D) {symbol : Symbol}
    (hsymbol : symbol ∈ st.state.symbols.innermost) : symbol.Located st.env st.fn st.arrays := by
  obtain ⟨scope, hscope, hmem⟩ := SymbolTable.mem_innermost.mp hsymbol
  exact h.symbols.locals scope hscope symbol hmem

theorem Sound.homes (h : st.Sound D) : Homes st.state.symbols.home st.state.symbols :=
  SymbolTable.homes h.symbols.regular (fun _ hsymbol => (h.located_innermost hsymbol).ptr)
    fun symbol hsymbol => ((h.symbols.globals symbol hsymbol).1 st.fn st.arrays).ptr

/-- The storage of a variable, as seen from the function at the cursor. -/
theorem Sound.stored (h : st.Sound D) {v : Variable} (hv : v ∈ st.state.symbols.env.vars) :
    Stored st.env st.fn st.arrays ⟨.ptr, st.state.symbols.home v⟩
      (Lower.storageType v.ty v.len) := by
  rcases List.mem_append.mp hv with hv | hv
  · obtain ⟨symbol, hsymbol, hv⟩ := List.mem_filterMap.mp hv
    obtain ⟨hd, hlocal⟩ := asVariable?_eq_some hv
    rw [← h.homes.locals symbol hsymbol v hd hlocal]
    exact hd.stored (h.located_innermost hsymbol)
  · obtain ⟨symbol, hsymbol, hv⟩ := List.mem_filterMap.mp hv
    obtain ⟨hd, hglobal⟩ := asVariable?_eq_some hv
    rw [← h.homes.globals symbol hsymbol v hd hglobal]
    exact hd.stored ((h.symbols.globals symbol hsymbol).1 _ _)

/-- **The address of a variable is not overwritten**: only the reservation of its storage writes the
register that it is in. -/
theorem Sound.spared (h : st.Sound D) {v : Variable} (hv : v ∈ st.state.symbols.env.vars)
    {i : Instr} (hi : i ∈ st.fn.instrs) (ha : i.isAlloca = false) {r : String}
    (hr : i.dest? = some r) : st.state.symbols.home v ≠ .register r := by
  intro hhome
  have hstored := h.stored hv
  rw [hhome] at hstored
  obtain ⟨-, halloca | hpassed⟩ := hstored
  · rw [h.code.dest_unique hi halloca hr rfl] at ha
    cases ha
  · exact h.code.args_not_mem_names (h.passed _ hpassed) (Function.dest_mem_names hi hr)

/-- So code that was put in the function overwrites no address. -/
theorem Sound.spares (h : st.Sound D) {s : Lowering} {w w' : Spot} {code : List Instr}
    (hputs : s.Puts w code st.state w') {W : World} (base : Variable → Operand) :
    (s.target (W := W) st.module base).Spares code := by
  intro i hi r hir v hv
  have hfn : st.fn = w'.fn := (h.placed.unique hputs.placed.placed).2.1
  have hmem : i ∈ st.fn.instrs := by
    rw [hfn]
    exact Function.mem_instrs_of_codeAt (hputs.spot.gained ▸ List.mem_append_right _ hi)
  have hvar : v ∈ st.state.symbols.env.vars := by
    rw [hputs.env]
    exact hv
  have hspared := h.spared hvar hmem (hputs.spot.plain i hi) hir
  rwa [hputs.home] at hspared

end Stage

/-! ## The value of an expression -/

/-- **Expressions are lowered to code that computes them.** Let an expression without calls and
comparisons of strings be lowered with a result at a state that is reached. The instructions that
are added are all in one block, in order. From every run in which the variables hold some values,
these instructions lead to the value of the expression and leave all storage as it is; if the
expression has no value because of a fault, they end with it too. -/
theorem lower_computes {s s' : Lowering} (h : s.Reached) {e e' : Expr} {v : Value} {ty : Ty}
    (hr : e.InRange) (run : e.lower s = .ok ((some (v, ty), e'), s')) (hd : e'.Direct) :
    ∃ w code w', s.In w ∧ s.Puts w code s' w' ∧
      ∀ {W : World} {base : Variable → Operand} {mem : Variable → Nat → W.Val} {act : Activation W},
        s.Holds base mem act →
        (∃ x store act', e.eval W s.symbols.env ⟨mem, act.trace⟩ = .ok (x, store) ∧ x.ty = ty ∧
          execCode s'.builder.module code act = .ok ((), act') ∧ act'.mem = act.mem ∧
          v.eval s'.builder.module act'.regs = some (.data x)) ∨
        ∃ trace, e.eval W s.symbols.env ⟨mem, act.trace⟩ = .error (.fault trace) ∧
          execCode s'.builder.module code act = .error (.fault trace) := by
  obtain ⟨st, rfl, hst⟩ := h.sound
  obtain ⟨st', rfl, hst', -⟩ := (Stage.expr_takes e hst).of_run run
  obtain ⟨b, hb⟩ := hst.exists_block
  have hin : st.state.In ⟨st.index, st.fn, st.block, b⟩ := ⟨hst.placed, hb⟩
  obtain ⟨code, w', hy, hsem⟩ :=
    expr_computes e hr hin ⟨env_names hst.symbols.regular, Or.inr hd⟩ run
  refine ⟨_, code, w', hin, hy.toPuts, fun {W base mem act} hholds => ?_⟩
  -- the symbols behind the expression are those in front of it
  have hhomes : Homes st.state.symbols.home st'.state.symbols := hy.home ▸ hst'.homes
  have hmatch := hsem (T := st.state.target st'.module base) ⟨.refl _, hhomes, List.Subset.refl _⟩
    (hst'.spares hy.toPuts base) (hholds.agrees hy.module)
  rcases hmatch.ends with ⟨x, store, act', heval, hcode, hgives⟩ | hfault
  · exact Or.inl ⟨x, store, act', heval, hgives.ty, hcode, hgives.kept, hgives.value⟩
  · exact Or.inr hfault

/-- The number plus the element of the array that the first element tells. -/
def picked : Expr :=
  .binary .add (.read (.whole "x" false 1) 1 none)
    (.read (.element "a" (.read (.element "a" (.literal (.integer 0) 1 none) false 1) 1 none)
      false 1) 1 none) 1 none

/-- A call of the procedure, for an array that starts with 2 and goes on with 7. -/
def scalingRun : Activation .latter where
  regs r :=
    if r = "x.0" then some (.address (.register "x") 1 0)
    else if r = "a.arg" then some (.address (.register "a") 3 0)
    else none
  mem base k :=
    if base = .register "x" then .float (.ofInt 1) else .integer (if k = 0 then 2 else 7)
  trace := []

/-- The state behind `return x` in the procedure. -/
def behindReturn : Option Lowering := do
  let (opened, s) ← (Lower.openProcedure 1 scaling (Stage.start "m" "t").state).toOption
  let (_, s) ← (Lower.enterProcedure scaling.name (← opened) s).toOption
  let (_, s) ← ((Stmt.result (.read (.whole "x" false 1) 1 none) 1).lower s).toOption
  some s

theorem behindReturn_reached {s : Lowering} (h : s ∈ behindReturn) : s.Reached := by
  simp only [behindReturn, Option.mem_def, Option.bind_eq_bind, Option.bind_eq_some_iff] at h
  obtain ⟨⟨_, s1⟩, hopen, opened, rfl, ⟨_, s2⟩, henter, ⟨_, s3⟩, hreturn, h⟩ := h
  cases h
  have entered : s2.Reached :=
    .procedure (.start (begin_run "m" "t")) rfl (eq_ok_of_mem_toOption hopen)
      (eq_ok_of_mem_toOption henter)
  exact entered.stmt (by trivial) (eq_ok_of_mem_toOption hreturn)

/-- Behind a `return` the expression is lowered in a block of its own. -/
theorem picked_computes : ∃ (s s' : Lowering) (v : Value) (e' : Expr),
    s.Reached ∧ picked.InRange ∧ picked.lower s = .ok ((some (v, .float), e'), s') ∧ e'.Direct ∧
    s.Holds (fun u => .register u.name) (fun u => scalingRun.mem (.register u.name)) scalingRun ∧
    ∃ w code w' act', s.In w ∧ w.block.isTerminated = true ∧ s.Puts w code s' w' ∧
      execCode s'.builder.module code scalingRun = .ok ((), act') ∧ act'.mem = scalingRun.mem ∧
      v.eval s'.builder.module act'.regs = some (.data (.float (.ofInt 7))) := by
  have evaluated : ∃ s ∈ behindReturn, ∃ r ∈ (picked.lower s).toOption, ∃ p ∈ r.1.1,
      p.2 = .float ∧ r.1.2.Direct ∧
      s.symbols.env.locals = [⟨false, "x", .float, none⟩, ⟨false, "a", .integer, some 3⟩] ∧
      s.symbols.env.globals = [] ∧
      s.symbols.env.locals.map s.symbols.home = [.register "x.0", .register "a.arg"] ∧
      ∃ t ∈ (Build.isTerminated s.builder).toOption, t.1 = true := by
    decide +kernel
  obtain ⟨s, hs, ⟨⟨_, e'⟩, s'⟩, hlower, ⟨v, _⟩, rfl, rfl, direct, hlocals, hglobals, hhomes,
    ⟨_, b⟩, hended, rfl⟩ := evaluated
  have reached := behindReturn_reached hs
  have run : picked.lower s = .ok ((some (v, .float), e'), s') := eq_ok_of_mem_toOption hlower
  have range : picked.InRange := ⟨trivial, by decide, by decide⟩
  have henv : s.symbols.env =
      ⟨[⟨false, "x", .float, none⟩, ⟨false, "a", .integer, some 3⟩], []⟩ := by
    rw [← hlocals, ← hglobals]
  have holds : s.Holds (fun u => .register u.name) (fun u => scalingRun.mem (.register u.name))
      scalingRun := by
    have hhomes : s.symbols.home ⟨false, "x", .float, none⟩ = .register "x.0" ∧
        s.symbols.home ⟨false, "a", .integer, some 3⟩ = .register "a.arg" := by
      simpa [hlocals] using hhomes
    constructor
    · rw [henv]
      rintro u (_ | ⟨_, _ | ⟨_, ⟨⟩⟩⟩)
      · rw [hhomes.1]
        rfl
      · rw [hhomes.2]
        rfl
    · exact fun _ _ _ _ => rfl
    · rw [henv]
      rintro u (_ | ⟨_, _ | ⟨_, ⟨⟩⟩⟩) k -
      · rfl
      · rfl
  obtain ⟨w, code, w', hin, hputs, hruns⟩ := lower_computes reached range run direct
  have hterminated : w.block.isTerminated = true := by
    have hrun := (Build.isTerminated_run hin.placed hin.block).symm.trans
      (eq_ok_of_mem_toOption hended)
    exact congrArg Prod.fst (Except.ok.inj hrun)
  have heval : ∀ store, picked.eval .latter
      ⟨[⟨false, "x", .float, none⟩, ⟨false, "a", .integer, some 3⟩], []⟩
      ⟨fun u => scalingRun.mem (.register u.name), store⟩ =
        .ok (.float (.ofInt 7), ⟨fun u => scalingRun.mem (.register u.name), store⟩) :=
    fun _ => rfl
  refine ⟨s, s', v, e', reached, range, run, direct, holds, w, code, w', ?_⟩
  rcases hruns holds with ⟨x, store, act', hx, -, hcode, hmem, hvalue⟩ | ⟨trace, hfault, -⟩
  · rw [henv, heval] at hx
    cases hx
    exact ⟨act', hin, hterminated, hputs, hcode, hmem, hvalue⟩
  · rw [henv, heval] at hfault
    cases hfault

end ProcLang
