import ProcLang.Proofs.Compiled
import ProcLang.Proofs.Steps.Stmt

/-!
# Names at the level of the module

Global data, declared routines and functions share one space of names. What is added is checked
against the names that are there, but not always against all of them: a routine is declared without
a look at the global data. For the routines that programs can call this does no harm, because they
are symbols of the global scope and no variable can take their names. The routine that compares
strings is no symbol, and its name can be taken.

* `Lowering.Named`: what holds of the names at every step;
* `compile_names_nodup_iff`: names are distinct, unless a global variable has the name of the
  routine that compares strings and the routine is used;
* `compile_comparison_external_iff`: a comparison of strings calls that routine, unless a procedure
  has its name.
-/

namespace ProcLang

open Ir Naming Relation

variable {name : String} {m : Module} {i : Instr} {f f' : Function} {α : Type}

namespace Ir

/-- The names of the global data, the declared routines and the functions of a module. -/
def Module.names (m : Module) : List String :=
  m.globals.map Global.name ++
    (m.declarations.map Declaration.name ++ m.functions.map Function.name)

theorem Module.hasSymbol_eq_false (h : m.hasSymbol name = false) :
    name ∉ m.functions.map Function.name ∧ name ∉ m.declarations.map Declaration.name ∧
      name ∉ m.globals.map Global.name := by
  rw [hasSymbol, Bool.or_eq_false_iff, Bool.or_eq_false_iff] at h
  refine ⟨fun hf => ?_, fun hd => ?_, fun hg => ?_⟩
  · rw [function?_isSome.mpr hf] at h
    cases h.1.1
  · rw [declaration?_isSome.mpr hd] at h
    cases h.1.2
  · rw [global?_isSome.mpr hg] at h
    cases h.2

/-- What is linked stays so when functions and declarations are added. -/
theorem Instr.Linked.mono {m' : Module} (h : i.Linked m)
    (hf : m.functions.map Function.name ⊆ m'.functions.map Function.name)
    (hd : m.declarations.map Declaration.name ⊆ m'.declarations.map Declaration.name) :
    i.Linked m' := by
  unfold Linked at h ⊢
  split at h
  · exact h.imp id fun ⟨hdest, hcallee, hty, hhas⟩ =>
      ⟨hdest, hcallee, hty, hhas.imp (fun x => hf x) fun x => hd x⟩
  · trivial

theorem Function.mem_instrs_modifyBlock {n : Nat} {g : Block → Block}
    (h : i ∈ (f.modifyBlock n g).instrs) : i ∈ f.instrs ∨ ∃ b ∈ f.blocks, i ∈ (g b).instrs := by
  obtain ⟨b, hb, hi⟩ := mem_instrs.mp h
  obtain ⟨m, hm⟩ := List.getElem?_of_mem hb
  rcases modifyBlock_getElem? hm with ⟨-, b0, hb0, rfl⟩ | ⟨-, hb0⟩
  · exact Or.inr ⟨b0, List.mem_of_getElem? hb0, hi⟩
  · exact Or.inl (mem_instrs_of_getElem? hb0 hi)

theorem Function.room_instrs (f : Function) (n : Nat) : (f.room n).1.instrs = f.instrs := by
  unfold room
  split
  · exact pushBlock_instrs _ _
  · rfl

/-- A function keeps its name, and what it gains is storage or allowed. -/
theorem Function.Gains.instrs {allowed : Instr → Prop} {n n' : Nat} (h : f.Gains allowed n f' n') :
    f'.name = f.name ∧ ∀ i ∈ f'.instrs, i ∈ f.instrs ∨ i.isAlloca = true ∨ allowed i := by
  cases h with
  | tick => exact ⟨rfl, fun i hi => Or.inl hi⟩
  | reserve dest ty =>
    refine ⟨rfl, fun i hi => ?_⟩
    rcases mem_instrs_modifyBlock hi with hi | ⟨b, hb, hi⟩
    · exact Or.inl hi
    · rcases List.mem_cons.mp ((Block.pushAlloca_instrs_perm _ b).mem_iff.mp hi) with rfl | hi
      · exact Or.inr (Or.inl rfl)
      · exact Or.inl (mem_instrs.mpr ⟨b, hb, hi⟩)
  | emit hblock ok =>
    refine ⟨by unfold room; split <;> rfl, fun i hi => ?_⟩
    rw [← room_instrs f n]
    rcases mem_instrs_modifyBlock hi with hi | ⟨b, hb, hi⟩
    · exact Or.inl hi
    · rcases List.mem_cons.mp ((Block.push_instrs_perm _ b).mem_iff.mp hi) with rfl | hi
      · exact Or.inr (Or.inr ok)
      · exact Or.inl (mem_instrs.mpr ⟨b, hb, hi⟩)

end Ir

/-! ## Symbols of the global scope -/

namespace SymbolTable

theorem containsGlobal_add {t t' : SymbolTable} {symbol : Symbol} {isGlobal : Bool}
    (h : t.add symbol isGlobal = .ok t') (hname : t.containsGlobal name = true) :
    t'.containsGlobal name = true := by
  obtain ⟨-, rfl⟩ := add_inv h
  unfold insert
  split
  · exact hname
  · exact Symbols.contains_append _ hname

theorem containsGlobal_update {t t' : SymbolTable} {symbol : Symbol} (h : t.update symbol = .ok t')
    (hname : t.containsGlobal name = true) : t'.containsGlobal name = true := by
  rw [update_inv h, rebind]
  split
  · exact hname
  · obtain ⟨s, hs, hsname⟩ := Symbols.contains_iff.mp hname
    refine Symbols.contains_iff.mpr ⟨_, List.mem_map_of_mem hs, ?_⟩
    split <;> exact hsname

end SymbolTable

/-! ## The names at every step -/

/-- What holds of the names in a module under construction. Data and a routine have the same name
only if it is the routine that compares strings. -/
structure Lowering.Named (s : Lowering) : Prop where
  globals : (s.module.globals.map Global.name).Nodup
  declarations : (s.module.declarations.map Declaration.name).Nodup
  functions : (s.module.functions.map Function.name).Nodup
  undeclared : ∀ name ∈ s.module.functions.map Function.name,
    name ∉ s.module.declarations.map Declaration.name
  code : ∀ name ∈ s.module.functions.map Function.name, name ∉ s.module.globals.map Global.name
  shared : ∀ name ∈ s.module.globals.map Global.name,
    name ∈ s.module.declarations.map Declaration.name → name = Routine.stringEquals.name
  /-- The routines that programs can call are symbols. -/
  symbols : ∀ r ∈ Routine.callable, s.symbols.containsGlobal r.name = true
  /-- So no data have their names. -/
  callable : ∀ r ∈ Routine.callable, r.name ∉ s.module.globals.map Global.name
  external : ∀ d ∈ s.module.declarations,
    ∃ r ∈ Routine.callable ++ [Routine.stringEquals], d = r.declaration
  linked : ∀ f ∈ s.module.functions, ∀ i ∈ f.instrs, i.Linked s.module

/-- The names of a list to which something was added. -/
theorem mem_names_concat {view : α → String} {xs : List α} {x : α}
    (h : name ∈ (xs ++ [x]).map view) :
    name ∈ xs.map view ∨ name = view x := by
  rw [List.map_append, List.mem_append, List.map_singleton, List.mem_singleton] at h
  exact h

theorem nodup_names_concat {view : α → String} {xs : List α} {x : α} (h : (xs.map view).Nodup)
    (hx : view x ∉ xs.map view) : ((xs ++ [x]).map view).Nodup := by
  rw [List.map_append, List.map_singleton, ← List.concat_eq_append]
  exact List.Nodup.concat hx h

theorem names_subset_concat (view : α → String) (xs : List α) (x : α) :
    xs.map view ⊆ (xs ++ [x]).map view := by
  rw [List.map_append]
  exact List.subset_append_left _ _

namespace Lowering

variable {s s' : Lowering} {declared : String → Prop}

theorem new_named (moduleName : String) : (Lowering.new moduleName).Named where
  globals := List.nodup_nil
  declarations := List.nodup_nil
  functions := List.nodup_nil
  undeclared := by simp [new]
  code := by simp [new]
  shared := by simp [new]
  symbols r hr := Symbols.contains_iff.mpr ⟨r.symbol, List.mem_map_of_mem hr, rfl⟩
  callable := by simp [new]
  external := by simp [new]
  linked := by simp [new]

variable (h : s.Named)

include h

/-- A step that leaves the module as it is and no global symbol out. -/
theorem Named.same (hm : s'.module = s.module)
    (hg : ∀ name, s.symbols.containsGlobal name = true → s'.symbols.containsGlobal name = true) :
    s'.Named where
  globals := hm ▸ h.globals
  declarations := hm ▸ h.declarations
  functions := hm ▸ h.functions
  undeclared := hm ▸ h.undeclared
  code := hm ▸ h.code
  shared := hm ▸ h.shared
  symbols r hr := hg _ (h.symbols r hr)
  callable := hm ▸ h.callable
  external := hm ▸ h.external
  linked := hm ▸ h.linked

/-- A step that adds linked instructions to a function. -/
theorem Named.put {index block : Nat} (hf : s.module.functions[index]? = some f)
    (hname : f'.name = f.name) (hi : ∀ i ∈ f'.instrs, i ∈ f.instrs ∨ i.Linked s.module) :
    Named { s with builder := s.builder.put index f' block } := by
  have hnames : (s.module.functions.set index f').map Function.name =
      s.module.functions.map Function.name := names_put hf hname
  have hlinked : ∀ g ∈ s.module.functions.set index f', ∀ i ∈ g.instrs, i.Linked s.module := by
    intro g hg i hmem
    rcases List.mem_or_eq_of_mem_set hg with hg | rfl
    · exact h.linked g hg i hmem
    · rcases hi i hmem with hold | hnew
      · exact h.linked f (List.mem_of_getElem? hf) i hold
      · exact hnew
  exact
    { h with
      functions := hnames ▸ h.functions
      undeclared := fun name hmem => h.undeclared name (hnames ▸ hmem)
      code := fun name hmem => h.code name (hnames ▸ hmem)
      linked := fun g hg i hmem =>
        (hlinked g hg i hmem).mono (fun _ hx => hnames.symm ▸ hx) (List.Subset.refl _) }

omit h in
theorem linked_of_not_call (h : ∀ d ty c args, i ≠ .call d ty c args) : i.Linked m := by
  unfold Instr.Linked
  split
  · exact absurd rfl (h _ _ _ _)
  · trivial

theorem Named.gains {allowed : Instr → Prop} {index block block' : Nat}
    (hf : s.module.functions[index]? = some f) (hgains : f.Gains allowed block f' block')
    (hl : ∀ i, allowed i → i.Linked s.module) :
    Named { s with builder := s.builder.put index f' block' } := by
  obtain ⟨hname, hinstrs⟩ := hgains.instrs
  refine h.put hf hname fun i hi => (hinstrs i hi).imp id fun hnew => ?_
  rcases hnew with ha | hallowed
  · exact linked_of_not_call fun _ _ _ _ hcall => by
      rw [hcall] at ha
      cases ha
  · exact hl i hallowed

theorem Named.addGlobal {g : Global} (new : s.module.hasSymbol g.name = false)
    (hname : Issued s.symbols.nextUnique g.name ∨ s.symbols.containsGlobal g.name = false) :
    (s.withModule { s.module with globals := s.module.globals ++ [g] }).Named := by
  obtain ⟨hfun, hdecl, hglobal⟩ := Module.hasSymbol_eq_false new
  have hroutine : ∀ r ∈ Routine.callable, r.name ≠ g.name := by
    rintro r hr hsame
    rcases hname with ⟨hint, n, -, hissued⟩ | hnone
    · exact numbered_ne_of_point_not_mem (Stage.point_not_mem_routine r hr) hint n
        (hsame.trans hissued)
    · rw [← hsame, h.symbols r hr] at hnone
      cases hnone
  refine { h with
    globals := nodup_names_concat h.globals hglobal
    code := fun name hmem hx => ?_
    shared := fun name hmem hd => ?_
    callable := fun r hr hx => ?_ }
  · rcases mem_names_concat hx with hx | rfl
    · exact h.code name hmem hx
    · exact hfun hmem
  · rcases mem_names_concat hmem with hx | rfl
    · exact h.shared name hx hd
    · exact absurd hd hdecl
  · exact (mem_names_concat hx).elim (h.callable r hr) (hroutine r hr)

theorem Named.addRoutine {r : Routine} (known : r ∈ Routine.callable ++ [Routine.stringEquals])
    (undefined : (s.module.function? r.name).isSome = false)
    (new : (s.module.declaration? r.name).isSome = false) :
    (s.withModule { s.module with
      declarations := s.module.declarations ++ [r.declaration] }).Named := by
  have hdecl : r.name ∉ s.module.declarations.map Declaration.name := fun hx => by
    rw [declaration?_isSome.mpr hx] at new
    cases new
  have hfun : r.name ∉ s.module.functions.map Function.name := fun hx => by
    rw [function?_isSome.mpr hx] at undefined
    cases undefined
  refine { h with
    declarations := nodup_names_concat h.declarations hdecl
    undeclared := fun name hmem hx => ?_
    shared := fun name hmem hd => ?_
    external := fun d hd => ?_
    linked := fun f hf i hi => (h.linked f hf i hi).mono (List.Subset.refl _)
      (names_subset_concat _ _ _) }
  · rcases mem_names_concat hx with hx | rfl
    · exact h.undeclared name hmem hx
    · exact hfun hmem
  · rcases mem_names_concat hd with hx | rfl
    · exact h.shared name hmem hx
    · rcases List.mem_append.mp known with hr | hr
      · exact absurd hmem (h.callable r hr)
      · rw [List.mem_singleton.mp hr]
        rfl
  · rcases List.mem_append.mp hd with hd | hd
    · exact h.external d hd
    · exact ⟨r, known, List.mem_singleton.mp hd⟩

theorem Named.define (new : s.module.hasSymbol name = false) (ret : Ir.Ty) (params : List Param) :
    (s.withModule { s.module with
      functions := s.module.functions ++ [.new name ret params] }).Named := by
  obtain ⟨hfun, hdecl, hglobal⟩ := Module.hasSymbol_eq_false new
  refine { h with
    functions := nodup_names_concat h.functions hfun
    undeclared := fun name' hmem => ?_
    code := fun name' hmem => ?_
    linked := fun f hf i hi => ?_ }
  · rcases mem_names_concat hmem with hx | rfl
    · exact h.undeclared name' hx
    · exact hdecl
  · rcases mem_names_concat hmem with hx | rfl
    · exact h.code name' hx
    · exact hglobal
  · rcases List.mem_append.mp hf with hf | hf
    · exact (h.linked f hf i hi).mono (names_subset_concat _ _ _) (List.Subset.refl _)
    · rw [List.mem_singleton.mp hf] at hi
      cases hi

theorem Named.plain (step : Plain declared s s') : s'.Named := by
  cases step with
  | warn | report | clash | tick => exact h.same rfl fun _ hx => hx
  | rebind updated => exact h.same rfl fun _ hx => SymbolTable.containsGlobal_update updated hx
  | declare added => exact h.same rfl fun _ hx => SymbolTable.containsGlobal_add added hx
  | global new name => exact h.addGlobal new (name.imp id And.right)
  | routine known undefined new => exact h.addRoutine known undefined new
  | code cursor function gains => exact h.gains function gains fun i hi => hi.2

/-- **Every step keeps the names in order.** -/
theorem Named.step (step : Step declared s s') : s'.Named := by
  cases step with
  | plain step => exact h.plain step
  | terminator cursor function gains =>
    refine h.gains function gains fun i hi => linked_of_not_call fun _ _ _ _ hcall => ?_
    rw [hcall] at hi
    cases hi
  | append hint cursor function =>
    refine h.put function rfl fun i hi => Or.inl ?_
    rwa [Function.append, Function.pushBlock_instrs] at hi
  | move | scopes | refuse => exact h.same rfl fun _ hx => hx
  | define known new ret params => exact h.define new ret params

theorem Named.steps (steps : ReflTransGen (Step declared) s s') : s'.Named := by
  induction steps with
  | refl => exact h
  | tail _ step ih => exact ih.step step

omit h in
theorem start_named (moduleName name : String) : (Stage.start moduleName name).state.Named := by
  have hnew : (new moduleName).module.hasSymbol Lower.mainName = false := rfl
  exact ((new_named moduleName).define hnew .i32 []).same rfl fun _ hx => hx

theorem Named.item {stmt : Stmt} {findings : List Diagnostic}
    (run : s.item stmt = .ok (s', findings)) : s'.Named := by
  unfold Lowering.item at run
  cases hlower : stmt.lower s with
  | error fault =>
    rw [hlower] at run
    cases run
  | ok r =>
    rw [hlower] at run
    cases run
    exact (h.steps (stmt_goes stmt.declaresOnly_true s _ _ hlower)).same rfl fun _ hx => hx

end Lowering

/-- **The names of every module are in order.** -/
theorem compile_named {source : String} {options : Options} {c : Compilation}
    (compiled : compile source options = .ok c) :
    ∃ s : Lowering, s.Named ∧ s.module = c.module := by
  rcases compile_between compiled (I := fun s _ => s.Named)
    (fun moduleName name _ => Lowering.start_named moduleName name) (fun _ h => h)
    (fun _ _ h run => h.item run) with ⟨name, hname⟩ | ⟨st, s, -, h, run⟩
  · exact ⟨.new name, Lowering.new_named name, hname.symm⟩
  · exact ⟨s, h.steps (@finish_goes (fun _ => True) _ _ _ run), finish_module run⟩

/-- A module is named after the program, unless another name is given. -/
theorem compile_name {source : String} {options : Options} {c : Compilation}
    (compiled : compile source options = .ok c)
    (hname : (sourceHeader source options).value = some name) :
    c.module.name = options.moduleName.getD name := by
  obtain ⟨st, s, -, h, run⟩ := compile_between_items compiled hname
    (I := fun _ s _ => s.module.name = options.moduleName.getD name) (fun _ => rfl) (fun _ h => h)
    fun stmt _ h run => by
      obtain ⟨lowered, s', hlower, rfl, -⟩ := item_inv run
      exact (Lowering.steps_name (stmt_goes stmt.declaresOnly_true _ _ _ hlower)).trans h
  rw [← finish_module run]
  exact (Lowering.steps_name (@finish_goes (fun _ => True) _ _ _ run)).trans h

/-- Names are distinct if the one that data and a routine may share is not shared. -/
theorem Lowering.Named.names_nodup_iff {s : Lowering} (h : s.Named) :
    s.module.names.Nodup ↔ ¬ (Routine.stringEquals.name ∈ s.module.globals.map Global.name ∧
      Routine.stringEquals.name ∈ s.module.declarations.map Declaration.name) := by
  rw [Module.names, List.nodup_append', List.nodup_append']
  constructor
  · rintro ⟨-, -, hdisjoint⟩ ⟨hglobal, hdecl⟩
    exact hdisjoint hglobal (List.mem_append_left _ hdecl)
  · intro hnot
    refine ⟨h.globals, ⟨h.declarations, h.functions, fun name hd hf => h.undeclared name hf hd⟩,
      fun name hg hrest => ?_⟩
    rcases List.mem_append.mp hrest with hd | hf
    · have hname := h.shared name hg hd
      exact hnot ⟨hname ▸ hg, hname ▸ hd⟩
    · exact h.code name hf hg

/-- **Names of a module are distinct, with one exception.** In the module of every text, whatever is
wrong with it, no two entries have the same name, unless a global variable is named like the routine
that compares strings and the program compares strings. -/
theorem compile_names_nodup_iff (source : String) (options : Options) :
    compile source options = .error .overflow ∨
      ∃ c, compile source options = .ok c ∧
        (c.module.names.Nodup ↔
          ¬ ("StringEquals" ∈ c.module.globals.map Global.name ∧
            "StringEquals" ∈ c.module.declarations.map Declaration.name)) := by
  rcases compile_finished source options with hcut | ⟨c, hc, -⟩
  · exact Or.inl hcut
  · obtain ⟨s, h, hmodule⟩ := compile_named hc
    exact Or.inr ⟨c, hc, hmodule ▸ h.names_nodup_iff⟩

/-- A global variable takes the name of the routine that compares strings, and strings are
compared. -/
def sharedNameText : String :=
  "program t is\nglobal variable StringEquals : integer;\nvariable b : bool;\n" ++
    "begin\nb := \"x\" == \"y\";\nend program."

/-- The module then has the name twice, and no error is reported. -/
theorem compile_shared_name :
    ∃ c, compile sharedNameText {} = .ok c ∧ c.hasErrors = false ∧ ¬ c.module.names.Nodup := by
  have evaluated : (compile sharedNameText {}).toOption.any
      (fun c => decide (c.hasErrors = false ∧ ¬ c.module.names.Nodup)) = true := by
    decide +kernel
  cases compiled : compile sharedNameText {} with
  | error fault =>
    rw [compiled] at evaluated
    cases evaluated
  | ok c =>
    rw [compiled] at evaluated
    exact ⟨c, rfl, of_decide_eq_true evaluated⟩

/-! ## Comparisons of strings -/

/-- What a call can refer to. -/
inductive Ir.Callee where
  | defined (f : Function)
  | external (d : Declaration)

/-- What a call of a name refers to in a module: a function, or else a declared routine. -/
def Ir.Module.callee? (m : Module) (name : String) : Option Callee :=
  ((m.function? name).map .defined).or ((m.declaration? name).map .external)

/-- If a name is the routine's or a function's, a call of it refers to the routine exactly if no
function has the name. -/
theorem Lowering.Named.callee?_iff {s : Lowering} (h : s.Named)
    (has : Routine.stringEquals.name ∈ s.module.functions.map Function.name ∨
      Routine.stringEquals.name ∈ s.module.declarations.map Declaration.name) :
    s.module.callee? Routine.stringEquals.name =
        some (.external Routine.stringEquals.declaration) ↔
      s.module.function? Routine.stringEquals.name = none := by
  unfold Module.callee?
  cases hfun : s.module.function? Routine.stringEquals.name with
  | some f => simp
  | none =>
    have hnone : Routine.stringEquals.name ∉ s.module.functions.map Function.name := fun hx => by
      rw [← function?_isSome, hfun] at hx
      cases hx
    obtain ⟨d, hd⟩ := Option.isSome_iff_exists.mp
      (declaration?_isSome.mpr (has.resolve_left hnone))
    obtain ⟨r, hr, rfl⟩ := h.external d (List.mem_of_find?_eq_some hd)
    have hname : r.declaration.name = Routine.stringEquals.name := by
      simpa using List.find?_some hd
    rw [hd, Stage.routine_eq r hr Routine.stringEquals (by simp) hname]
    simp

/-- **Comparing strings calls the routine for it, with one exception.** In the module of every text,
whatever is wrong with it, a call whose result is not named for a call in the text compares strings.
It calls the name of the routine that does that, with its type. The name refers to the routine that
is provided elsewhere exactly if the program defines no function of that name. -/
theorem compile_comparison_external_iff (source : String) (options : Options) :
    compile source options = .error .overflow ∨
      ∃ c, compile source options = .ok c ∧ ∀ f ∈ c.module.functions, ∀ dest ty callee args,
        Instr.call dest ty callee args ∈ f.instrs →
          (∃ n, dest = numbered "call" n) ∨
          (∃ n, dest = numbered "streq" n) ∧ callee = "StringEquals" ∧ ty = .i1 ∧
            (c.module.callee? callee = some (.external ⟨"StringEquals", .i1, [.ptr, .ptr]⟩) ↔
              c.module.function? "StringEquals" = none) := by
  rcases compile_finished source options with hcut | ⟨c, hc, -⟩
  · exact Or.inl hcut
  · refine Or.inr ⟨c, hc, fun f hf dest ty callee args hi => ?_⟩
    obtain ⟨s, h, hmodule⟩ := compile_named hc
    rw [← hmodule] at hf ⊢
    refine (h.linked f hf _ hi).imp id ?_
    rintro ⟨hdest, rfl, hty, hhas⟩
    exact ⟨hdest, rfl, hty, h.callee?_iff hhas⟩

/-- A procedure takes the name of the routine that compares strings, and strings are compared. -/
def definedNameText : String :=
  "program t is\nprocedure StringEquals : bool (variable l : string, variable r : string)\n" ++
    "begin\nreturn false;\nend procedure;\nvariable b : bool;\n" ++
    "begin\nb := \"x\" == \"y\";\nend program."

/-- The comparison then calls the procedure, and no error is reported. -/
theorem compile_comparison_defined :
    ∃ c, compile definedNameText {} = .ok c ∧ c.hasErrors = false ∧
      (∃ f ∈ c.module.functions, .call "streq.1" .i1 "StringEquals"
        [.address "t.str.0", .address "t.str.1"] ∈ f.instrs) ∧
      ∃ g, c.module.callee? "StringEquals" = some (.defined g) := by
  have evaluated : (compile definedNameText {}).toOption.any
      (fun c => decide (c.hasErrors = false ∧ (∃ f ∈ c.module.functions,
        .call "streq.1" .i1 "StringEquals" [.address "t.str.0", .address "t.str.1"] ∈ f.instrs) ∧
        (c.module.function? "StringEquals").isSome = true)) = true := by
    decide +kernel
  cases compiled : compile definedNameText {} with
  | error fault =>
    rw [compiled] at evaluated
    cases evaluated
  | ok c =>
    rw [compiled] at evaluated
    obtain ⟨hclean, hcall, hdefined⟩ := of_decide_eq_true evaluated
    obtain ⟨g, hg⟩ := Option.isSome_iff_exists.mp hdefined
    exact ⟨c, rfl, hclean, hcall, g, by rw [Module.callee?, hg]; rfl⟩

end ProcLang
