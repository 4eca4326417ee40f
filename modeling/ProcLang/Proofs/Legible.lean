import ProcLang.Proofs.ModuleNames
import ProcLang.Proofs.Names

/-!
# Legible modules

All names in a module are made of letters, digits, underscores and points, so that one can see in
its text where they end. Its constants are of few kinds: integers of type `i32`, the truth values,
and floats that do not exceed infinity. And every routine that the module declares is called
somewhere in it.

These properties go together in the invariant `Lowering.Tidy` of lowering, which every part of
lowering upholds (`Upholds`). They have to be shown together for what is in the symbol table,
because that is where the operands of instructions come from.

* `Value.Legible`, `Instr.Legible`, `Function.Legible`, `Symbol.Legible`: what can be read back;
* `Module.Calls`: a name is called somewhere in the module;
* `emit_upholds`, `emitValue_upholds`, `invoke_upholds`: the building steps.
-/

namespace ProcLang

open Ir Naming

/-! ## Names -/

variable {hint name : String} {symbol : Symbol} {i : Instr}

namespace Ir

/-- A character that names in a module are made of. -/
def isNameChar (c : Char) : Bool :=
  Lexeme.isWordChar c || c == '.'

/-- A name that ends where the first other character is. -/
def Legible (name : String) : Prop :=
  ∀ c ∈ name.toList, isNameChar c = true

instance (name : String) : Decidable (Legible name) :=
  decidable_of_iff (name.toList.all isNameChar = true) List.all_eq_true

theorem legible_append {a b : String} (ha : Legible a) (hb : Legible b) : Legible (a ++ b) := by
  intro c hc
  rw [String.toList_append, List.mem_append] at hc
  exact hc.elim (ha c) (hb c)

theorem legible_of_isWord {x : String} (h : isWord x = true) : Legible x := by
  intro c hc
  rw [isNameChar, List.all_eq_true.mp (Bool.and_eq_true_iff.mp h).2 c hc, Bool.true_or]

theorem legible_toString (n : Nat) : Legible (toString n) := by
  intro c hc
  rw [isNameChar, Lexeme.isWordChar_of_isDigit (isDigit_of_mem_toString hc), Bool.true_or]

theorem legible_numbered (h : Legible hint) (n : Nat) : Legible (numbered hint n) :=
  legible_append (legible_append h (by decide)) (legible_toString n)

theorem legible_argName (h : Legible name) : Legible (Lower.argName name) :=
  legible_append h (by decide)

theorem legible_binOp (op : BinOp) : Legible op.name := by
  cases op <;> decide

theorem legible_join {parts : List String} (h : ∀ part ∈ parts, Legible part) :
    Legible (String.join parts) := by
  intro c hc
  rw [String.toList_join, List.mem_flatMap] at hc
  obtain ⟨part, hpart, hc⟩ := hc
  exact h part hpart c hc

end Ir

theorem SymbolTable.legible_path {scopes : List Scope} (h : ∀ scope ∈ scopes, Legible scope.label) :
    Legible (path scopes) := by
  refine legible_join fun part hpart => ?_
  obtain ⟨scope, hscope, rfl⟩ := List.mem_map.mp hpart
  exact legible_append (h scope (List.mem_reverse.mp hscope)) (by decide)

/-! ## Values and instructions -/

namespace Ir

/-- A value that can be read back from its text and its type. -/
def Value.Legible (v : Value) : Prop :=
  match v.operand with
  | .int n => v.ty = .i32 ∨ v.ty = .i1 ∧ (n = 0 ∨ n = 1)
  | .float x => v.ty = .float ∧ x.magnitude ≤ Binary32.infinity
  | .register name => Ir.Legible name
  | .symbol name => Ir.Legible name

theorem Value.legible_int (n : Int) : (Value.int n).Legible := Or.inl rfl

theorem Value.legible_float {x : Binary32} (h : x.magnitude ≤ Binary32.infinity) :
    (Value.float x).Legible :=
  ⟨rfl, h⟩

theorem Value.legible_bool (b : Bool) : (Value.bool b).Legible := by
  cases b
  · exact Or.inr ⟨rfl, Or.inl rfl⟩
  · exact Or.inr ⟨rfl, Or.inr rfl⟩

/-- The name that an instruction calls. -/
def Instr.callee? : Instr → Option String
  | call _ _ callee _ => some callee
  | _ => none

/-- The names that stand in an instruction, operands apart. -/
def Instr.names (i : Instr) : List String :=
  i.dest?.toList ++ i.targets ++ i.callee?.toList

/-- An instruction whose names and operands can be read back. -/
structure Instr.Legible (i : Instr) : Prop where
  names : ∀ name ∈ i.names, Ir.Legible name
  operands : ∀ v ∈ i.operands, v.Legible

/-- A function whose names and instructions can be read back. -/
structure Function.Legible (f : Function) : Prop where
  name : Ir.Legible f.name
  params : ∀ p ∈ f.params, Ir.Legible p.name
  labels : ∀ b ∈ f.blocks, Ir.Legible b.label
  instrs : ∀ i ∈ f.instrs, i.Legible

namespace Function.Legible

variable {f : Function}

theorem new (hname : Ir.Legible name) (ret : Ty) {params : List Param}
    (hparams : ∀ p ∈ params, Ir.Legible p.name) : (Function.new name ret params).Legible where
  name := hname
  params := hparams
  labels := by
    intro b hb
    rw [List.mem_singleton.mp hb]
    decide
  instrs := by simp [Function.new, Function.instrs]

theorem tick (h : f.Legible) : f.tick.Legible :=
  ⟨h.name, h.params, h.labels, h.instrs⟩

theorem append (h : f.Legible) (hhint : Ir.Legible hint) : (f.append hint).Legible where
  name := h.name
  params := h.params
  labels b hb := by
    rcases List.mem_append.mp hb with hb | hb
    · exact h.labels b hb
    · rw [List.mem_singleton.mp hb]
      exact legible_numbered hhint _
  instrs := by
    rw [Function.append, pushBlock_instrs]
    exact h.instrs

theorem room (h : f.Legible) (n : Nat) : (f.room n).1.Legible := by
  unfold Function.room
  split
  · exact h.append (by decide)
  · exact h

/-- An instruction is added to a block, wherever in it. -/
theorem insert (h : f.Legible) (n : Nat) (g : Block → Block) (hl : ∀ b, (g b).label = b.label)
    (hg : ∀ b, (g b).instrs.Perm (i :: b.instrs)) (hi : i.Legible) :
    (f.modifyBlock n g).Legible where
  name := h.name
  params := h.params
  labels c hc := by
    obtain ⟨m, hm⟩ := List.getElem?_of_mem hc
    rcases modifyBlock_getElem? hm with ⟨-, b, hb, rfl⟩ | ⟨-, hc⟩
    · exact hl b ▸ h.labels b (List.mem_of_getElem? hb)
    · exact h.labels c (List.mem_of_getElem? hc)
  instrs j hj := by
    rcases mem_instrs_modifyBlock hj with hj | ⟨b, hb, hj⟩
    · exact h.instrs j hj
    · rcases List.mem_cons.mp ((hg b).mem_iff.mp hj) with rfl | hj
      · exact hi
      · exact h.instrs j (mem_instrs.mpr ⟨b, hb, hj⟩)

end Function.Legible

/-- No instruction is lost where one is added to a block. -/
theorem Function.subset_modifyBlock {f : Function} (n : Nat) (g : Block → Block)
    (hg : ∀ b, (g b).instrs.Perm (i :: b.instrs)) : f.instrs ⊆ (f.modifyBlock n g).instrs := by
  intro j hj
  obtain ⟨b, hb, hj⟩ := mem_instrs.mp hj
  obtain ⟨m, hm⟩ := List.getElem?_of_mem hb
  by_cases hmn : m = n
  · subst hmn
    exact mem_instrs_of_getElem? (modifyBlock_getElem?_self g hm)
      ((hg b).mem_iff.mpr (List.mem_cons_of_mem i hj))
  · exact mem_instrs_of_getElem? (by rw [modifyBlock_getElem?_ne g hmn]; exact hm) hj

/-- Room for an instruction is in a block. -/
theorem Function.room_block {f : Function} {n : Nat} (hn : n < f.blocks.length) :
    ∃ c, (f.room n).1.blocks[(f.room n).2]? = some c := by
  unfold room
  split
  · exact ⟨_, List.getElem?_concat_length⟩
  · exact ⟨_, List.getElem?_eq_getElem hn⟩

/-- A name is called somewhere in the module. -/
def Module.Calls (m : Module) (name : String) : Prop :=
  ∃ f ∈ m.functions, ∃ i ∈ f.instrs, i.callee? = some name

end Ir

/-! ## Symbols -/

/-- A symbol whose names and binding can be read back. -/
structure Symbol.Legible (symbol : Symbol) : Prop where
  name : Ir.Legible symbol.name
  irName : Ir.Legible symbol.irName
  binding : symbol.binding.Legible

theorem Symbol.Legible.ofName (hname : Ir.Legible name) {binding : Value}
    (hbinding : binding.Legible) (ty : Ty) (kind : SymbolKind) :
    Symbol.Legible { name, binding, ty, kind } :=
  ⟨hname, hname, hbinding⟩

theorem Symbol.Legible.withTy (h : symbol.Legible) (ty : Ty) : Symbol.Legible { symbol with ty } :=
  ⟨h.name, h.irName, h.binding⟩

theorem Symbols.legible_rebind {symbols : Symbols} (h : ∀ s ∈ symbols, s.Legible) (name : String)
    {binding : Value} (hbinding : binding.Legible) :
    ∀ s ∈ symbols.rebind name binding, s.Legible := by
  intro s hs
  obtain ⟨s0, hs0, rfl⟩ := List.mem_map.mp hs
  have hold := h s0 hs0
  split
  · exact ⟨hold.name, hold.irName, hbinding⟩
  · exact hold

/-- A table whose symbols and scopes can be read back. -/
structure SymbolTable.Legible (t : SymbolTable) : Prop where
  globals : ∀ symbol ∈ t.globals, symbol.Legible
  locals : ∀ scope ∈ t.locals, Ir.Legible scope.label ∧ ∀ symbol ∈ scope.symbols, symbol.Legible

namespace SymbolTable.Legible

variable {t t' : SymbolTable}

theorem lookup? (h : t.Legible) (hlookup : t.lookup? name = some symbol) :
    symbol.Legible ∧ symbol.name = name := by
  obtain ⟨hname, ⟨scope, hscope, hmem⟩ | ⟨hmem, -⟩⟩ := lookup?_cases hlookup
  · exact ⟨(h.locals scope hscope).2 symbol hmem, hname⟩
  · exact ⟨h.globals symbol hmem, hname⟩

theorem tick (h : t.Legible) : t.tick.Legible :=
  ⟨h.globals, h.locals⟩

theorem push (h : t.Legible) {label : String} (hlabel : Ir.Legible label) :
    (t.push label).Legible where
  globals := h.globals
  locals := List.forall_mem_cons.mpr ⟨⟨hlabel, by simp⟩, h.locals⟩

theorem pop? (h : t.Legible) (hpop : t.pop? = some t') : t'.Legible := by
  unfold SymbolTable.pop? at hpop
  split at hpop
  · cases hpop
  · rename_i scope outer hlocals
    cases hpop
    exact ⟨h.globals, fun s hs => h.locals s (hlocals ▸ List.mem_cons_of_mem scope hs)⟩

theorem add (h : t.Legible) {isGlobal : Bool} (hsymbol : symbol.Legible)
    (hadd : t.add symbol isGlobal = .ok t') : t'.Legible := by
  have concat : ∀ {symbols : Symbols} (frame : Option Nat), (∀ s ∈ symbols, s.Legible) →
      ∀ s ∈ symbols ++ [{ symbol with frame }], s.Legible := by
    intro symbols frame hold s hs
    rcases List.mem_append.mp hs with hs | hs
    · exact hold s hs
    · rw [List.mem_singleton.mp hs]
      exact ⟨hsymbol.name, hsymbol.irName, hsymbol.binding⟩
  obtain ⟨-, rfl⟩ := add_inv hadd
  unfold SymbolTable.insert
  split
  · rename_i scope outer hlocals
    have hscopes := h.locals
    rw [hlocals, List.forall_mem_cons] at hscopes
    obtain ⟨⟨hlabel, hsymbols⟩, houter⟩ := hscopes
    exact ⟨h.globals, List.forall_mem_cons.mpr ⟨⟨hlabel, concat _ hsymbols⟩, houter⟩⟩
  · exact ⟨concat _ h.globals, h.locals⟩

/-- Another binding for a name. -/
theorem update (h : t.Legible) (hsymbol : symbol.Legible) (hupdate : t.update symbol = .ok t') :
    t'.Legible := by
  have rebound : ∀ (name : String) {scopes : List Scope},
      (∀ s ∈ scopes, Ir.Legible s.label ∧ ∀ x ∈ s.symbols, x.Legible) →
      ∀ s ∈ (rebindLocal name symbol.binding scopes).1,
        Ir.Legible s.label ∧ ∀ x ∈ s.symbols, x.Legible := by
    intro name scopes hscopes
    induction scopes with
    | nil => exact hscopes
    | cons scope outer ih =>
      obtain ⟨hscope, houter⟩ := List.forall_mem_cons.mp hscopes
      unfold rebindLocal
      split
      · exact List.forall_mem_cons.mpr
          ⟨⟨hscope.1, Symbols.legible_rebind hscope.2 name hsymbol.binding⟩, houter⟩
      · exact List.forall_mem_cons.mpr ⟨hscope, ih houter⟩
  rw [update_inv hupdate, SymbolTable.rebind]
  split
  · rename_i hlocal
    exact ⟨h.globals, by simpa [hlocal] using rebound symbol.name h.locals⟩
  · exact ⟨Symbols.legible_rebind h.globals _ hsymbol.binding, h.locals⟩

end SymbolTable.Legible

/-! ## The invariant -/

/-- All that is in the module or that may come to it can be read back, and every routine that is
declared is called, or its call is still pending. -/
structure Lowering.Tidy (pending : List String) (s : Lowering) : Prop where
  globals : ∀ g ∈ s.module.globals, Legible g.name
  functions : ∀ f ∈ s.module.functions, f.Legible
  symbols : s.symbols.Legible
  called : ∀ d ∈ s.module.declarations, d.name ∈ pending ∨ s.module.Calls d.name

namespace Lowering.Tidy

variable {s : Lowering} {pending : List String}

theorem uniqueName (h : s.Tidy pending) (hhint : Legible hint) :
    Legible (s.symbols.uniqueName hint) :=
  legible_append (legible_append (legible_append
    (SymbolTable.legible_path fun scope hs => (h.symbols.locals scope hs).1) hhint) (by decide))
    (legible_toString _)

theorem qualifiedName (h : s.Tidy pending) (hname : Legible name) :
    Legible (s.symbols.qualifiedName name) :=
  legible_append (SymbolTable.legible_path fun scope hs =>
    (h.symbols.locals scope (List.dropLast_subset _ hs)).1) hname

theorem resolveVariable (h : s.Tidy pending) (hr : s.resolveVariable name = .ok symbol) :
    symbol.Legible ∧ symbol.name = name := by
  unfold Lowering.resolveVariable at hr
  split at hr
  · cases hr
  · rename_i found hlookup
    split at hr
    · cases hr
    · split at hr
      · cases hr
      · cases hr
        exact h.symbols.lookup? hlookup

/-- Another table. -/
theorem withSymbols (h : s.Tidy pending) {symbols : SymbolTable} (hsymbols : symbols.Legible) :
    Tidy pending { s with symbols } :=
  ⟨h.globals, h.functions, hsymbols, h.called⟩

/-- Another function in the place of one whose instructions it has. -/
theorem put (h : s.Tidy pending) {index : Nat} {f f' : Function}
    (hf : s.module.functions[index]? = some f) (hf' : f'.Legible) (hgrow : f.instrs ⊆ f'.instrs)
    (block : Nat) : Tidy pending { s with builder := s.builder.put index f' block } where
  globals := h.globals
  functions g hg := by
    rcases List.mem_or_eq_of_mem_set hg with hg | rfl
    · exact h.functions g hg
    · exact hf'
  symbols := h.symbols
  called d hd := by
    refine (h.called d hd).imp id fun ⟨g, hg, i, hi, hcallee⟩ => ?_
    obtain ⟨n, hn⟩ := List.getElem?_of_mem hg
    by_cases heq : index = n
    · subst heq
      rw [hf] at hn
      cases hn
      exact ⟨f', List.mem_of_getElem? (Build.put_function hf f' block), i, hgrow hi, hcallee⟩
    · refine ⟨g, List.mem_of_getElem? (i := n) ?_, i, hi, hcallee⟩
      rw [← hn]
      exact List.getElem?_set_ne heq

theorem tick (h : s.Tidy pending) {index : Nat} {f : Function}
    (hf : s.module.functions[index]? = some f)
    (block : Nat) : Tidy pending { s with builder := s.builder.put index f.tick block } :=
  h.put hf (h.functions f (List.mem_of_getElem? hf)).tick (List.Subset.refl _) block

end Lowering.Tidy

/-! ## Runs -/

/-- Every run from the state keeps the invariant, and its answer is of a kind. -/
def Upholds {α : Type} (s : Lowering) (x : Lower α) (post : α → Prop) : Prop :=
  s.Tidy [] → ∀ a s', x s = .ok (a, s') → s'.Tidy [] ∧ post a

/-- Nothing is asked of the answer. -/
def Anything {α : Type} (_ : α) : Prop := True

section Upholds

variable {α β : Type} {s : Lowering} {x : Lower α} {post : α → Prop} {post' : β → Prop}

theorem upholds_pure {a : α} (h : post a) : Upholds s (pure a) post := by
  rintro hs _ _ ⟨⟩
  exact ⟨hs, h⟩

theorem Upholds.next {f : α → Lower β} (hx : Upholds s x post)
    (hf : ∀ a s', post a → Upholds s' (f a) post') : Upholds s (x >>= f) post' := by
  intro hs b s'' run
  obtain ⟨a, s', run1, run2⟩ := run_bind_inv run
  obtain ⟨hs', ha⟩ := hx hs a s' run1
  exact hf a s' ha hs' b s'' run2

theorem Upholds.map (hx : Upholds s x post) {g : α → β} (hg : ∀ a, post a → post' (g a)) :
    Upholds s (g <$> x) post' := by
  intro hs b s' run
  obtain ⟨a, run1, rfl⟩ := run_map_inv run
  exact (hx hs a s' run1).imp id (hg a)

theorem upholds_get {f : Lowering → Lower β} (h : s.Tidy [] → Upholds s (f s) post') :
    Upholds s (get >>= f) post' :=
  fun hs b s' run => h hs hs b s' run

theorem upholds_modify {g : Lowering → Lowering} (h : s.Tidy [] → (g s).Tidy []) :
    Upholds s (modify g) Anything := by
  rintro hs _ _ ⟨⟩
  exact ⟨h hs, trivial⟩

/-- A building step that changes nothing. -/
theorem upholds_look {y : Build α} (h : ∀ {a b'}, y s.builder = .ok (a, b') → b' = s.builder) :
    Upholds s (Lower.build y) Anything := by
  intro hs a s' run
  obtain ⟨b, hb, rfl⟩ := build_inv run
  rw [h hb]
  exact ⟨hs, trivial⟩

end Upholds

/-! ## Building steps -/

section Build

variable {s : Lowering} {pending : List String}

/-- An instruction that is added, and where it can be found then. -/
theorem Lowering.Tidy.emit (h : s.Tidy pending) (hi : i.Legible) {u : Unit} {b : Builder}
    (run : Build.emit i s.builder = .ok (u, b)) :
    Tidy pending { s with builder := b } ∧ ∃ f ∈ b.module.functions, i ∈ f.instrs := by
  obtain ⟨index, f, block, hat, rfl⟩ := Build.emit_inv run
  have hg := Block.push_instrs_perm i
  obtain ⟨c, hc⟩ := Function.room_block hat.block
  have hroom := (h.functions f (List.mem_of_getElem? hat.function)).room block
  refine ⟨h.put hat.function (hroom.insert _ (·.push i) (fun _ => rfl) hg hi) ?_ _, _,
    List.mem_of_getElem? (Build.put_function hat.function _ _), ?_⟩
  · exact f.room_instrs block ▸ Function.subset_modifyBlock _ (·.push i) hg
  · exact Function.mem_instrs_of_getElem? (Function.modifyBlock_getElem?_self _ hc)
      ((hg c).mem_iff.mpr List.mem_cons_self)

theorem emit_upholds (hi : i.Legible) : Upholds s (Lower.build (.emit i)) Anything := by
  intro hs u s' run
  obtain ⟨b, hb, rfl⟩ := build_inv run
  exact ⟨(hs.emit hi hb).1, trivial⟩

/-- An instruction that gives a value. -/
theorem Lowering.Tidy.emitValue (h : s.Tidy pending) (hhint : Legible hint) {ty : Ir.Ty}
    {i : String → Instr} (hi : ∀ d, Legible d → (i d).Legible) {v : Value} {b : Builder}
    (run : Build.emitValue hint ty i s.builder = .ok (v, b)) :
    Tidy pending { s with builder := b } ∧ v.Legible ∧
      ∃ f ∈ b.module.functions, ∃ d, i d ∈ f.instrs := by
  obtain ⟨name, b1, hname, run1⟩ := run_bind_inv run
  obtain ⟨index, block, f, -, hf, rfl, rfl⟩ := Build.fresh_inv hname
  obtain ⟨u, b2, hemit, run2⟩ := run_bind_inv run1
  cases run2
  have hlegible : Legible (f.freshName hint) := legible_numbered hhint _
  obtain ⟨htidy, g, hg, hmem⟩ := (h.tick hf block).emit (hi _ hlegible) hemit
  exact ⟨htidy, hlegible, g, hg, _, hmem⟩

theorem emitValue_upholds (hhint : Legible hint) {ty : Ir.Ty} {i : String → Instr}
    (hi : ∀ d, Legible d → (i d).Legible) :
    Upholds s (Lower.build (.emitValue hint ty i)) Value.Legible := by
  intro hs v s' run
  obtain ⟨b, hb, rfl⟩ := build_inv run
  obtain ⟨htidy, hv, -⟩ := hs.emitValue hhint hi hb
  exact ⟨htidy, hv⟩

theorem alloca_upholds (ty : Ir.Ty) (hhint : Legible hint) :
    Upholds s (Lower.build (.alloca ty hint)) Value.Legible := by
  intro hs v s' run
  obtain ⟨b, hb, rfl⟩ := build_inv run
  obtain ⟨index, block, f, -, hf, rfl, rfl⟩ := Build.alloca_inv hb
  have hdest : Legible (f.freshName hint) := legible_numbered hhint _
  have hi : (Instr.alloca (f.freshName hint) ty).Legible :=
    ⟨fun name hname => List.mem_singleton.mp hname ▸ hdest, by simp [Instr.operands]⟩
  have hg := Block.pushAlloca_instrs_perm (.alloca (f.freshName hint) ty)
  have hold := (hs.functions f (List.mem_of_getElem? hf)).tick
  refine ⟨?_, hdest⟩
  rw [Builder.put_put]
  exact hs.put hf (hold.insert 0 (·.pushAlloca _) (fun _ => rfl) hg hi)
    (Function.subset_modifyBlock 0 (·.pushAlloca _) hg) block

theorem appendBlock_upholds (hhint : Legible hint) :
    Upholds s (Lower.build (.appendBlock hint)) Anything := by
  intro hs c s' run
  obtain ⟨b, hb, rfl⟩ := build_inv run
  obtain ⟨index, block, f, -, hf, -, rfl⟩ := Build.appendBlock_inv hb
  refine ⟨hs.put hf ((hs.functions f (List.mem_of_getElem? hf)).append hhint) ?_ block, trivial⟩
  rw [Function.append, Function.pushBlock_instrs]
  exact List.Subset.refl _

/-- Global data under a legible name. -/
theorem addGlobal_upholds {g : Global} (hg : Legible g.name) :
    Upholds s (Lower.build (.addGlobal g)) fun outcome => ∀ v, outcome = .ok v → v.Legible := by
  intro hs outcome s' run
  obtain ⟨b, hb, rfl⟩ := build_inv run
  cases htaken : s.module.hasSymbol g.name with
  | true =>
    rw [Build.addGlobal_taken htaken] at hb
    cases hb
    exact ⟨hs, fun v hv => by cases hv⟩
  | false =>
    rw [Build.addGlobal_new htaken] at hb
    cases hb
    refine ⟨⟨fun g' hg' => ?_, hs.functions, hs.symbols, hs.called⟩, fun v hv => ?_⟩
    · rcases List.mem_append.mp hg' with hg' | hg'
      · exact hs.globals g' hg'
      · rw [List.mem_singleton.mp hg']
        exact hg
    · cases hv
      exact hg

/-- A call of a name, for which a routine is declared if there is one. **No routine is declared that
is not called**: the call follows at once. -/
theorem invoke_upholds (hname : Legible name) (ty : Ir.Ty) {args : List Value}
    (hargs : ∀ v ∈ args, v.Legible) (hhint : Legible hint) :
    Upholds s (do
      Lower.build (.declareRoutine name)
      Lower.build (.call name ty args hint)) Value.Legible := by
  intro hs v s' run
  obtain ⟨u, s1, run1, run2⟩ := run_bind_inv run
  obtain ⟨b1, hdeclare, rfl⟩ := build_inv run1
  obtain ⟨b2, hcall, rfl⟩ := build_inv run2
  have hi : ∀ d, Legible d → (Instr.call d ty name args).Legible := fun d hd =>
    ⟨List.forall_mem_cons.mpr ⟨hd, fun x hx => List.mem_singleton.mp hx ▸ hname⟩, hargs⟩
  rcases declareRoutine_cases hdeclare with ⟨rfl, -⟩ | ⟨r, -, rfl, -, -, rfl⟩
  · obtain ⟨htidy, hv, -⟩ := hs.emitValue hhint hi hcall
    exact ⟨htidy, hv⟩
  · -- the routine is declared here, and its call is the next instruction
    have hpending : Lowering.Tidy [r.name] { s with builder := { s.builder with module :=
        { s.module with declarations := s.module.declarations ++ [r.declaration] } } } := by
      refine ⟨hs.globals, hs.functions, hs.symbols, fun d hd => ?_⟩
      rcases List.mem_append.mp hd with hd | hd
      · exact (hs.called d hd).imp (fun hnone => by cases hnone) id
      · rw [List.mem_singleton.mp hd]
        exact Or.inl List.mem_cons_self
    obtain ⟨htidy, hv, f, hf, dest, hmem⟩ := hpending.emitValue hhint hi hcall
    refine ⟨⟨htidy.globals, htidy.functions, htidy.symbols, fun d hd => Or.inr ?_⟩, hv⟩
    refine (htidy.called d hd).elim (fun hname => ?_) id
    rw [List.mem_singleton.mp hname]
    exact ⟨f, hf, _, hmem, rfl⟩

end Build

end ProcLang
