import ProcLang.Proofs.Building
import ProcLang.Proofs.FunctionSound

/-!
# Modules under construction

A module is built by calls in any order, and the cursor may go back to any place that was handed out
before. This file shows what holds at every point of it:

* `Block.LeadsTo`, `Module.LeadsTo`: how code that is under construction may change;
* `Builder.Call`, `Construction.run`: what can be asked of a builder, and many calls in a row;
* `Call.run_orderly`, `Call.answers`: what one call does, and when it has an answer;
* `construction_orderly`: code stays in order, and nothing is taken back.
-/

namespace ProcLang.Ir

open Naming

/-! ## Change of code -/

variable {place : Cursor} {i : Instr} {k : Call} {n : Nat}

namespace Block

/-- The instructions at the start of a block that reserve storage. -/
def storage (b : Block) : List Instr :=
  b.instrs.takeWhile Instr.isAlloca

theorem storage_append_body (b : Block) : b.storage ++ b.body = b.instrs :=
  List.takeWhile_append_dropWhile

theorem storage_push (hi : i.isAlloca = false) (b : Block) : (b.push i).storage = b.storage := by
  have split := (b.push i).storage_append_body
  rw [body_push hi, push_instrs, ← b.storage_append_body, List.append_assoc] at split
  exact List.append_cancel_right split

theorem storage_pushAlloca (hi : i.isAlloca = true) (b : Block) :
    (b.pushAlloca i).storage = b.storage ++ [i] := by
  have split := (b.pushAlloca i).storage_append_body
  rw [body_pushAlloca hi, pushAlloca_instrs, List.append_cons] at split
  exact List.append_cancel_right split

/-- The block becomes the other one as code is added: storage behind the storage, instructions
behind the others until the block has ended. -/
structure LeadsTo (b c : Block) : Prop where
  label : c.label = b.label
  storage : b.storage <+: c.storage
  body : b.body <+: c.body
  ended : b.isTerminated = true → c.body = b.body

namespace LeadsTo

variable {b c d : Block}

theorem refl (b : Block) : b.LeadsTo b :=
  ⟨rfl, List.prefix_rfl, List.prefix_rfl, fun _ => rfl⟩

theorem trans (h1 : b.LeadsTo c) (h2 : c.LeadsTo d) : b.LeadsTo d where
  label := h2.label.trans h1.label
  storage := h1.storage.trans h2.storage
  body := h1.body.trans h2.body
  ended hb := by
    have same := h1.ended hb
    exact (h2.ended ((isTerminated_congr same).trans hb)).trans same

theorem push (hi : i.isAlloca = false) (hb : b.isTerminated = false) : b.LeadsTo (b.push i) where
  label := rfl
  storage := storage_push hi b ▸ List.prefix_rfl
  body := body_push hi b ▸ List.prefix_append _ _
  ended h := by
    rw [hb] at h
    cases h

theorem pushAlloca (hi : i.isAlloca = true) (b : Block) : b.LeadsTo (b.pushAlloca i) where
  label := rfl
  storage := storage_pushAlloca hi b ▸ List.prefix_append _ _
  body := body_pushAlloca hi b ▸ List.prefix_rfl
  ended _ := body_pushAlloca hi b

/-- No instruction is taken away, and they stay in order. -/
theorem sublist (h : b.LeadsTo c) : b.instrs.Sublist c.instrs := by
  rw [← b.storage_append_body, ← c.storage_append_body]
  exact h.storage.sublist.append h.body.sublist

/-- A block without storage that has ended stays as it is, if it gets no storage. -/
theorem eq_of_ended (h : b.LeadsTo c) (hended : b.isTerminated = true) (hb : b.body = b.instrs)
    (hc : c.body = c.instrs) : c = b := by
  have same : c.instrs = b.instrs := by rw [← hc, ← hb, h.ended hended]
  have label := h.label
  obtain ⟨_, _⟩ := b
  obtain ⟨_, _⟩ := c
  cases same
  cases label
  rfl

end LeadsTo

end Block

namespace Function

/-- The function becomes the other one as code is added. -/
structure LeadsTo (f g : Function) : Prop where
  name : g.name = f.name
  ret : g.ret = f.ret
  params : g.params = f.params
  blocks : ∀ (n : Nat) (b : Block), f.blocks[n]? = some b → ∃ c, g.blocks[n]? = some c ∧ b.LeadsTo c

namespace LeadsTo

variable {f g h : Function}

theorem refl (f : Function) : f.LeadsTo f :=
  ⟨rfl, rfl, rfl, fun _ b hb => ⟨b, hb, .refl b⟩⟩

theorem trans (h1 : f.LeadsTo g) (h2 : g.LeadsTo h) : f.LeadsTo h where
  name := h2.name.trans h1.name
  ret := h2.ret.trans h1.ret
  params := h2.params.trans h1.params
  blocks n b hb := by
    obtain ⟨c, hc, hbc⟩ := h1.blocks n b hb
    obtain ⟨d, hd, hcd⟩ := h2.blocks n c hc
    exact ⟨d, hd, hbc.trans hcd⟩

theorem tick (f : Function) : f.LeadsTo f.tick :=
  ⟨rfl, rfl, rfl, fun _ b hb => ⟨b, hb, .refl b⟩⟩

theorem append (f : Function) (hint : String) : f.LeadsTo (f.append hint) :=
  ⟨rfl, rfl, rfl, fun _ b hb => ⟨b, getElem?_pushBlock _ hb, .refl b⟩⟩

/-- A change of one block. -/
theorem modifyBlock {b : Block} (hb : f.blocks[n]? = some b) {g : Block → Block}
    (hg : b.LeadsTo (g b)) : f.LeadsTo (f.modifyBlock n g) where
  name := rfl
  ret := rfl
  params := rfl
  blocks m c hc := by
    by_cases hm : m = n
    · subst hm
      rw [hb] at hc
      cases hc
      exact ⟨g b, modifyBlock_getElem?_self g hb, hg⟩
    · exact ⟨c, by rw [modifyBlock_getElem?_ne g hm]; exact hc, .refl c⟩

theorem length_le (h : f.LeadsTo g) : f.blocks.length ≤ g.blocks.length := by
  cases hn : f.blocks.length with
  | zero => exact Nat.zero_le _
  | succ n =>
    have hlt : n < f.blocks.length := by omega
    obtain ⟨c, hc, -⟩ := h.blocks n _ (List.getElem?_eq_getElem hlt)
    exact (List.getElem?_eq_some_iff.mp hc).1

end LeadsTo

variable {f : Function}

theorem Orderly.append (h : f.Orderly) (hint : String) : (f.append hint).Orderly :=
  h.tick.pushBlock (issued_numbered hint f.nextId) (h.fresh hint)

/-- Room costs one name at most. -/
theorem room_nextId_le (f : Function) (n : Nat) : (f.room n).1.nextId ≤ f.nextId + 1 := by
  unfold room
  split
  · exact Nat.le_refl _
  · exact Nat.le_succ _

/-- Room for an instruction is at the end of a block that has not ended, and no name is in use that
was not before, but for a new one. -/
theorem Orderly.room (h : f.Orderly) (hn : n < f.blocks.length) :
    (f.room n).1.Orderly ∧ f.LeadsTo (f.room n).1 ∧
      (∃ c, (f.room n).1.blocks[(f.room n).2]? = some c ∧ c.isTerminated = false) ∧
      ∀ d, Issued f.nextId d → d ∉ f.names →
        Issued (f.room n).1.nextId d ∧ d ∉ (f.room n).1.names := by
  obtain ⟨b, hb⟩ : ∃ b, f.blocks[n]? = some b := ⟨_, List.getElem?_eq_getElem hn⟩
  cases hend : b.isTerminated with
  | false =>
    rw [room_of_open hb hend]
    exact ⟨h, .refl f, ⟨b, hb, hend⟩, fun d hi hd => ⟨hi, hd⟩⟩
  | true =>
    rw [room_of_terminated hb hend]
    refine ⟨h.append "dead", .append f "dead", ⟨_, List.getElem?_concat_length, rfl⟩,
      fun d hi hd => ⟨hi.mono (Nat.le_succ _), ?_⟩⟩
    rw [Function.append, pushBlock_names, List.mem_append, List.mem_singleton]
    rintro (hold | rfl)
    · exact hd hold
    · exact not_issued_numbered "dead" f.nextId hi

/-- An instruction that is added where there is room for it. -/
theorem Orderly.emit (h : f.Orderly) (hn : n < f.blocks.length) (ha : i.isAlloca = false)
    (hd : ∀ d, i.dest? = some d → Issued f.nextId d ∧ d ∉ f.names) :
    ((f.room n).1.modifyBlock (f.room n).2 (·.push i)).Orderly ∧
      f.LeadsTo ((f.room n).1.modifyBlock (f.room n).2 (·.push i)) ∧
      (f.room n).2 < ((f.room n).1.modifyBlock (f.room n).2 (·.push i)).blocks.length := by
  obtain ⟨hroom, hleads, ⟨c, hc, hopen⟩, hnames⟩ := h.room hn
  refine ⟨hroom.push hc hopen ha fun d hi => hnames d (hd d hi).1 (hd d hi).2,
    hleads.trans (.modifyBlock hc (.push ha hopen)), ?_⟩
  rw [modifyBlock_blocks_length]
  exact (List.getElem?_eq_some_iff.mp hc).1

theorem Orderly.alloca (h : f.Orderly) (ty : Ty) (hint : String) :
    (f.tick.modifyBlock 0 (·.pushAlloca (.alloca (f.freshName hint) ty))).Orderly ∧
      f.LeadsTo (f.tick.modifyBlock 0 (·.pushAlloca (.alloca (f.freshName hint) ty))) := by
  obtain ⟨b, hb, -⟩ := h.entry
  exact ⟨h.tick.pushAlloca ty ⟨issued_numbered hint f.nextId, h.fresh hint⟩,
    (LeadsTo.tick f).trans (.modifyBlock (f := f.tick) hb (.pushAlloca rfl b))⟩

end Function

namespace Module

/-- The module becomes the other one as entries and code are added. -/
structure LeadsTo (m m' : Module) : Prop where
  name : m'.name = m.name
  globals : m.globals <+: m'.globals
  declarations : m.declarations <+: m'.declarations
  functions : ∀ (n : Nat) (f : Function), m.functions[n]? = some f →
    ∃ g, m'.functions[n]? = some g ∧ f.LeadsTo g

/-- There is a block at the place. -/
def HasPlace (m : Module) (place : Cursor) : Prop :=
  ∃ f, m.functions[place.function]? = some f ∧ place.block < f.blocks.length

variable {m m' m'' : Module}

theorem LeadsTo.refl (m : Module) : m.LeadsTo m :=
  ⟨rfl, List.prefix_rfl, List.prefix_rfl, fun _ f hf => ⟨f, hf, .refl f⟩⟩

theorem LeadsTo.trans (h1 : m.LeadsTo m') (h2 : m'.LeadsTo m'') : m.LeadsTo m'' where
  name := h2.name.trans h1.name
  globals := h1.globals.trans h2.globals
  declarations := h1.declarations.trans h2.declarations
  functions n f hf := by
    obtain ⟨g, hg, hfg⟩ := h1.functions n f hf
    obtain ⟨h, hh, hgh⟩ := h2.functions n g hg
    exact ⟨h, hh, hfg.trans hgh⟩

/-- Places stay. -/
theorem HasPlace.mono (h : m.HasPlace place) (hm : m.LeadsTo m') : m'.HasPlace place := by
  obtain ⟨f, hf, hlt⟩ := h
  obtain ⟨g, hg, hfg⟩ := hm.functions _ f hf
  exact ⟨g, hg, Nat.lt_of_lt_of_le hlt hfg.length_le⟩

end Module

/-! ## Building steps -/

/-- A constant is converted at once, any other value by an instruction. -/
theorem Build.sitofp_cases (operand : Value) (hint : String) :
    (∃ value, Build.sitofp operand hint = pure (.float value)) ∨
      (∀ value, operand.operand ≠ .int value) ∧
        Build.sitofp operand hint = Build.emitValue hint .float (.sitofp · operand) := by
  obtain ⟨ty, op⟩ := operand
  cases op with
  | int value => exact Or.inl ⟨_, rfl⟩
  | float | register | symbol => exact Or.inr ⟨by simp, rfl⟩

namespace Builder

/-- A builder whose functions are in order, and whose cursor stands in one of them. -/
structure Orderly (b : Builder) : Prop where
  functions : ∀ f ∈ b.module.functions, f.Orderly
  cursor : ∀ place, b.cursor = some place → b.module.HasPlace place

variable {b b' : Builder} {α : Type}

/-- The step keeps a builder in order, and what it changes is as it should be. -/
def Keeps (b : Builder) (x : Build α) : Prop :=
  ∀ a b', x b = .ok (a, b') → b'.Orderly ∧ b.module.LeadsTo b'.module

section Orderly

variable (h : b.Orderly)

include h

/-- The cursor of a builder in order stands in a block. -/
theorem Orderly.at (hc : b.cursor = some place) :
    ∃ f, b.At place.function f place.block ∧ f.Orderly := by
  obtain ⟨f, hf, hlt⟩ := h.cursor place hc
  exact ⟨f, ⟨hc, hf, hlt⟩, h.functions f (List.mem_of_getElem? hf)⟩

/-- Another place is chosen. -/
theorem Orderly.choose {cursor : Option Cursor}
    (hc : ∀ place, cursor = some place → b.module.HasPlace place) : Orderly { b with cursor } :=
  ⟨h.functions, hc⟩

/-- Another function in the place of one that leads to it. -/
theorem Orderly.put {index block block' : Nat} {f g : Function} (hat : b.At index f block)
    (hg : g.Orderly) (hfg : f.LeadsTo g) (hblock : block' < g.blocks.length) :
    (b.put index g block').Orderly ∧ b.module.LeadsTo (b.put index g block').module := by
  have hset : (b.put index g block').module.functions[index]? = some g :=
    Build.put_function hat.function g block'
  refine ⟨⟨fun f' hf' => ?_, fun place hplace => ?_⟩, ⟨rfl, List.prefix_rfl, List.prefix_rfl, ?_⟩⟩
  · rcases List.mem_or_eq_of_mem_set hf' with hf' | rfl
    · exact h.functions f' hf'
    · exact hg
  · cases hplace
    exact ⟨g, hset, hblock⟩
  · intro n f' hf'
    by_cases hn : index = n
    · subst hn
      rw [hat.function] at hf'
      cases hf'
      exact ⟨g, hset, hfg⟩
    · refine ⟨f', ?_, .refl f'⟩
      rw [← hf']
      exact List.getElem?_set_ne hn

/-- Entries of the module other than functions are added. -/
theorem Orderly.entries (globals : List Global) (declarations : List Declaration) :
    Orderly { b with module := { b.module with globals, declarations } } :=
  ⟨h.functions, h.cursor⟩

theorem Orderly.keep : b.Orderly ∧ b.module.LeadsTo b.module :=
  ⟨h, .refl _⟩

theorem Orderly.emit (ha : i.isAlloca = false) (hd : i.dest? = none) : b.Keeps (Build.emit i) := by
  intro u b' run
  obtain ⟨index, f, block, hat, rfl⟩ := Build.emit_inv run
  have hf := h.functions f (List.mem_of_getElem? hat.function)
  obtain ⟨horder, hleads, hlt⟩ := hf.emit hat.block ha (by simp [hd])
  exact h.put hat horder hleads hlt

theorem Orderly.emitValue (hint : String) (ty : Ty) {i : String → Instr}
    (ha : ∀ dest, (i dest).isAlloca = false) (hd : ∀ dest, (i dest).dest? = some dest) :
    b.Keeps (Build.emitValue hint ty i) := by
  intro v b' run
  obtain ⟨_, _, hname, -⟩ := run_bind_inv run
  obtain ⟨index, block, f, hc, -⟩ := Build.fresh_inv hname
  obtain ⟨f, hat, hf⟩ := h.at hc
  rw [Build.emitValue_run hat] at run
  cases run
  have hnew : ∀ d, (i (f.freshName hint)).dest? = some d → Issued f.tick.nextId d ∧
      d ∉ f.tick.names := by
    intro d hdest
    rw [hd] at hdest
    cases hdest
    exact ⟨issued_numbered hint f.nextId, hf.fresh hint⟩
  obtain ⟨horder, hleads, hlt⟩ := hf.tick.emit hat.block (ha _) hnew
  exact h.put hat horder ((Function.LeadsTo.tick f).trans hleads) hlt

theorem Orderly.alloca (ty : Ty) (hint : String) : b.Keeps (Build.alloca ty hint) := by
  intro v b' run
  obtain ⟨index, block, f, hc, -⟩ := Build.alloca_inv run
  obtain ⟨f, hat, hf⟩ := h.at hc
  rw [Build.alloca_run hat] at run
  cases run
  obtain ⟨horder, hleads⟩ := hf.alloca ty hint
  exact h.put hat horder hleads (Nat.lt_of_lt_of_le hat.block hleads.length_le)

theorem Orderly.appendBlock {hint : String} (run : Build.appendBlock hint b = .ok (place, b')) :
    (b'.Orderly ∧ b.module.LeadsTo b'.module) ∧ b'.module.HasPlace place := by
  obtain ⟨index, block, f, hc, -⟩ := Build.appendBlock_inv run
  obtain ⟨f, hat, hf⟩ := h.at hc
  rw [Build.appendBlock_run hat] at run
  cases run
  have hleads := Function.LeadsTo.append f hint
  refine ⟨h.put hat (hf.append hint) hleads (Nat.lt_of_lt_of_le hat.block hleads.length_le), ?_⟩
  refine ⟨f.append hint, Build.put_function hat.function _ _, ?_⟩
  rw [Function.append_length]
  exact Nat.lt_succ_self _

theorem Orderly.addGlobal (g : Global) : b.Keeps (Build.addGlobal g) := by
  intro a b' run
  cases htaken : b.module.hasSymbol g.name with
  | true =>
    rw [Build.addGlobal_taken htaken] at run
    cases run
    exact h.keep
  | false =>
    rw [Build.addGlobal_new htaken] at run
    cases run
    exact ⟨h.entries _ _, rfl, List.prefix_append _ _, List.prefix_rfl,
      fun _ f hf => ⟨f, hf, .refl f⟩⟩

theorem Orderly.declareFunction (d : Declaration) : b.Keeps (Build.declareFunction d) := by
  intro a b' run
  cases hold : (b.module.declaration? d.name).isSome with
  | true =>
    rw [Build.declareFunction_old hold] at run
    cases run
    exact h.keep
  | false =>
    rw [Build.declareFunction_new hold] at run
    cases run
    exact ⟨h.entries _ _, rfl, List.prefix_rfl, List.prefix_append _ _,
      fun _ f hf => ⟨f, hf, .refl f⟩⟩

theorem Orderly.defineFunction {name : String} {ret : Ty} {params : List Param}
    {answer : Except NameTaken Cursor}
    (run : Build.defineFunction name ret params b = .ok (answer, b')) :
    (b'.Orderly ∧ b.module.LeadsTo b'.module) ∧
      ∀ place, answer = .ok place → b'.module.HasPlace place := by
  cases htaken : b.module.hasSymbol name with
  | true =>
    rw [Build.defineFunction_taken htaken] at run
    cases run
    exact ⟨h.keep, fun place hplace => nomatch hplace⟩
  | false =>
    rw [Build.defineFunction_new htaken] at run
    cases run
    have old : ∀ (n : Nat) (f : Function), b.module.functions[n]? = some f →
        (b.module.functions ++ [.new name ret params])[n]? = some f := fun n f hf => by
      rw [List.getElem?_append_left (List.getElem?_eq_some_iff.mp hf).1]
      exact hf
    refine ⟨⟨⟨fun f hf => ?_, fun place hplace => ?_⟩, rfl, List.prefix_rfl, List.prefix_rfl,
      fun n f hf => ⟨f, old n f hf, .refl f⟩⟩, fun place hplace => ?_⟩
    · rcases List.mem_append.mp hf with hf | hf
      · exact h.functions f hf
      · rw [List.mem_singleton.mp hf]
        exact .new name ret params
    · obtain ⟨f, hf, hlt⟩ := h.cursor place hplace
      exact ⟨f, old _ f hf, hlt⟩
    · cases hplace
      exact ⟨_, List.getElem?_concat_length, Nat.zero_lt_one⟩

end Orderly

/-! ## Calls -/

/-- What can be asked of a builder. -/
inductive Call where
  | defineFunction (name : String) (ret : Ty) (params : List Param)
  | declareFunction (d : Declaration)
  | globalVariable (name : String) (ty : Ty)
  | globalText (name text : String)
  | save
  | insertionPoint
  | restore (place : Option Cursor)
  | moveTo (place : Cursor)
  | labelOf (place : Cursor)
  | isTerminated
  | appendBlock (hint : String)
  | alloca (ty : Ty) (hint : String)
  | load (ty : Ty) (ptr : Value) (hint : String)
  | store (value ptr : Value)
  | binary (op : BinOp) (lhs rhs : Value) (hint : String)
  | icmp (pred : IntPredicate) (lhs rhs : Value) (hint : String)
  | fcmp (pred : FloatPredicate) (lhs rhs : Value) (hint : String)
  | fneg (operand : Value) (hint : String)
  | sitofp (operand : Value) (hint : String)
  | gep (elem : Ty) (ptr index : Value) (hint : String)
  | call (callee : String) (ret : Ty) (args : List Value) (hint : String)
  | br (target : Cursor)
  | condBr (cond : Value) (yes no : Cursor)
  | ret (value : Value)
  | unreachable

/-- A step that hands out no place. -/
def placeless (x : Build α) : Build (List Cursor) :=
  (fun _ => []) <$> x

/-- Makes a call and gives the places that it hands out. -/
def Call.run : Call → Build (List Cursor)
  | .defineFunction name ty params =>
    (fun answer => answer.toOption.toList) <$> Build.defineFunction name ty params
  | .declareFunction d => placeless (Build.declareFunction d)
  | .globalVariable name ty => placeless (Build.globalVariable name ty)
  | .globalText name text => placeless (Build.globalText name text)
  | .save => (fun b => b.cursor.toList) <$> get
  | .insertionPoint => (fun place => [place]) <$> Build.insertionPoint
  | .restore place => placeless (Build.restore place)
  | .moveTo place => placeless (Build.moveTo place)
  | .labelOf place => placeless (Build.labelOf place)
  | .isTerminated => placeless Build.isTerminated
  | .appendBlock hint => (fun place => [place]) <$> Build.appendBlock hint
  | .alloca ty hint => placeless (Build.alloca ty hint)
  | .load ty ptr hint => placeless (Build.load ty ptr hint)
  | .store value ptr => placeless (Build.store value ptr)
  | .binary op lhs rhs hint => placeless (Build.binary op lhs rhs hint)
  | .icmp pred lhs rhs hint => placeless (Build.icmp pred lhs rhs hint)
  | .fcmp pred lhs rhs hint => placeless (Build.fcmp pred lhs rhs hint)
  | .fneg operand hint => placeless (Build.fneg operand hint)
  | .sitofp operand hint => placeless (Build.sitofp operand hint)
  | .gep elem ptr index hint => placeless (Build.gep elem ptr index hint)
  | .call callee ty args hint => placeless (Build.call callee ty args hint)
  | .br target => placeless (Build.br target)
  | .condBr cond yes no => placeless (Build.condBr cond yes no)
  | .ret value => placeless (Build.ret value)
  | .unreachable => placeless Build.unreachable

/-- The places that a call chooses. -/
def Call.chosen : Call → List Cursor
  | .restore place => place.toList
  | .moveTo place => [place]
  | _ => []

/-- The places whose labels a call asks for. -/
def Call.named : Call → List Cursor
  | .labelOf place => [place]
  | .br target => [target]
  | .condBr _ yes no => [yes, no]
  | _ => []

/-- Whether a call needs a place for what it adds or asks. -/
def Call.placed : Call → Bool
  | .defineFunction _ _ _ | .declareFunction _ | .globalVariable _ _ | .globalText _ _ | .save
  | .restore _ | .moveTo _ | .labelOf _ => false
  | .sitofp ⟨_, .int _⟩ _ => false
  | _ => true

theorem Keeps.placeless {x : Build α} (hx : b.Keeps x) {places : List Cursor}
    (run : Builder.placeless x b = .ok (places, b')) :
    (b'.Orderly ∧ b.module.LeadsTo b'.module) ∧ ∀ place ∈ places, b'.module.HasPlace place := by
  obtain ⟨a, hrun, rfl⟩ := run_map_inv run
  exact ⟨hx a b' hrun, by simp⟩

theorem Keeps.bind_labelOf {x : String → Build α} (h : ∀ label, b.Keeps (x label)) :
    b.Keeps (Build.labelOf place >>= x) := by
  intro a b' run
  obtain ⟨label, b1, hlabel, hrest⟩ := run_bind_inv run
  obtain ⟨-, rfl⟩ := Build.labelOf_inv hlabel
  exact h label a b' hrest

/-- **What a call does.** A builder in order stays in order, its module leads to the new one, and
there are blocks at the places that are handed out, as long as there are blocks at the places that
the call chooses. -/
theorem Call.run_orderly (h : b.Orderly) (hchosen : ∀ place ∈ k.chosen, b.module.HasPlace place)
    {places : List Cursor} (run : k.run b = .ok (places, b')) :
    (b'.Orderly ∧ b.module.LeadsTo b'.module) ∧ ∀ place ∈ places, b'.module.HasPlace place := by
  have same : ∀ {β : Type} {x : Build β}, (∀ a b', x b = .ok (a, b') → b' = b) → b.Keeps x :=
    fun hx a b' hrun => hx a b' hrun ▸ h.keep
  have chosen : ∀ cursor : Option Cursor,
      (∀ place ∈ cursor.toList, b.module.HasPlace place) → b.Keeps (Build.restore cursor) := by
    intro cursor hplaces a b' hrun
    cases hrun
    exact ⟨h.choose fun place hplace => hplaces place (by simp [hplace]), .refl _⟩
  cases k with
  | defineFunction name ty params =>
    obtain ⟨answer, hrun, rfl⟩ := run_map_inv run
    obtain ⟨hkeep, hplace⟩ := h.defineFunction hrun
    refine ⟨hkeep, fun place hmem => hplace place ?_⟩
    cases answer <;> simp_all [Except.toOption]
  | declareFunction d => exact (h.declareFunction d).placeless run
  | globalVariable name ty | globalText name text => exact (h.addGlobal _).placeless run
  | save =>
    obtain ⟨_, hrun, rfl⟩ := run_map_inv run
    cases hrun
    exact ⟨h.keep, fun place hplace => h.cursor place (Option.mem_toList.mp hplace)⟩
  | insertionPoint =>
    obtain ⟨place, hrun, rfl⟩ := run_map_inv run
    obtain ⟨hcursor, rfl⟩ := Build.insertionPoint_inv hrun
    exact ⟨h.keep, fun other hother => List.mem_singleton.mp hother ▸ h.cursor place hcursor⟩
  | restore place => exact (chosen place hchosen).placeless run
  | moveTo place => exact (chosen (some place) hchosen).placeless run
  | labelOf place => exact (same fun _ _ hrun => (Build.labelOf_inv hrun).2).placeless run
  | isTerminated => exact (same fun _ _ hrun => (Build.isTerminated_inv hrun).2).placeless run
  | appendBlock hint =>
    obtain ⟨place, hrun, rfl⟩ := run_map_inv run
    obtain ⟨hkeep, hplace⟩ := h.appendBlock hrun
    exact ⟨hkeep, fun other hother => List.mem_singleton.mp hother ▸ hplace⟩
  | alloca ty hint => exact (h.alloca ty hint).placeless run
  | load | binary | icmp | fcmp | fneg | gep | call =>
    exact (h.emitValue _ _ (fun _ => rfl) fun _ => rfl).placeless run
  | sitofp operand hint =>
    refine Keeps.placeless (fun a b' hrun => ?_) run
    rcases Build.sitofp_cases operand hint with ⟨value, heq⟩ | ⟨-, heq⟩
    · rw [heq] at hrun
      cases hrun
      exact h.keep
    · rw [heq] at hrun
      exact h.emitValue hint _ (fun _ => rfl) (fun _ => rfl) a b' hrun
  | store | ret | unreachable => exact (h.emit rfl rfl).placeless run
  | br target => exact (Keeps.bind_labelOf fun _ => h.emit rfl rfl).placeless run
  | condBr cond yes no =>
    exact (Keeps.bind_labelOf fun _ => .bind_labelOf fun _ => h.emit rfl rfl).placeless run

/-- The numbers of all names fit in 32 bits. -/
def Counted (b : Builder) : Prop :=
  ∀ f ∈ b.module.functions, f.nextId ≤ wordMax

/-- A counted step does what the step does, as far as the numbers fit. -/
theorem counted_eq_ok_iff {x : Build α} {a : α} :
    Build.counted x b = .ok (a, b') ↔ x b = .ok (a, b') ∧ b'.Counted := by
  cases hx : x b with
  | error fault => simp [Build.counted, bind, StateT.bind, Except.bind, hx]
  | ok answer =>
    obtain ⟨a1, b1⟩ := answer
    have hall : b1.module.functions.all (·.nextId ≤ wordMax) = true ↔ b1.Counted := by
      simp [Counted]
    rw [Build.counted, run_bind hx, run_bind run_get]
    split
    · rename_i hfit
      refine ⟨fun h => ?_, fun h => h.1⟩
      cases h
      exact ⟨rfl, hall.mp hfit⟩
    · rename_i hfit
      refine ⟨fun h => (by cases h), fun h => ?_⟩
      cases h.1
      exact absurd (hall.mpr h.2) hfit

/-- The step has an answer, and the numbers fit then. -/
def Answers (b : Builder) (x : Build α) : Prop :=
  ∃ a b', x b = .ok (a, b') ∧ b'.Counted

theorem Answers.map {β : Type} {x : Build α} (h : b.Answers x) (g : α → β) :
    b.Answers (g <$> x) := by
  obtain ⟨a, b', hrun, hcounted⟩ := h
  exact ⟨g a, b', run_map hrun, hcounted⟩

/-- The numbers fit, and those of two more names in the function at the cursor do. -/
structure Roomy (b : Builder) : Prop where
  counted : b.Counted
  room : ∀ index f block, b.At index f block → f.nextId + 2 ≤ wordMax

theorem Roomy.put (h : b.Roomy) {index block : Nat} {f g : Function} (hat : b.At index f block)
    (hg : g.nextId ≤ f.nextId + 2) (block' : Nat) : (b.put index g block').Counted := by
  intro f' hf'
  rcases List.mem_or_eq_of_mem_set hf' with hf' | rfl
  · exact h.counted f' hf'
  · exact hg.trans (h.room index f block hat)

theorem answers_addGlobal (h : b.Counted) (g : Global) : b.Answers (Build.addGlobal g) := by
  cases htaken : b.module.hasSymbol g.name with
  | true => exact ⟨_, _, Build.addGlobal_taken htaken, h⟩
  | false => exact ⟨_, _, Build.addGlobal_new htaken, h⟩

theorem answers_labelOf (h : b.module.HasPlace place) :
    ∃ label, Build.labelOf place b = .ok (label, b) := by
  obtain ⟨f, hf, hlt⟩ := h
  have hfunction : Build.functionAt place.function b = .ok (f, b) := by
    rw [Build.functionAt, run_bind run_get, hf]
    rfl
  refine ⟨(f.blocks[place.block]).label, run_map ?_⟩
  rw [Build.blockAt, run_bind hfunction, List.getElem?_eq_getElem hlt]
  rfl

/-- **When a call has an answer**: if there is a cursor, as far as the call needs one, if there are
blocks at the places whose labels it asks for, and if there are numbers left for two names. -/
theorem Call.answers (h : b.Orderly) (hroomy : b.Roomy)
    (hcursor : k.placed = true → b.cursor.isSome = true)
    (hnamed : ∀ place ∈ k.named, b.module.HasPlace place) : b.Answers k.run := by
  have hcounted := hroomy.counted
  have place : k.placed = true → ∃ index f block, b.At index f block := fun hplaced => by
    obtain ⟨place, hplace⟩ := Option.isSome_iff_exists.mp (hcursor hplaced)
    obtain ⟨f, hat, -⟩ := h.at hplace
    exact ⟨_, f, _, hat⟩
  have emit : k.placed = true → ∀ i, b.Answers (Build.emit i) := fun hplaced i => by
    obtain ⟨_, f, n, hat⟩ := place hplaced
    have hroom : (f.room n).1.nextId ≤ f.nextId + 2 := (f.room_nextId_le n).trans (Nat.le_succ _)
    exact ⟨_, _, Build.emit_run hat i, hroomy.put hat (g := (f.room n).1.modifyBlock _ _) hroom _⟩
  have emitValue : k.placed = true → ∀ hint ty i, b.Answers (Build.emitValue hint ty i) :=
    fun hplaced hint ty i => by
      obtain ⟨_, f, n, hat⟩ := place hplaced
      exact ⟨_, _, Build.emitValue_run hat hint ty i,
        hroomy.put hat (g := (f.tick.room n).1.modifyBlock _ _) (f.tick.room_nextId_le n) _⟩
  cases k with
  | defineFunction name ty params =>
    refine Answers.map ?_ _
    cases htaken : b.module.hasSymbol name with
    | true => exact ⟨_, _, Build.defineFunction_taken htaken ty params, hcounted⟩
    | false =>
      refine ⟨_, _, Build.defineFunction_new htaken ty params, fun f hf => ?_⟩
      rcases List.mem_append.mp hf with hf | hf
      · exact hcounted f hf
      · rw [List.mem_singleton.mp hf]
        exact Nat.zero_le _
  | declareFunction d =>
    refine Answers.map ?_ _
    cases hold : (b.module.declaration? d.name).isSome with
    | true => exact ⟨_, _, Build.declareFunction_old hold, hcounted⟩
    | false => exact ⟨_, _, Build.declareFunction_new hold, hcounted⟩
  | globalVariable | globalText => exact (answers_addGlobal hcounted _).map _
  | save => exact ⟨_, _, rfl, hcounted⟩
  | insertionPoint =>
    obtain ⟨_, _, _, hat⟩ := place rfl
    exact ⟨_, _, run_map (Build.insertionPoint_run hat), hcounted⟩
  | restore | moveTo => exact ⟨_, _, rfl, hcounted⟩
  | labelOf target =>
    obtain ⟨_, hlabel⟩ := answers_labelOf (hnamed target (by simp [named]))
    exact ⟨_, _, run_map hlabel, hcounted⟩
  | isTerminated =>
    obtain ⟨_, _, _, hat⟩ := place rfl
    exact ⟨_, _, run_map (Build.isTerminated_run hat (List.getElem?_eq_getElem hat.block)),
      hcounted⟩
  | appendBlock hint =>
    obtain ⟨_, f, _, hat⟩ := place rfl
    exact ⟨_, _, run_map (Build.appendBlock_run hat hint), hroomy.put hat (Nat.le_succ _) _⟩
  | alloca ty hint =>
    obtain ⟨_, f, _, hat⟩ := place rfl
    exact ⟨_, _, run_map (Build.alloca_run hat ty hint), hroomy.put hat (Nat.le_succ _) _⟩
  | load | binary | icmp | fcmp | fneg | gep | call => exact (emitValue rfl _ _ _).map _
  | sitofp operand hint =>
    refine Answers.map ?_ _
    rcases Build.sitofp_cases operand hint with ⟨value, heq⟩ | ⟨hne, heq⟩
    · rw [heq]
      exact ⟨_, _, rfl, hcounted⟩
    · rw [heq]
      refine emitValue ?_ _ _ _
      obtain ⟨ty, op⟩ := operand
      cases op with
      | int value => exact absurd rfl (hne value)
      | float | register | symbol => rfl
  | store | ret | unreachable => exact (emit rfl _).map _
  | br target =>
    refine Answers.map ?_ _
    obtain ⟨_, hlabel⟩ := answers_labelOf (hnamed target (by simp [named]))
    rw [Answers, Build.br, run_bind hlabel]
    exact emit rfl _
  | condBr cond yes no =>
    refine Answers.map ?_ _
    obtain ⟨_, hyes⟩ := answers_labelOf (hnamed yes (by simp [named]))
    obtain ⟨_, hno⟩ := answers_labelOf (hnamed no (by simp [named]))
    rw [Answers, Build.condBr, run_bind hyes, run_bind hno]
    exact emit rfl _

end Builder

/-! ## Many calls -/

open Builder (Call)

/-- A builder and the places that it has handed out. -/
structure Construction where
  builder : Builder
  places : List Cursor

namespace Construction

/-- Nothing is built yet. -/
def new (name : String) : Construction :=
  ⟨⟨{ name }, none⟩, []⟩

/-- Makes a call, if it has an answer. -/
def call (c : Construction) (k : Call) : Option Construction :=
  match Build.counted k.run c.builder with
  | .ok (places, b) => some ⟨b, c.places ++ places⟩
  | .error _ => none

/-- Makes calls one after the other, as long as they have answers. They choose only places that were
handed out. -/
def run (c : Construction) : List Call → Option Construction
  | [] => some c
  | k :: calls => if ∀ place ∈ k.chosen, place ∈ c.places then c.call k >>= (·.run calls) else none

/-- A builder in order, with blocks at all places that were handed out. -/
structure Orderly (c : Construction) : Prop where
  builder : c.builder.Orderly
  counted : c.builder.Counted
  places : ∀ place ∈ c.places, c.builder.module.HasPlace place

theorem Orderly.new (name : String) : (Construction.new name).Orderly where
  builder := ⟨by simp [Construction.new], by simp [Construction.new]⟩
  counted := by simp [Construction.new, Builder.Counted]
  places := by simp [Construction.new]

variable {c d : Construction}

theorem Orderly.call (h : c.Orderly) (hchosen : ∀ place ∈ k.chosen, place ∈ c.places)
    (hcall : c.call k = some d) : d.Orderly ∧ c.builder.module.LeadsTo d.builder.module := by
  unfold Construction.call at hcall
  split at hcall
  · rename_i hrun
    cases hcall
    obtain ⟨hrun, hcounted⟩ := Builder.counted_eq_ok_iff.mp hrun
    obtain ⟨⟨hbuilder, hleads⟩, hplaces⟩ :=
      Call.run_orderly h.builder (fun place hplace => h.places place (hchosen place hplace)) hrun
    refine ⟨⟨hbuilder, hcounted, fun place hplace => ?_⟩, hleads⟩
    rcases List.mem_append.mp hplace with hplace | hplace
    · exact (h.places place hplace).mono hleads
    · exact hplaces place hplace
  · cases hcall

/-- **A run of calls** keeps the builder in order, and the module leads to the one at the end. -/
theorem Orderly.run (h : c.Orderly) {calls : List Call} (hrun : c.run calls = some d) :
    d.Orderly ∧ c.builder.module.LeadsTo d.builder.module := by
  induction calls generalizing c with
  | nil =>
    cases hrun
    exact ⟨h, .refl _⟩
  | cons k calls ih =>
    rw [Construction.run] at hrun
    split at hrun
    · rename_i hchosen
      obtain ⟨e, hcall, hrest⟩ := Option.bind_eq_some_iff.mp hrun
      obtain ⟨he, hleads⟩ := h.call hchosen hcall
      obtain ⟨hd, hleads'⟩ := ih he hrest
      exact ⟨hd, hleads.trans hleads'⟩
    · cases hrun

theorem Orderly.answers (h : c.Orderly)
    (hroom : ∀ index f block, c.builder.At index f block → f.nextId + 2 ≤ wordMax)
    (hcursor : k.placed = true → c.builder.cursor.isSome = true)
    (hnamed : ∀ place ∈ k.named, place ∈ c.places) : ∃ e, c.call k = some e := by
  obtain ⟨places, b, hrun⟩ := Call.answers h.builder ⟨h.counted, hroom⟩ hcursor fun place hplace =>
    h.places place (hnamed place hplace)
  exact ⟨_, by rw [Construction.call, Builder.counted_eq_ok_iff.mpr hrun]⟩

end Construction

/-- Storage in front, and only in the entry. -/
theorem Function.Orderly.storage {f : Function} (h : f.Orderly) {b : Block}
    (hb : f.blocks[n]? = some b) :
    (∀ i ∈ b.storage, i.isAlloca = true) ∧ (∀ i ∈ b.body, i.isAlloca = false) ∧
      (n ≠ 0 → b.storage = []) := by
  obtain ⟨hbody, hall⟩ := h.reserved n b hb
  refine ⟨fun i hi => List.all_eq_true.mp List.all_takeWhile i hi, hbody, fun hn => ?_⟩
  have split := b.storage_append_body
  rw [hall hn] at split
  exact List.append_left_eq_self.mp split

/-- **Code stays in order, and nothing is taken back.** After any calls to a new builder, in which
only places are chosen that it has handed out, no instruction of a block follows one that ends it;
the instructions of a block are those that reserve storage, of which there are none outside of the
entry, and then the others; and all labels and results of a function have different names, with
numbers that fit in 32 bits.

Whatever calls follow, the functions and blocks stay where they are, and none of the instructions is
taken away or moves past another. Nothing but storage is added to a block that has ended, and
nothing at all if it is not the entry.

A call that has no place to add to or asks for the label of an unknown place apart, every call has
an answer, as long as there are numbers left for two more names. -/
theorem construction_orderly {name : String} {calls more : List Call} {c d : Construction}
    (built : (Construction.new name).run calls = some c) (later : c.run more = some d) :
    (∀ f ∈ c.builder.module.functions,
      (∀ b ∈ f.blocks, ∀ i ∈ b.instrs.dropLast, i.isTerminator = false) ∧
      (∀ (n : Nat) (b : Block), f.blocks[n]? = some b → b.instrs = b.storage ++ b.body ∧
        (∀ i ∈ b.storage, i.isAlloca = true) ∧ (∀ i ∈ b.body, i.isAlloca = false) ∧
        (n ≠ 0 → b.storage = [])) ∧
      f.names.Nodup ∧ f.nextId ≤ 0xFFFFFFFF) ∧
    (∀ (n : Nat) (f : Function), c.builder.module.functions[n]? = some f →
      ∃ g : Function, d.builder.module.functions[n]? = some g ∧
        g.name = f.name ∧ g.ret = f.ret ∧ g.params = f.params ∧
        ∀ (k : Nat) (b : Block), f.blocks[k]? = some b →
          ∃ b' : Block, g.blocks[k]? = some b' ∧ b'.label = b.label ∧
            b.instrs.Sublist b'.instrs ∧ b.storage <+: b'.storage ∧ b.body <+: b'.body ∧
            (b.isTerminated = true → b'.body = b.body) ∧
            (b.isTerminated = true → k ≠ 0 → b' = b)) ∧
    ∀ k : Call, (k.placed = true → c.builder.cursor.isSome = true) →
      (∀ place ∈ k.named, place ∈ c.places) →
      (∀ index f block, c.builder.At index f block → f.nextId + 2 ≤ 0xFFFFFFFF) →
      ∃ e, c.call k = some e := by
  obtain ⟨hc, -⟩ := (Construction.Orderly.new name).run built
  obtain ⟨hd, hleads⟩ := hc.run later
  refine ⟨fun f hf => ?_, fun n f hf => ?_, fun k hcursor hnamed hroom =>
    hc.answers hroom hcursor hnamed⟩
  · have horder := hc.builder.functions f hf
    exact ⟨horder.shaped, fun n b hb => ⟨b.storage_append_body.symm, horder.storage hb⟩,
      horder.names, hc.counted f hf⟩
  · obtain ⟨g, hg, hfg⟩ := hleads.functions n f hf
    refine ⟨g, hg, hfg.name, hfg.ret, hfg.params, fun k b hb => ?_⟩
    obtain ⟨b', hb', hbb'⟩ := hfg.blocks k b hb
    refine ⟨b', hb', hbb'.label, hbb'.sublist, hbb'.storage, hbb'.body, hbb'.ended,
      fun hended hk => ?_⟩
    have hf' := hc.builder.functions f (List.mem_of_getElem? hf)
    have hg' := hd.builder.functions g (List.mem_of_getElem? hg)
    exact hbb'.eq_of_ended hended ((hf'.reserved k b hb).2 hk) ((hg'.reserved k b' hb').2 hk)

/-- A function of two blocks that have ended. -/
def twoBlocks : List Call :=
  [.defineFunction "f" .i32 [], .moveTo ⟨0, 0⟩, .appendBlock "next", .br ⟨0, 1⟩, .moveTo ⟨0, 1⟩,
    .ret (.int 0)]

/-- Storage in the entry, which has ended, and a read of it behind the end of the other block. -/
def afterEnd : List Call :=
  [.alloca .i32 "x", .load .i32 (.register .ptr "x.1") "v", .moveTo ⟨0, 0⟩]

/-- The block stays as it is if one goes on behind its end. -/
theorem construction_orderly_afterEnd :
    ∃ (c d : Construction) (f g : Function) (b : Block),
      (Construction.new "m").run twoBlocks = some c ∧ c.run afterEnd = some d ∧
      c.builder.module.functions[0]? = some f ∧ d.builder.module.functions[0]? = some g ∧
      f.blocks[1]? = some b ∧ b.instrs = [.ret (.int 0)] ∧ g.blocks[1]? = some b := by
  obtain ⟨c, hc⟩ : ∃ c, (Construction.new "m").run twoBlocks = some c := ⟨_, rfl⟩
  obtain ⟨d, hd⟩ : ∃ d, c.run afterEnd = some d := by
    cases hc
    exact ⟨_, rfl⟩
  obtain ⟨-, hleads, -⟩ := construction_orderly hc hd
  have hfunction : ∃ f b, c.builder.module.functions[0]? = some f ∧ f.blocks[1]? = some b ∧
      b.instrs = [.ret (.int 0)] := by
    cases hc
    exact ⟨_, _, rfl, rfl, rfl⟩
  obtain ⟨f, b, hf, hb, hinstrs⟩ := hfunction
  obtain ⟨g, hg, -, -, -, hblocks⟩ := hleads 0 f hf
  obtain ⟨b', hb', -, -, -, -, -, hsame⟩ := hblocks 1 b hb
  have hended : b.isTerminated = true := by rw [Block.isTerminated, Block.terminator?, hinstrs]; rfl
  rw [hsame hended (by decide)] at hb'
  exact ⟨c, d, f, g, b, hc, hd, hf, hg, hb, hinstrs, hb'⟩

end ProcLang.Ir
