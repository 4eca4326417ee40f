import ProcLang.Lower.Program
import ProcLang.Proofs.FunctionSound
import ProcLang.Proofs.Meaning.Source
import ProcLang.Proofs.Building
import ProcLang.Proofs.Scopes

/-!
# Where code is added, and what names stand for there

To say what lowered code does, one has to know where it went and what the symbols stood for. A
`Spot` is the block at the cursor with the function around it. `Lowering.Puts` says that lowering
put some instructions there, or in a new block if the block has ended, and changed nothing else of
account; `Lowering.Adds` that it added them to an open block. `Names` says what the names of
variables stand for, and a `Scene` relates the symbol table to the variables that were declared so
far.

* `emitValue_puts`, `emit_adds`: what the instructions of the builder add;
* `Scene.names`, `Scene.routine`: what the names of variables and routines stand for.
-/

namespace ProcLang

open Ir Naming

/-! ## Growth -/

/-- Blocks are added to the function, and instructions behind those that the blocks have. Reserved
storage is left out of account. -/
structure Ir.Function.GrowsTo (f g : Function) : Prop where
  blocks : ∀ (n : Nat) (b : Block), f.blocks[n]? = some b →
    ∃ b', g.blocks[n]? = some b' ∧ b'.label = b.label ∧ b.body <+: b'.body
  nextId : f.nextId ≤ g.nextId

/-- The blocks other than the given one stay as they are, again apart from reserved storage. -/
def Ir.Function.KeptOutside (number : Nat) (f g : Function) : Prop :=
  ∀ (n : Nat) (b b' : Block), n ≠ number → f.blocks[n]? = some b → g.blocks[n]? = some b' →
    b'.body = b.body

/-- Data and declarations are added to the module. -/
structure Ir.Module.GrowsTo (m m' : Module) : Prop where
  globals : m.globals <+: m'.globals
  declarations : m.declarations <+: m'.declarations
  names : m'.functions.map Function.name = m.functions.map Function.name

variable {code code' : List Instr} {i : Instr} {name : String} {f g : Function} {s s' : Lowering}
  {w w1 w2 : Spot} {t : SymbolTable}

namespace Ir

theorem Function.GrowsTo.refl (f : Function) : f.GrowsTo f :=
  ⟨fun _ b hb => ⟨b, hb, rfl, List.prefix_rfl⟩, Nat.le_refl _⟩

theorem Function.GrowsTo.trans {h : Function} (h1 : f.GrowsTo g) (h2 : g.GrowsTo h) :
    f.GrowsTo h where
  blocks n b hb := by
    obtain ⟨b', hb', hl, hp⟩ := h1.blocks n b hb
    obtain ⟨b'', hb'', hl', hp'⟩ := h2.blocks n b' hb'
    exact ⟨b'', hb'', hl'.trans hl, hp.trans hp'⟩
  nextId := Nat.le_trans h1.nextId h2.nextId

theorem Function.GrowsTo.append (f : Function) (hint : String) : f.GrowsTo (f.append hint) :=
  ⟨fun _ b hb => ⟨b, getElem?_pushBlock _ hb, rfl, List.prefix_rfl⟩, Nat.le_succ _⟩

/-- A change of one block that adds behind its instructions. -/
theorem Function.GrowsTo.modifyBlock (f : Function) (n : Nat) {g : Block → Block}
    (hl : ∀ b, (g b).label = b.label) (hb : ∀ b, b.body <+: (g b).body) :
    f.GrowsTo (f.modifyBlock n g) where
  blocks m b hm := by
    by_cases hmn : m = n
    · subst hmn
      exact ⟨g b, modifyBlock_getElem?_self g hm, hl b, hb b⟩
    · exact ⟨b, by rw [modifyBlock_getElem?_ne g hmn]; exact hm, rfl, List.prefix_rfl⟩
  nextId := Nat.le_refl _

theorem Function.GrowsTo.push (f : Function) (n : Nat) (hi : i.isAlloca = false) :
    f.GrowsTo (f.modifyBlock n (·.push i)) :=
  .modifyBlock f n (fun _ => rfl) fun b => by
    rw [Block.body_push hi]
    exact List.prefix_append _ _

theorem Function.GrowsTo.pushAlloca (f : Function) (n : Nat) (hi : i.isAlloca = true) :
    f.GrowsTo (f.modifyBlock n (·.pushAlloca i)) :=
  .modifyBlock f n (fun _ => rfl) fun b => Block.body_pushAlloca hi b ▸ List.prefix_rfl

theorem Function.GrowsTo.tick (f : Function) : f.GrowsTo f.tick :=
  ⟨fun _ b hb => ⟨b, hb, rfl, List.prefix_rfl⟩, Nat.le_succ _⟩

theorem Function.KeptOutside.of_same {number : Nat}
    (h : ∀ n, n ≠ number → g.blocks[n]? = f.blocks[n]?) : f.KeptOutside number g := by
  intro n b b' hn hb hb'
  rw [h n hn, hb] at hb'
  cases hb'
  rfl

theorem Function.KeptOutside.trans {h : Function} {number : Nat} (h1 : f.KeptOutside number g)
    (hfg : f.GrowsTo g) (h2 : g.KeptOutside number h) : f.KeptOutside number h := by
  intro n b b'' hn hb hb''
  obtain ⟨b', hb', -⟩ := hfg.blocks n b hb
  exact (h2 n b' b'' hn hb' hb'').trans (h1 n b b' hn hb hb')

theorem Module.GrowsTo.refl (m : Module) : m.GrowsTo m :=
  ⟨List.prefix_rfl, List.prefix_rfl, rfl⟩

theorem Module.GrowsTo.trans {m m' m'' : Module} (h1 : m.GrowsTo m') (h2 : m'.GrowsTo m'') :
    m.GrowsTo m'' :=
  ⟨h1.globals.trans h2.globals, h1.declarations.trans h2.declarations, h2.names.trans h1.names⟩

theorem Module.GrowsTo.global? {m m' : Module} (h : m.GrowsTo m') {g : Global}
    (hg : m.global? name = some g) : m'.global? name = some g := by
  obtain ⟨more, hmore⟩ := h.globals
  rw [Module.global?, ← hmore, List.find?_append, ← Module.global?, hg]
  rfl

theorem Module.GrowsTo.declaration? {m m' : Module} (h : m.GrowsTo m')
    (hd : (m.declaration? name).isSome = true) : (m'.declaration? name).isSome = true := by
  obtain ⟨more, hmore⟩ := h.declarations
  obtain ⟨d, hd⟩ := Option.isSome_iff_exists.mp hd
  rw [Module.declaration?, ← hmore, List.find?_append, ← Module.declaration?, hd]
  rfl

/-- Another function in the place of one of the same name. -/
theorem Builder.At.put_growsTo {b : Builder} {index block : Nat} (h : b.At index f block)
    (hn : g.name = f.name) (block' : Nat) : b.module.GrowsTo (b.put index g block').module := by
  refine ⟨List.prefix_rfl, List.prefix_rfl, ?_⟩
  obtain ⟨hlt, hget⟩ := List.getElem?_eq_some_iff.mp h.function
  rw [Builder.put, List.map_set, hn, ← hget, ← List.getElem_map Function.name]
  exact List.set_getElem_self (by simpa using hlt)

end Ir

/-! ## Spots -/

/-- A block of a function, as far as it goes. -/
structure Spot where
  /-- The number of the function. -/
  index : Nat
  fn : Function
  /-- The number of the block. -/
  number : Nat
  block : Block

/-- The cursor is in the block of the spot. -/
structure Lowering.In (s : Lowering) (w : Spot) : Prop where
  placed : s.builder.At w.index w.fn w.number
  block : w.fn.blocks[w.number]? = some w.block

/-- The state adds instructions at the spot. -/
structure Lowering.At (s : Lowering) (w : Spot) : Prop extends s.In w where
  isOpen : w.block.isTerminated = false

/-- The second spot is the first one with some instructions more. -/
structure Spot.Adds (w : Spot) (code : List Instr) (w' : Spot) : Prop where
  index : w'.index = w.index
  number : w'.number = w.number
  body : w'.block.body = w.block.body ++ code
  fn : w.fn.GrowsTo w'.fn
  kept : w.fn.KeptOutside w.number w'.fn

/-- Data and declarations may have come to the module, but no symbols to the table. -/
structure Lowering.Still (s s' : Lowering) : Prop where
  module : s.builder.module.GrowsTo s'.builder.module
  locals : s'.symbols.locals = s.symbols.locals
  globals : s'.symbols.globals = s.symbols.globals
  frames : s'.frames = s.frames

/-- The second state comes from the first one by adding instructions at the spot. -/
structure Lowering.Adds (s : Lowering) (w : Spot) (code : List Instr) (s' : Lowering) (w' : Spot) :
    Prop extends s.Still s' where
  placed : s'.At w'
  spot : w.Adds code w'

theorem Lowering.Still.refl (s : Lowering) : s.Still s :=
  ⟨.refl _, rfl, rfl, rfl⟩

theorem Lowering.Still.trans {s1 s2 : Lowering} (h1 : s.Still s1) (h2 : s1.Still s2) :
    s.Still s2 where
  module := h1.module.trans h2.module
  locals := h2.locals.trans h1.locals
  globals := h2.globals.trans h1.globals
  frames := h2.frames.trans h1.frames

theorem Spot.Adds.refl (w : Spot) : w.Adds [] w :=
  ⟨rfl, rfl, (List.append_nil _).symm, .refl _, .of_same fun _ _ => rfl⟩

theorem Spot.Adds.trans (h1 : w.Adds code w1) (h2 : w1.Adds code' w2) :
    w.Adds (code ++ code') w2 where
  index := h2.index.trans h1.index
  number := h2.number.trans h1.number
  body := by rw [h2.body, h1.body, List.append_assoc]
  fn := h1.fn.trans h2.fn
  kept := h1.kept.trans h1.fn (h1.number ▸ h2.kept)

theorem Lowering.Adds.trans {s1 s2 : Lowering} (h1 : s.Adds w code s1 w1)
    (h2 : s1.Adds w1 code' s2 w2) : s.Adds w (code ++ code') s2 w2 where
  toStill := h1.toStill.trans h2.toStill
  placed := h2.placed
  spot := h1.spot.trans h2.spot

/-! ## Code in one block -/

/-- The instructions of a block, and none if there is no such block. -/
def Ir.Function.codeAt (f : Function) (n : Nat) : List Instr :=
  f.blocks[n]?.elim [] Block.instrs

/-- The number of the block that the next instruction goes to: the one of the spot, or a new one if
that has ended. -/
def Spot.front (w : Spot) : Nat :=
  if w.block.isTerminated then w.fn.blocks.length else w.number

/-- The second spot is the first one with some instructions more, all of them in one block. -/
structure Spot.Puts (w : Spot) (code : List Instr) (w' : Spot) : Prop where
  index : w'.index = w.index
  front : w'.front = w.front
  gained : w'.fn.codeAt w.front = w.fn.codeAt w.front ++ code
  others : ∀ n, n ≠ w.front → w'.fn.blocks[n]? = w.fn.blocks[n]?
  fn : w.fn.GrowsTo w'.fn
  plain : ∀ i ∈ code, i.isAlloca = false

/-- The second state comes from the first one by putting instructions in one block. -/
structure Lowering.Puts (s : Lowering) (w : Spot) (code : List Instr) (s' : Lowering) (w' : Spot) :
    Prop extends s.Still s' where
  placed : s'.In w'
  spot : w.Puts code w'
  functions : s'.builder.module.functions = s.builder.module.functions.set w.index w'.fn

theorem Spot.Puts.refl (w : Spot) : w.Puts [] w :=
  ⟨rfl, rfl, (List.append_nil _).symm, fun _ _ => rfl,
    .refl _, fun _ h => absurd h List.not_mem_nil⟩

theorem Spot.Puts.trans (h1 : w.Puts code w1) (h2 : w1.Puts code' w2) :
    w.Puts (code ++ code') w2 where
  index := h2.index.trans h1.index
  front := h2.front.trans h1.front
  gained := by rw [← h1.front, h2.gained, h1.front, h1.gained, List.append_assoc]
  others n hn := (h2.others n (h1.front ▸ hn)).trans (h1.others n hn)
  fn := h1.fn.trans h2.fn
  plain i hi := (List.mem_append.mp hi).elim (h1.plain i) (h2.plain i)

theorem Lowering.Puts.trans {s1 s2 : Lowering} (h1 : s.Puts w code s1 w1)
    (h2 : s1.Puts w1 code' s2 w2) : s.Puts w (code ++ code') s2 w2 where
  toStill := h1.toStill.trans h2.toStill
  placed := h2.placed
  spot := h1.spot.trans h2.spot
  functions := by rw [h2.functions, h1.functions, h1.spot.index, List.set_set]

/-- A step outside of functions puts no code anywhere. -/
theorem outside_puts (hs : s.In w) (hstill : s.Still s') (hc : s'.builder.cursor = s.builder.cursor)
    (hf : s'.builder.module.functions = s.builder.module.functions) : s.Puts w [] s' w where
  toStill := hstill
  placed := ⟨⟨hc.trans hs.placed.cursor, by rw [hf]; exact hs.placed.function, hs.placed.block⟩,
    hs.block⟩
  spot := .refl w
  functions := by
    obtain ⟨hlt, hget⟩ := List.getElem?_eq_some_iff.mp hs.placed.function
    rw [hf, ← hget, List.set_getElem_self]

theorem Lowering.In.puts_nil (h : s.In w) : s.Puts w [] s w :=
  outside_puts h (.refl s) rfl rfl

theorem Ir.Function.codeAt_of_block {n : Nat} {b : Block} (h : f.blocks[n]? = some b) :
    f.codeAt n = b.instrs := by
  rw [codeAt, h, Option.elim_some]

/-- **Code that is put into an open block** is added to it. -/
theorem Lowering.Puts.adds {w' : Spot} {code : List Instr}
    (h : s.Puts w code s' w') (hs : s.At w) : s.Adds w code s' w' := by
  have hfront : w.front = w.number := if_neg (by rw [hs.isOpen]; exact Bool.false_ne_true)
  obtain ⟨b, hb, -⟩ := h.spot.fn.blocks _ _ hs.block
  have hlt : w.number < w'.fn.blocks.length := (List.getElem?_eq_some_iff.mp hb).1
  -- a new block would come behind the one of the spot
  have hopen : w'.block.isTerminated = false := by
    rw [Bool.eq_false_iff]
    intro hended
    have hnew : w'.front = w'.fn.blocks.length := if_pos hended
    have := h.spot.front
    omega
  have hnumber : w'.number = w.number := by
    rw [← hfront, ← h.spot.front]
    exact (if_neg (by rw [hopen]; exact Bool.false_ne_true)).symm
  refine ⟨h.toStill, ⟨h.placed, hopen⟩, h.spot.index, hnumber, ?_, h.spot.fn,
    .of_same (hfront ▸ h.spot.others)⟩
  have hcode := h.spot.gained
  rw [hfront, Function.codeAt_of_block hs.block, ← hnumber,
    Function.codeAt_of_block h.placed.block] at hcode
  exact Block.body_append h.spot.plain hcode

section Emit

/-- The state with another function in place of the one at the spot, and the cursor in it. -/
def Lowering.put (s : Lowering) (w : Spot) (f : Function) (n : Nat) : Lowering :=
  { s with builder := s.builder.put w.index f n }

theorem push_in (hs : s.At w) (hf : f.blocks = w.fn.blocks) (hn : f.name = w.fn.name)
    (hid : w.fn.nextId ≤ f.nextId) (ha : i.isAlloca = false) :
    s.Still (s.put w (f.modifyBlock w.number (·.push i)) w.number) ∧
      (s.put w (f.modifyBlock w.number (·.push i)) w.number).In
        ⟨w.index, f.modifyBlock w.number (·.push i), w.number, w.block.push i⟩ ∧
      w.Adds [i] ⟨w.index, f.modifyBlock w.number (·.push i), w.number, w.block.push i⟩ := by
  have hlt : w.number < f.blocks.length := by
    rw [hf]
    exact hs.placed.block
  have grown : w.fn.GrowsTo f :=
    ⟨fun n b hb => ⟨b, by rw [hf]; exact hb, rfl, List.prefix_rfl⟩, hid⟩
  refine ⟨⟨hs.placed.put_growsTo (g := f.modifyBlock _ _) hn _, rfl, rfl, rfl⟩,
    ⟨hs.placed.put (by simpa using hlt), ?_⟩,
    ⟨rfl, rfl, Block.body_push ha _, grown.trans (.push f w.number ha), ?_⟩⟩
  · exact Function.modifyBlock_getElem?_self _ (by rw [hf]; exact hs.block)
  · refine .of_same fun n hn => ?_
    rw [Function.modifyBlock_getElem?_ne _ hn, hf]

theorem push_adds (hs : s.At w) (hf : f.blocks = w.fn.blocks) (hn : f.name = w.fn.name)
    (hid : w.fn.nextId ≤ f.nextId) (ha : i.isAlloca = false) (ht : i.isTerminator = false) :
    s.Adds w [i] (s.put w (f.modifyBlock w.number (·.push i)) w.number)
      ⟨w.index, f.modifyBlock w.number (·.push i), w.number, w.block.push i⟩ := by
  obtain ⟨hstill, hin, hspot⟩ := push_in hs hf hn hid ha
  exact ⟨hstill, ⟨hin, (Block.isTerminated_push i w.block).trans ht⟩, hspot⟩

theorem emit_adds (hs : s.At w) (ha : i.isAlloca = false) (ht : i.isTerminator = false)
    (run : Lower.build (.emit i) s = .ok ((), s')) : ∃ w', s.Adds w [i] s' w' := by
  obtain ⟨b, hb, rfl⟩ := build_inv run
  rw [Build.emit_run hs.placed, Function.room_of_open hs.block hs.isOpen] at hb
  cases hb
  exact ⟨_, push_adds hs rfl rfl (Nat.le_refl _) ha ht⟩

/-- An instruction is put into the block in front, which may be new. -/
theorem push_puts (hs : s.In w) {b : Block} (hb : f.blocks[w.front]? = some b)
    (hcode : f.codeAt w.front = w.fn.codeAt w.front)
    (hothers : ∀ n, n ≠ w.front → f.blocks[n]? = w.fn.blocks[n]?) (hf : w.fn.GrowsTo f)
    (hn : f.name = w.fn.name) (ha : i.isAlloca = false) (ht : i.isTerminator = false) :
    s.Puts w [i] (s.put w (f.modifyBlock w.front (·.push i)) w.front)
      ⟨w.index, f.modifyBlock w.front (·.push i), w.front, b.push i⟩ := by
  have hself : (f.modifyBlock w.front (·.push i)).blocks[w.front]? = some (b.push i) :=
    Function.modifyBlock_getElem?_self _ hb
  refine ⟨⟨hs.placed.put_growsTo (g := f.modifyBlock _ _) hn _, rfl, rfl, rfl⟩,
    ⟨hs.placed.put (List.getElem?_eq_some_iff.mp hself).1, hself⟩,
    ⟨rfl, ?_, ?_, fun n hn => ?_, hf.trans (.push f _ ha), by simpa using ha⟩, rfl⟩
  · exact if_neg (by rw [Block.isTerminated_push, ht]; exact Bool.false_ne_true)
  · rw [← hcode, Function.codeAt_of_block hself, Function.codeAt_of_block hb, Block.push_instrs]
  · rw [Function.modifyBlock_getElem?_ne _ hn, hothers n hn]

/-- **An instruction that gives a value** is put into one block, and its result has a new name. -/
theorem emitValue_puts (hs : s.In w) {hint : String} {ty : Ir.Ty} {i : String → Instr} {v : Value}
    (ha : ∀ d, (i d).isAlloca = false) (ht : ∀ d, (i d).isTerminator = false)
    (run : Lower.build (.emitValue hint ty i) s = .ok (v, s')) :
    v = .register ty (numbered hint w.fn.nextId) ∧
      ∃ w', s.Puts w [i (numbered hint w.fn.nextId)] s' w' ∧ w.fn.nextId < w'.fn.nextId := by
  obtain ⟨b, hb, rfl⟩ := build_inv run
  rw [Build.emitValue_run hs.placed] at hb
  have hblock : w.fn.tick.blocks[w.number]? = some w.block := hs.block
  have htick : w.fn.GrowsTo w.fn.tick := .tick w.fn
  cases hended : w.block.isTerminated with
  | true =>
    have hfront : w.front = w.fn.blocks.length := if_pos hended
    have hblocks : (w.fn.tick.append "dead").blocks =
        w.fn.blocks ++ [⟨w.fn.tick.freshName "dead", []⟩] := rfl
    have hnew : (w.fn.tick.append "dead").blocks[w.front]? =
        some ⟨w.fn.tick.freshName "dead", []⟩ := by
      rw [hblocks, hfront, List.getElem?_concat_length]
    have hnone : w.fn.blocks[w.front]? = none := List.getElem?_eq_none (Nat.le_of_eq hfront.symm)
    rw [Function.room_of_terminated hblock hended, Function.tick_blocks, ← hfront] at hb
    cases hb
    refine ⟨rfl, _, push_puts hs hnew ?_ (fun n hn => ?_) (htick.trans (.append _ _)) rfl (ha _)
      (ht _), Nat.lt_add_of_pos_right Nat.two_pos⟩
    · rw [Function.codeAt_of_block hnew, Function.codeAt, hnone, Option.elim_none]
    · by_cases hlt : n < w.fn.blocks.length
      · rw [hblocks]
        exact List.getElem?_append_left hlt
      · have hlength : (w.fn.tick.append "dead").blocks.length ≤ n := by
          rw [Function.append_length, Function.tick_blocks]
          omega
        rw [List.getElem?_eq_none hlength, List.getElem?_eq_none (Nat.le_of_not_lt hlt)]
  | false =>
    have hfront : w.front = w.number := if_neg (by rw [hended]; exact Bool.false_ne_true)
    rw [Function.room_of_open hblock hended, ← hfront] at hb
    cases hb
    exact ⟨rfl, _, push_puts hs (f := w.fn.tick) (hfront ▸ hs.block) rfl (fun _ _ => rfl) htick rfl
      (ha _) (ht _), Nat.lt_succ_self _⟩

end Emit

/-! ## Symbols and variables -/

/-- The symbol stands for the variable. -/
structure Denotes (v : Variable) (symbol : Symbol) : Prop where
  name : symbol.name = v.name
  ty : symbol.ty = v.ty
  kind : symbol.kind = Lower.variableKind v.len

/-- The symbols of the innermost scope. -/
def SymbolTable.innermost (t : SymbolTable) : Symbols :=
  t.locals.head?.elim [] Scope.symbols

/-- The symbols that stand for variables are bound to the storage that is given for these. Variables
of the scopes around the innermost one cannot be used. -/
structure Homes (home : Variable → Operand) (t : SymbolTable) : Prop where
  locals : ∀ symbol ∈ t.innermost, ∀ v, Denotes v symbol → v.isGlobal = false →
    symbol.binding = ⟨.ptr, home v⟩
  globals : ∀ symbol ∈ t.globals, ∀ v, Denotes v symbol → v.isGlobal = true →
    symbol.binding = ⟨.ptr, home v⟩

/-- The storage that the symbols of a table give to a variable. -/
def SymbolTable.home (t : SymbolTable) (v : Variable) : Operand :=
  (Symbols.get? (if v.isGlobal then t.globals else t.innermost) v.name).elim (.int 0)
    (·.binding.operand)

/-- The symbols that can be used in the first table are in the second one too. -/
structure SymbolTable.GrowsTo (t t' : SymbolTable) : Prop where
  locals : t.innermost ⊆ t'.innermost
  globals : t.globals ⊆ t'.globals

theorem SymbolTable.GrowsTo.trans {t' t'' : SymbolTable} (h1 : t.GrowsTo t')
    (h2 : t'.GrowsTo t'') : t.GrowsTo t'' where
  locals := List.Subset.trans h1.locals h2.locals
  globals := List.Subset.trans h1.globals h2.globals

theorem Homes.anti {home : Variable → Operand} {t' : SymbolTable} (h : Homes home t')
    (hg : t.GrowsTo t') : Homes home t where
  locals symbol hsym := h.locals symbol (hg.locals hsym)
  globals symbol hsym := h.globals symbol (hg.globals hsym)

theorem Lowering.Still.symbols (h : s.Still s') : s.symbols.GrowsTo s'.symbols := by
  constructor
  · rw [SymbolTable.innermost, SymbolTable.innermost, h.locals]
    exact List.Subset.refl _
  · rw [h.globals]
    exact List.Subset.refl _

theorem Denotes.isProcedure {v : Variable} {symbol : Symbol} (h : Denotes v symbol) :
    symbol.isProcedure = false := by
  unfold Symbol.isProcedure
  rw [h.kind]
  cases v.len <;> rfl

theorem SymbolTable.Regular.innermost_distinct (h : t.Regular) :
    (t.innermost.map Symbol.name).Nodup := by
  unfold SymbolTable.innermost
  cases hlocals : t.locals with
  | nil => exact List.nodup_nil
  | cons scope outer => exact h.distinct scope (by rw [hlocals]; exact List.mem_cons_self)

/-- **The storage of the variables** is what their symbols are bound to, if these are addresses. -/
theorem SymbolTable.homes (h : t.Regular)
    (hlocals : ∀ symbol ∈ t.innermost, symbol.isProcedure = false → symbol.binding.ty = .ptr)
    (hglobals : ∀ symbol ∈ t.globals, symbol.isProcedure = false → symbol.binding.ty = .ptr) :
    Homes t.home t where
  locals symbol hsymbol v hd hv := by
    have hhome : t.home v = symbol.binding.operand := by
      rw [SymbolTable.home, hv, ← hd.name]
      simp [Symbols.get?_of_mem h.innermost_distinct hsymbol]
    rw [hhome, ← hlocals symbol hsymbol hd.isProcedure]
  globals symbol hsymbol v hd hv := by
    have hhome : t.home v = symbol.binding.operand := by
      rw [SymbolTable.home, hv, ← hd.name]
      simp [Symbols.get?_of_mem h.global_distinct hsymbol]
    rw [hhome, ← hglobals symbol hsymbol hd.isProcedure]

theorem Lowering.Still.resolveVariable (h : s.Still s') (name : String) :
    s'.resolveVariable name = s.resolveVariable name := by
  unfold Lowering.resolveVariable SymbolTable.lookup? SymbolTable.depth
  rw [h.locals, h.globals]

/-- A name that can be used for a variable stands for a variable of the environment. -/
def Names (env : Env) (s : Lowering) : Prop :=
  ∀ {name : String} {symbol : Symbol}, s.resolveVariable name = .ok symbol →
    ∃ v ∈ env.vars, env.find? name = some v ∧ Denotes v symbol ∧
      ∀ home, Homes home s.symbols → symbol.binding = ⟨.ptr, home v⟩

theorem Lowering.Still.names {env : Env} (h : s.Still s') (hs : Names env s) : Names env s' := by
  intro name symbol hr
  obtain ⟨v, hv, hfind, hd, hb⟩ := hs ((h.resolveVariable name).symm.trans hr)
  exact ⟨v, hv, hfind, hd, fun home hh => hb home (hh.anti h.symbols)⟩

/-- In a program without procedures the symbols stand for the routines and for the variables that
were declared so far. -/
structure Scene (env : Env) (s : Lowering) : Prop where
  locals : ∃ label symbols, s.symbols.locals = [⟨label, symbols⟩] ∧
    List.Forall₂ Denotes env.locals symbols
  globals : ∃ symbols, s.symbols.globals = Routine.callable.map Routine.symbol ++ symbols ∧
    List.Forall₂ Denotes env.globals symbols
  isLocal : ∀ v ∈ env.locals, v.isGlobal = false
  isGlobal : ∀ v ∈ env.globals, v.isGlobal = true
  regular : s.symbols.Regular
  functions : s.builder.module.functions.map Function.name = [Lower.mainName]
  frames : s.frames = [.program]

theorem Lowering.Still.scene {env : Env} (h : s.Still s') (hs : Scene env s) :
    Scene env s' where
  locals := by
    rw [h.locals]
    exact hs.locals
  globals := by
    rw [h.globals]
    exact hs.globals
  isLocal := hs.isLocal
  isGlobal := hs.isGlobal
  regular := ⟨by rw [h.locals]; exact hs.regular.framed,
    by rw [h.locals]; exact hs.regular.distinct,
    by rw [h.globals]; exact hs.regular.global_frame,
    by rw [h.globals]; exact hs.regular.global_distinct⟩
  functions := h.module.names.trans hs.functions
  frames := h.frames.trans hs.frames

/-- A name is found among the symbols as it is found among the variables. -/
theorem find?_denotes {vs : List Variable} {symbols : Symbols} (h : List.Forall₂ Denotes vs symbols)
    (name : String) : (vs.find? (·.name == name) = none ∧ symbols.get? name = none) ∨
      ∃ v ∈ vs, ∃ symbol ∈ symbols, vs.find? (·.name == name) = some v ∧
        symbols.get? name = some symbol ∧ Denotes v symbol := by
  induction h with
  | nil => exact Or.inl ⟨rfl, rfl⟩
  | @cons v symbol vs symbols hd _ ih =>
    unfold Symbols.get? at ih ⊢
    rw [List.find?_cons, List.find?_cons, hd.name]
    by_cases hname : (v.name == name) = true
    · rw [hname]
      exact Or.inr ⟨v, List.mem_cons_self, symbol, List.mem_cons_self, rfl, rfl, hd⟩
    · rw [Bool.not_eq_true] at hname
      rw [hname]
      rcases ih with ih | ⟨u, hu, t, ht, hfind, hget, hd'⟩
      · exact Or.inl ih
      · exact Or.inr ⟨u, List.mem_cons_of_mem _ hu, t, List.mem_cons_of_mem _ ht, hfind, hget, hd'⟩

namespace Scene

variable {env : Env}

/-- **Where a name is found**: among the variables, or else among the routines. -/
theorem lookup?_cases (h : Scene env s) {symbol : Symbol}
    (hl : s.symbols.lookup? name = some symbol) :
    (∃ v ∈ env.vars, env.find? name = some v ∧ Denotes v symbol ∧
        ∀ home, Homes home s.symbols → symbol.binding = ⟨.ptr, home v⟩) ∨
      ∃ r ∈ Routine.callable, Routine.callable.find? (·.name == name) = some r ∧
        symbol = r.symbol := by
  obtain ⟨label, symbols, hlocals, hvs⟩ := h.locals
  obtain ⟨gsymbols, hglobals, hgs⟩ := h.globals
  have hlocal : SymbolTable.lookupLocal? name s.symbols.locals = symbols.get? name := by
    rw [hlocals, SymbolTable.lookupLocal?, List.findSome?_cons]
    cases symbols.get? name <;> rfl
  rw [SymbolTable.lookup?, hlocal] at hl
  rcases find?_denotes hvs name with ⟨hnone, hget⟩ | ⟨v, hv, t, ht, hfind, hget, hd⟩
  · rw [hget, Option.none_or, Symbols.get?, hglobals, List.find?_append, List.find?_map] at hl
    have hcomp : ((fun t : Symbol => t.name == name) ∘ Routine.symbol) =
        fun r : Routine => r.name == name := rfl
    rw [hcomp] at hl
    cases hr : Routine.callable.find? (·.name == name) with
    | some r =>
      rw [hr] at hl
      cases hl
      exact Or.inr ⟨r, List.mem_of_find?_eq_some hr, rfl, rfl⟩
    | none =>
      rw [hr, Option.map_none, Option.none_or, ← Symbols.get?] at hl
      rcases find?_denotes hgs name with ⟨_, hget'⟩ | ⟨v, hv, t, ht, hfind, hget', hd⟩
      · rw [hget'] at hl
        cases hl
      · rw [hget'] at hl
        cases hl
        refine Or.inl ⟨v, List.mem_append_right _ hv, ?_, hd, fun home hh =>
          hh.globals symbol ?_ v hd (h.isGlobal v hv)⟩
        · rw [Env.find?, hnone, hfind]
          rfl
        · rw [hglobals]
          exact List.mem_append_right _ ht
  · rw [hget] at hl
    cases hl
    refine Or.inl ⟨v, List.mem_append_left _ hv, ?_, hd, fun home hh =>
      hh.locals symbol ?_ v hd (h.isLocal v hv)⟩
    · rw [Env.find?, hfind]
      rfl
    · rw [SymbolTable.innermost, hlocals]
      exact ht

/-- **A variable that can be used** is one that was declared. -/
theorem names (h : Scene env s) : Names env s := by
  intro name symbol hr
  obtain ⟨hl, -, hproc, -⟩ := SymbolTable.resolveVariable_cases h.regular hr
  rcases h.lookup?_cases hl with hv | ⟨r, -, -, rfl⟩
  · exact hv
  · cases hproc

/-- **A procedure that can be called** is a routine. -/
theorem routine (h : Scene env s) {symbol : Symbol} {params : List ParamShape}
    (hl : s.symbols.lookup? name = some symbol) (hk : symbol.kind = .procedure params) :
    ∃ r ∈ Routine.callable, Routine.callable.find? (·.name == name) = some r ∧
      symbol = r.symbol := by
  rcases h.lookup?_cases hl with ⟨v, -, -, hd, -⟩ | hr
  · have hproc := hd.isProcedure
    rw [Symbol.isProcedure, hk] at hproc
    cases hproc
  · exact hr

end Scene

end ProcLang
