import ProcLang.Proofs.Meaning.Match

/-!
# Blocks that lowering lays out

Branches and loops add blocks, leave the current one, and go on in another. `Spot.Roams` says how a
spot moves: to a block that is new, if not in its own, while the other blocks stay as they are. So a
block that is laid out and left empty is still empty when lowering comes to it.

* `appendBlock_adds`, `appendBlocks_adds`, `moveTo_at`: new blocks, and going there;
* `br_ends`, `condBr_ends`, `fallThrough_ends`: the end of a block;
* `Leads`: what lowering leads to, with the symbols and the variables that they stand for.
-/

namespace ProcLang

open Ir Naming

/-! ## Spots that move -/

/-- The second spot is in the block of the first one or in a new one. The other blocks that were
there stay as they are. -/
structure Spot.Roams (w w' : Spot) : Prop where
  index : w'.index = w.index
  number : w'.number = w.number ∨ w.fn.blocks.length ≤ w'.number
  fn : w.fn.GrowsTo w'.fn
  kept : w.fn.KeptOutside w.number w'.fn

theorem Ir.Function.GrowsTo.length_le {f g : Function} (h : f.GrowsTo g) :
    f.blocks.length ≤ g.blocks.length := by
  by_cases hz : f.blocks.length = 0
  · omega
  · have hlt : f.blocks.length - 1 < f.blocks.length := by omega
    obtain ⟨b, hb, -⟩ := h.blocks _ _ (List.getElem?_eq_getElem hlt)
    have := (List.getElem?_eq_some_iff.mp hb).1
    omega

theorem Spot.Adds.roams {w w' : Spot} {code : List Instr} (h : w.Adds code w') : w.Roams w' :=
  ⟨h.index, Or.inl h.number, h.fn, h.kept⟩

variable {label : String} {n f : Nat}

namespace Spot.Roams

variable {w w1 w2 w' : Spot}

theorem trans (h1 : w.Roams w1) (h2 : w1.Roams w2) : w.Roams w2 where
  index := h2.index.trans h1.index
  number := by
    have := h1.fn.length_le
    have := h1.number
    have := h2.number
    omega
  fn := h1.fn.trans h2.fn
  kept n b b'' hn hb hb'' := by
    obtain ⟨b', hb', -⟩ := h1.fn.blocks n b hb
    have hlt : n < w.fn.blocks.length := (List.getElem?_eq_some_iff.mp hb).1
    have hn' : n ≠ w1.number := by
      have := h1.number
      omega
    exact (h2.kept n b' b'' hn' hb' hb'').trans (h1.kept n b b' hn hb hb')

/-- Going to another block that is new. -/
theorem move (h : w.Roams w1) (hn : w.fn.blocks.length ≤ n) (b : Block) :
    w.Roams ⟨w1.index, w1.fn, n, b⟩ :=
  ⟨h.index, Or.inr hn, h.fn, h.kept⟩

end Spot.Roams

/-- The block with the number has been laid out under the label. It is not that of the spot, and is
still empty. -/
structure Spot.Awaits (w : Spot) (n : Nat) (label : String) : Prop where
  other : n ≠ w.number
  block : ∃ b, w.fn.blocks[n]? = some b ∧ b.label = label ∧ b.body = []

theorem Spot.Awaits.lt {w : Spot} (h : w.Awaits n label) : n < w.fn.blocks.length := by
  obtain ⟨b, hb, -⟩ := h.block
  exact (List.getElem?_eq_some_iff.mp hb).1

/-- **A block that is awaited** stays so, wherever the spot goes otherwise. -/
theorem Spot.Roams.awaits {w w' : Spot} (h : w.Roams w') (ha : w.Awaits n label) :
    w'.Awaits n label := by
  have hlt := ha.lt
  have hother := ha.other
  obtain ⟨b, hb, hlabel, hbody⟩ := ha.block
  obtain ⟨b', hb', hlabel', -⟩ := h.fn.blocks n b hb
  refine ⟨?_, b', hb', hlabel'.trans hlabel, (h.kept n b b' hother hb hb').trans hbody⟩
  have := h.number
  omega

/-- The block with the number has the label. -/
def Spot.Labels (w : Spot) (n : Nat) (label : String) : Prop :=
  ∃ b, w.fn.blocks[n]? = some b ∧ b.label = label

theorem Spot.Awaits.labels {w : Spot} (h : w.Awaits n label) : w.Labels n label := by
  obtain ⟨b, hb, hlabel, -⟩ := h.block
  exact ⟨b, hb, hlabel⟩

theorem Spot.Roams.labels {w w' : Spot} (h : w.Roams w') (hl : w.Labels n label) :
    w'.Labels n label := by
  obtain ⟨b, hb, hlabel⟩ := hl
  obtain ⟨b', hb', hlabel', -⟩ := h.fn.blocks n b hb
  exact ⟨b', hb', hlabel'.trans hlabel⟩

theorem Spot.Awaits.move {w : Spot} {n m : Nat} (h : w.Awaits m label) (hne : m ≠ n) (b : Block) :
    (⟨w.index, w.fn, n, b⟩ : Spot).Awaits m label :=
  ⟨hne, h.block⟩

/-! ## Building blocks -/

/-- The second state comes from the first one by an instruction that ends the block. -/
structure Lowering.Ends (s : Lowering) (w : Spot) (i : Instr) (s' : Lowering) (w' : Spot) :
    Prop extends s.Still s' where
  placed : s'.In w'
  spot : w.Adds [i] w'

variable {s s' : Lowering} {w : Spot}

theorem Lowering.At.number_lt (hs : s.At w) : w.number < w.fn.blocks.length :=
  hs.placed.block

/-- **A new block** is empty. -/
theorem appendBlock_adds (hs : s.At w) (hf : w.index = f) {hint : String} {c : Ir.Cursor}
    (run : Lower.build (.appendBlock hint) s = .ok (c, s')) :
    c = ⟨f, w.fn.blocks.length⟩ ∧ ∃ w' label, s.Adds w [] s' w' ∧
      w'.fn.blocks.length = w.fn.blocks.length + 1 ∧ w'.Awaits w.fn.blocks.length label := by
  subst hf
  obtain ⟨b, hb, rfl⟩ := build_inv run
  rw [Build.appendBlock_run hs.placed] at hb
  cases hb
  have hblock := Function.getElem?_pushBlock ⟨w.fn.freshName hint, []⟩ hs.block
  have hlt : w.number < (w.fn.append hint).blocks.length := by
    rw [Function.append_length]
    exact Nat.lt_succ_of_lt hs.number_lt
  refine ⟨rfl, ⟨w.index, w.fn.append hint, w.number, w.block⟩, w.fn.freshName hint, ?_,
    Function.append_length _ _, (Nat.ne_of_gt hs.number_lt), ?_⟩
  · refine ⟨⟨hs.placed.put_growsTo (g := w.fn.append hint) rfl _, rfl, rfl, rfl⟩,
      ⟨⟨hs.placed.put hlt, hblock⟩, hs.isOpen⟩,
      ⟨rfl, rfl, (List.append_nil _).symm, .append _ _, ?_⟩⟩
    intro n b b' _ hb hb'
    have := Function.getElem?_pushBlock ⟨w.fn.freshName hint, []⟩ hb
    rw [show (w.fn.append hint).blocks[n]? = some b from this] at hb'
    cases hb'
    rfl
  · exact ⟨⟨w.fn.freshName hint, []⟩, by simp [Function.append], rfl, rfl⟩

/-- **Two new blocks**, one behind the other. -/
theorem appendBlocks_adds {s1 : Lowering} (hs : s.At w) (hf : w.index = f) {hint1 hint2 : String}
    {c1 c2 : Ir.Cursor} (run1 : Lower.build (.appendBlock hint1) s = .ok (c1, s1))
    (run2 : Lower.build (.appendBlock hint2) s1 = .ok (c2, s')) :
    c1 = ⟨f, w.fn.blocks.length⟩ ∧ c2 = ⟨f, w.fn.blocks.length + 1⟩ ∧ ∃ w' label1 label2,
      s.Adds w [] s' w' ∧ w'.fn.blocks.length = w.fn.blocks.length + 2 ∧
      w'.Awaits w.fn.blocks.length label1 ∧ w'.Awaits (w.fn.blocks.length + 1) label2 := by
  obtain ⟨rfl, w1, label1, hadds1, hlen1, ha1⟩ := appendBlock_adds hs hf run1
  obtain ⟨rfl, w2, label2, hadds2, hlen2, ha2⟩ :=
    appendBlock_adds hadds1.placed (hadds1.spot.index.trans hf) run2
  rw [hlen1] at hlen2 ha2 ⊢
  exact ⟨rfl, rfl, w2, label1, label2, hadds1.trans hadds2, hlen2,
    hadds2.spot.roams.awaits ha1, ha2⟩

/-- **Going to a block** that is awaited. -/
theorem moveTo_at (hs : s.In w) (hf : w.index = f) (ha : w.Awaits n label)
    (run : Lower.build (.moveTo ⟨f, n⟩) s = .ok ((), s')) :
    ∃ b, b.label = label ∧ b.body = [] ∧ s.Still s' ∧ s'.At ⟨w.index, w.fn, n, b⟩ := by
  subst hf
  obtain ⟨builder, hrun, rfl⟩ := build_inv run
  rw [Build.moveTo_run hs.placed] at hrun
  cases hrun
  obtain ⟨b, hb, hlabel, hbody⟩ := ha.block
  refine ⟨b, hlabel, hbody, ⟨hs.placed.put_growsTo rfl _, rfl, rfl, rfl⟩,
    ⟨⟨hs.placed.put ha.lt, hb⟩, ?_⟩⟩
  exact Block.isTerminated_congr (c := ⟨b.label, []⟩) hbody

theorem emit_ends (hs : s.At w) {i : Instr} (ha : i.isAlloca = false)
    (run : Lower.build (.emit i) s = .ok ((), s')) : ∃ w', s.Ends w i s' w' := by
  obtain ⟨b, hb, rfl⟩ := build_inv run
  rw [Build.emit_run hs.placed, Function.room_of_open hs.block hs.isOpen] at hb
  cases hb
  obtain ⟨hstill, hin, hspot⟩ := push_in (f := w.fn) hs rfl rfl (Nat.le_refl _) ha
  exact ⟨_, hstill, hin, hspot⟩

theorem br_ends (hs : s.At w) (hf : w.index = f) (hl : w.Labels n label)
    (run : Lower.build (.br ⟨f, n⟩) s = .ok ((), s')) : ∃ w', s.Ends w (.br label) s' w' := by
  subst hf
  obtain ⟨b, hb, rfl⟩ := hl
  refine emit_ends hs rfl ?_
  rw [← run]
  unfold Lower.build
  rw [Build.br_run hs.placed hb]

theorem condBr_ends (hs : s.At w) (hf : w.index = f) {cond : Value} {n m : Nat} {yes no : String}
    (hyes : w.Labels n yes) (hno : w.Labels m no)
    (run : Lower.build (.condBr cond ⟨f, n⟩ ⟨f, m⟩) s = .ok ((), s')) :
    ∃ w', s.Ends w (.condBr cond yes no) s' w' := by
  subst hf
  obtain ⟨b, hb, rfl⟩ := hyes
  obtain ⟨c, hc, rfl⟩ := hno
  refine emit_ends hs rfl ?_
  rw [← run]
  unfold Lower.build
  rw [Build.condBr_run hs.placed cond hb hc]

/-- An open block is ended by going on elsewhere. -/
theorem fallThrough_ends (hs : s.At w) (hf : w.index = f) (hl : w.Labels n label) {ended : Bool}
    (run : Lower.fallThrough ⟨f, n⟩ s = .ok (ended, s')) :
    ended = false ∧ ∃ w', s.Ends w (.br label) s' w' := by
  have hopen : Lower.build .isTerminated s = .ok (false, s) := by
    unfold Lower.build
    rw [Build.isTerminated_run hs.placed hs.block, hs.isOpen]
  rw [Lower.fallThrough, run_bind hopen, if_neg Bool.false_ne_true] at run
  obtain ⟨⟨⟩, s1, run1, run2⟩ := run_bind_inv run
  cases run2
  exact ⟨rfl, br_ends hs hf hl run1⟩

/-! ## What lowering leads to -/

/-- The symbol stands for a variable that the module has. -/
def Symbol.Global (m : Module) (symbol : Symbol) : Prop :=
  ∃ name len, symbol.kind = Lower.variableKind len ∧ symbol.binding = .address name ∧
    m.global? name = some ⟨name, Lower.storageType symbol.ty len, .variable⟩

theorem Symbol.Global.mono {m m' : Module} {symbol : Symbol} (h : symbol.Global m)
    (hm : m.GrowsTo m') : symbol.Global m' := by
  obtain ⟨name, len, hkind, hbinding, hglobal⟩ := h
  exact ⟨name, len, hkind, hbinding, hm.global? hglobal⟩

/-- No two variables share storage: the registers of local variables were handed out by the
function, and the global ones are in the module. -/
structure Apart (s : Lowering) (w : Spot) : Prop where
  locals : ∀ scope ∈ s.symbols.locals, (scope.symbols.map Symbol.binding).Nodup ∧
    ∀ symbol ∈ scope.symbols, ∃ r, symbol.binding = .register .ptr r ∧ Issued w.fn.nextId r
  globals : ∃ symbols, s.symbols.globals = Routine.callable.map Routine.symbol ++ symbols ∧
    (symbols.map Symbol.binding).Nodup ∧ ∀ symbol ∈ symbols, symbol.Global s.builder.module

theorem Lowering.Still.apart {w' : Spot} (h : s.Still s') (hw : w.fn.GrowsTo w'.fn)
    (ha : Apart s w) : Apart s' w' where
  locals := by
    rw [h.locals]
    intro scope hs
    obtain ⟨hnodup, hissued⟩ := ha.locals scope hs
    refine ⟨hnodup, fun symbol hsymbol => ?_⟩
    obtain ⟨r, hr, hr'⟩ := hissued symbol hsymbol
    exact ⟨r, hr, hr'.mono hw.nextId⟩
  globals := by
    rw [h.globals]
    obtain ⟨symbols, hglobals, hnodup, hnamed⟩ := ha.globals
    exact ⟨symbols, hglobals, hnodup, fun symbol hsymbol => (hnamed symbol hsymbol).mono h.module⟩

/-- Lowering leads from one state and spot to others. The variables that were declared before and
behind it are given too. -/
structure Leads (env : Env) (s : Lowering) (w : Spot) (env' : Env) (s' : Lowering) (w' : Spot) :
    Prop where
  spot : w.Roams w'
  module : s.builder.module.GrowsTo s'.builder.module
  symbols : s.symbols.GrowsTo s'.symbols
  vars : env.vars ⊆ env'.vars
  scene : Scene env' s'
  apart : Apart s w → Apart s' w'

variable {env env' env'' : Env} {s'' : Lowering} {w' w'' : Spot}

theorem Lowering.Still.leads (h : s.Still s') (hs : Scene env s) (hw : w.Roams w') :
    Leads env s w env s' w' :=
  ⟨hw, h.module, h.symbols, List.Subset.refl _, h.scene hs, h.apart hw.fn⟩

theorem Leads.trans (h1 : Leads env s w env' s' w') (h2 : Leads env' s' w' env'' s'' w'') :
    Leads env s w env'' s'' w'' where
  spot := h1.spot.trans h2.spot
  module := h1.module.trans h2.module
  symbols := h1.symbols.trans h2.symbols
  vars := List.Subset.trans h1.vars h2.vars
  scene := h2.scene
  apart ha := h2.apart (h1.apart ha)

/-- Going to a new block. -/
theorem Leads.move (h : Leads env s w env' s' w') (hs : s'.Still s'') (hn : w.fn.blocks.length ≤ n)
    (b : Block) : Leads env s w env' s'' ⟨w'.index, w'.fn, n, b⟩ where
  spot := h.spot.move hn b
  module := h.module.trans hs.module
  symbols := h.symbols.trans hs.symbols
  vars := h.vars
  scene := hs.scene h.scene
  apart ha := hs.apart (w := w') (.refl w'.fn) (h.apart ha)

theorem Leads.knows (h : Leads env s w env' s' w') {W : World} {T : Target W}
    (hk : T.Knows env' s') : T.Knows env s :=
  ⟨h.module.trans hk.module, hk.homes.anti h.symbols, List.Subset.trans h.vars hk.vars⟩

end ProcLang
