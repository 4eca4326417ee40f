import ProcLang.Proofs.Building
import ProcLang.Proofs.FunctionSound
import ProcLang.Proofs.Scopes

/-!
# Stages of lowering

A `Stage` is a state of lowering together with what is known of the function that the cursor is in:
the function itself, the registers that each of its blocks may rely on, and the arrays that it was
passed. Three relations say what lowering does:

* `Stage.Grows`: things are added and nothing is taken away. Functions that are added are finished,
  and the other functions stay as they are.
* `Stage.Roams`: moreover only the block at the cursor and new blocks gain instructions, and what
  could be read at the old cursor can be read at the new one.
* `Stage.Flows`: moreover no block is left to be finished later that was not so before.

`Stage.Sound` is the invariant of lowering, and `Stage.Takes` says that a lowering step has an
answer at a stage, and leads to one at which the invariant holds again.
-/

namespace ProcLang

open Ir Naming

/-- What is known of the headings of functions: name, result, parameters, and the arrays among the
parameters with the types of their storage. -/
abbrev Headings := String → Ir.Ty → List Param → List Param → Prop

/-- The type of what a frame returns. -/
def Frame.ret : Frame → Ty
  | program => .integer
  | procedure ret => ret

/-! ## Sound symbols -/

namespace Symbol

/-- The symbol is bound to storage of its type. -/
def Located (env : Interface) (f : Function) (arrays : List Param) (s : Symbol) : Prop :=
  match s.kind with
  | .variable => Stored env f arrays s.binding s.ty.ir
  | .array len => Stored env f arrays s.binding (s.ty.irArray len)
  | .procedure _ => True

/-- If the symbol is a procedure, it can be called with arguments of the types of its parameters. -/
def Callable (env : Interface) (s : Symbol) : Prop :=
  ∀ params, s.kind = .procedure params →
    ⟨s.irName, s.ty.ir, params.map ParamShape.passed⟩ ∈ env.callees

theorem Located.mono {env env' : Interface} {f g : Function} {arrays : List Param} {s : Symbol}
    (h : s.Located env f arrays) (he : env.Extends env') (hfg : f.Extends g) :
    s.Located env' g arrays := by
  unfold Located at h ⊢
  split at h
  · exact h.mono he hfg
  · exact h.mono he hfg
  · trivial

theorem Callable.mono {env env' : Interface} {s : Symbol} (h : s.Callable env)
    (he : env.Extends env') : s.Callable env' :=
  fun params hk => he.callees (h params hk)

end Symbol

/-- The symbols of a table are bound to what they stand for, as seen from the function `f`.
Variables of the scopes around the innermost one belong to other functions and cannot be used. -/
structure SymbolTable.Sound (m : Module) (f : Function) (arrays : List Param) (t : SymbolTable) :
    Prop where
  regular : t.Regular
  nonempty : t.locals ≠ []
  locals : ∀ scope ∈ t.locals.head?, ∀ s ∈ scope.symbols, s.Located m.interface f arrays
  procedures : ∀ scope ∈ t.locals, ∀ s ∈ scope.symbols, s.Callable m.interface
  globals : ∀ s ∈ t.globals, (∀ g arrays, s.Located m.interface g arrays) ∧
    (s.Callable m.interface ∨ ∃ r ∈ Routine.callable, s = r.symbol)
  routines : ∀ r ∈ Routine.callable, t.globals.contains r.name = true
  /-- A function that has the name of a routine hides the routine from all scopes. -/
  hidden : ∀ r ∈ Routine.callable, r.name ∈ m.functions.map Function.name →
    ∃ scope ∈ t.locals.getLast?, scope.symbols.contains r.name = true

theorem SymbolTable.Sound.mono {m m' : Module} {f g : Function} {arrays : List Param}
    {t : SymbolTable} (h : t.Sound m f arrays) (he : m.interface.Extends m'.interface)
    (hn : m'.functions.map Function.name = m.functions.map Function.name) (hfg : f.Extends g) :
    t.Sound m' g arrays where
  regular := h.regular
  nonempty := h.nonempty
  locals scope hs s hs' := (h.locals scope hs s hs').mono he hfg
  procedures scope hs s hs' := (h.procedures scope hs s hs').mono he
  globals s hs :=
    ⟨fun g arrays => ((h.globals s hs).1 g arrays).mono he (.refl g),
      (h.globals s hs).2.imp (·.mono he) id⟩
  routines := h.routines
  hidden r hr hmem := h.hidden r hr (hn ▸ hmem)

/-- The innermost scope gains symbols, the others stay as they are. -/
def ScopesGrow : List Scope → List Scope → Prop
  | [], [] => True
  | s :: outer, s' :: outer' => s'.label = s.label ∧ s.symbols <+: s'.symbols ∧ outer' = outer
  | _, _ => False

theorem ScopesGrow.refl : ∀ (scopes : List Scope), ScopesGrow scopes scopes
  | [] => trivial
  | _ :: _ => ⟨rfl, List.prefix_rfl, rfl⟩

theorem ScopesGrow.trans :
    ∀ {a b c : List Scope}, ScopesGrow a b → ScopesGrow b c → ScopesGrow a c
  | [], [], [], _, _ => trivial
  | _ :: _, _ :: _, _ :: _, ⟨l1, p1, o1⟩, ⟨l2, p2, o2⟩ => ⟨l2.trans l1, p1.trans p2, o2.trans o1⟩

/-! ## Finished functions -/

/-- A function whose blocks have all ended. -/
def Finished (D : Headings) (env : Interface) (f : Function) : Prop :=
  ∃ arrays avail, f.Sound env arrays avail ∧ (∀ b ∈ f.blocks, b.isTerminated = true) ∧
    D f.name f.ret f.params arrays

theorem Finished.mono {D : Headings} {env env' : Interface} {f : Function}
    (h : Finished D env f) (he : env.Extends env') : Finished D env' f := by
  obtain ⟨arrays, avail, hs, ht, hd⟩ := h
  exact ⟨arrays, avail, hs.mono he, ht, hd⟩

/-! ## Stages -/

/-- A state of lowering and what is known of the function that the cursor is in. -/
structure Stage where
  state : Lowering
  /-- The number of the function. -/
  index : Nat
  fn : Function
  /-- The number of the block. -/
  block : Nat
  /-- The registers that each block may rely on. -/
  avail : Nat → String → Prop
  /-- The blocks that are to be finished later. -/
  pending : List Nat
  /-- The arrays that the function was passed, with the types of their storage. -/
  arrays : List Param

namespace Stage

/-- The module under construction. -/
def module (st : Stage) : Module := st.state.builder.module

/-- What functions see of the module. -/
def env (st : Stage) : Interface := st.module.interface

/-- The registers that were written on every way to the cursor. -/
def Local (st : Stage) (r : String) : Prop :=
  st.avail st.block r ∨ ∃ b, st.fn.blocks[st.block]? = some b ∧ r ∈ b.defs

/-- The registers that can be read at the cursor. -/
def Known (st : Stage) (r : String) : Prop :=
  st.fn.Everywhere r ∨ st.Local r

/-- The value can be used at the cursor. -/
def Offers (st : Stage) (v : Value) : Prop :=
  v.Typed st.fn ∧ ∀ r, v.operand = .register r → st.Known r

/-- The value can be used at the cursor as one of a type. -/
def Holds (st : Stage) (v : Value) (ty : Ty) : Prop :=
  v.ty = ty.ir ∧ st.Offers v

/-- Nothing ends the block at the cursor. -/
def Open (st : Stage) : Prop :=
  ∃ b, st.fn.blocks[st.block]? = some b ∧ b.isTerminated = false

/-- The invariant of lowering. -/
structure Sound (D : Headings) (st : Stage) : Prop where
  placed : st.state.builder.At st.index st.fn st.block
  code : st.fn.Sound st.env st.arrays st.avail
  heading : D st.fn.name st.fn.ret st.fn.params st.arrays
  passed : ∀ a ∈ st.arrays, ⟨a.name, .ptr⟩ ∈ st.fn.params
  frame : ∃ frame outer, st.state.frames = frame :: outer ∧ st.fn.ret = frame.ret.ir
  ended : ∀ n b, st.fn.blocks[n]? = some b → b.isTerminated = false →
    n = st.block ∨ n ∈ st.pending
  declarations : ∀ d ∈ st.module.declarations,
    ∃ r ∈ Routine.callable ++ [Routine.stringEquals], d = r.declaration
  symbols : st.state.symbols.Sound st.module st.fn st.arrays

/-- Things are added and nothing is taken away. -/
structure Grows (D : Headings) (st st' : Stage) : Prop where
  placed : st.index < st.module.functions.length
  index : st'.index = st.index
  arrays : st'.arrays = st.arrays
  fn : st.fn.Extends st'.fn
  blocks : ∀ (n : Nat) (b : Block), st.fn.blocks[n]? = some b →
    ∃ b', st'.fn.blocks[n]? = some b' ∧ b'.label = b.label ∧ b.body <+: b'.body
  avail : ∀ n, n < st.fn.blocks.length → st'.avail n = st.avail n
  env : st.env.Extends st'.env
  functions : st.module.functions.length ≤ st'.module.functions.length
  others : ∀ (i : Nat) (f : Function), i ≠ st.index → st.module.functions[i]? = some f →
    st'.module.functions[i]? = some f
  added : ∀ (i : Nat) (f : Function), st.module.functions.length ≤ i →
    st'.module.functions[i]? = some f → Finished D st'.env f ∧
      (st'.state.errors = st.state.errors → (f.params.map Param.name).Nodup)
  scopes : ScopesGrow st.state.symbols.locals st'.state.symbols.locals
  globals : st.state.symbols.globals <+: st'.state.symbols.globals
  frames : st'.state.frames = st.state.frames
  errors : st.state.errors <+: st'.state.errors

/-- The cursor stays in its block or goes to a new one, where what could be read before can be read
again. The other old blocks stay as they are, apart from storage that is reserved. -/
structure Roams (D : Headings) (st st' : Stage) : Prop extends Grows D st st' where
  block : st'.block = st.block ∨ st.fn.blocks.length ≤ st'.block
  kept : ∀ (n : Nat) (b b' : Block), n ≠ st.block → st.fn.blocks[n]? = some b →
    st'.fn.blocks[n]? = some b' → b'.body = b.body
  written : ∀ r, st.Local r → st'.Local r

/-- Moreover no block is left to be finished later that was not so before. -/
structure Flows (D : Headings) (st st' : Stage) : Prop extends Roams D st st' where
  pending : st'.pending = st.pending

variable {D : Headings} {st st' st'' : Stage}

/-! ## The relations are preorders -/

theorem Grows.refl (h : st.index < st.module.functions.length) : st.Grows D st where
  placed := h
  index := rfl
  arrays := rfl
  fn := .refl _
  blocks _ b hb := ⟨b, hb, rfl, List.prefix_rfl⟩
  avail _ _ := rfl
  env := .refl _
  functions := Nat.le_refl _
  others _ _ _ hf := hf
  added _ _ hi hf := absurd (List.getElem?_eq_some_iff.mp hf).1 (Nat.not_lt.mpr hi)
  scopes := .refl _
  globals := List.prefix_rfl
  frames := rfl
  errors := List.prefix_rfl

theorem Grows.length_le (h : st.Grows D st') : st.fn.blocks.length ≤ st'.fn.blocks.length := by
  by_cases hz : st.fn.blocks.length = 0
  · omega
  · have hlt : st.fn.blocks.length - 1 < st.fn.blocks.length := by omega
    obtain ⟨b', hb', -⟩ := h.blocks _ _ (List.getElem?_eq_getElem hlt)
    have := (List.getElem?_eq_some_iff.mp hb').1
    omega

/-- A function other than the one at the cursor was there before, or it is finished. -/
theorem Grows.function_cases (h : st.Grows D st') {i : Nat} {f : Function} (hi : i ≠ st.index)
    (hf : st'.module.functions[i]? = some f) :
    st.module.functions[i]? = some f ∨ (Finished D st'.env f ∧
      (st'.state.errors = st.state.errors → (f.params.map Param.name).Nodup)) := by
  by_cases hold : i < st.module.functions.length
  · obtain ⟨g, hg⟩ : ∃ g, st.module.functions[i]? = some g :=
      ⟨_, List.getElem?_eq_getElem hold⟩
    rw [show f = g from Option.some.inj (hf.symm.trans (h.others i g hi hg))]
    exact Or.inl hg
  · exact Or.inr (h.added i f (Nat.le_of_not_lt hold) hf)

/-- Errors are never taken back, so none came in between if none came at all. -/
theorem errors_between {a b c : List LowerError} (h1 : a <+: b) (h2 : b <+: c) (h : c = a) :
    b = a ∧ c = b := by
  subst h
  have : c = b := h1.eq_of_length_le h2.length_le
  exact ⟨this.symm, this⟩

theorem Grows.trans (h1 : st.Grows D st') (h2 : st'.Grows D st'') : st.Grows D st'' where
  placed := h1.placed
  index := h2.index.trans h1.index
  arrays := h2.arrays.trans h1.arrays
  fn := h1.fn.trans h2.fn
  blocks n b hb := by
    obtain ⟨b', hb', hl, hp⟩ := h1.blocks n b hb
    obtain ⟨b'', hb'', hl', hp'⟩ := h2.blocks n b' hb'
    exact ⟨b'', hb'', hl'.trans hl, hp.trans hp'⟩
  avail n hn := (h2.avail n (Nat.lt_of_lt_of_le hn h1.length_le)).trans (h1.avail n hn)
  env := h1.env.trans h2.env
  functions := Nat.le_trans h1.functions h2.functions
  others i f hne hf := h2.others i f (h1.index ▸ hne) (h1.others i f hne hf)
  added i f hle hf := by
    have none_between := errors_between h1.errors h2.errors
    -- a function that the first part added is not the one at the cursor, so it stays
    have hne : i ≠ st'.index := by
      rw [h1.index]
      exact Nat.ne_of_gt (Nat.lt_of_lt_of_le h1.placed hle)
    rcases h2.function_cases hne hf with hold | ⟨hfin, hdistinct⟩
    · obtain ⟨hfin, hdistinct⟩ := h1.added i f hle hold
      exact ⟨hfin.mono h2.env, fun he => hdistinct (none_between he).1⟩
    · exact ⟨hfin, fun he => hdistinct (none_between he).2⟩
  scopes := h1.scopes.trans h2.scopes
  globals := h1.globals.trans h2.globals
  frames := h2.frames.trans h1.frames
  errors := h1.errors.trans h2.errors

theorem Roams.refl (h : st.index < st.module.functions.length) : st.Roams D st where
  toGrows := .refl h
  block := Or.inl rfl
  kept n b b' _ hb hb' := by
    rw [hb] at hb'
    cases hb'
    rfl
  written _ := id

theorem Roams.trans (h1 : st.Roams D st') (h2 : st'.Roams D st'') : st.Roams D st'' where
  toGrows := h1.toGrows.trans h2.toGrows
  block := by
    have := h1.length_le
    have := h1.block
    have := h2.block
    omega
  kept n b b'' hn hb hb'' := by
    obtain ⟨b', hb', -⟩ := h1.blocks n b hb
    have hlt : n < st.fn.blocks.length := (List.getElem?_eq_some_iff.mp hb).1
    have hn' : n ≠ st'.block := by
      have := h1.block
      omega
    exact (h2.kept n b' b'' hn' hb' hb'').trans (h1.kept n b b' hn hb hb')
  written r hr := h2.written r (h1.written r hr)

theorem Flows.refl (h : st.index < st.module.functions.length) : st.Flows D st :=
  ⟨.refl h, rfl⟩

theorem Flows.trans (h1 : st.Flows D st') (h2 : st'.Flows D st'') : st.Flows D st'' where
  toRoams := h1.toRoams.trans h2.toRoams
  pending := h2.pending.trans h1.pending

/-! ## What can be used stays so -/

theorem Roams.known (h : st.Roams D st') {r : String} (hr : st.Known r) : st'.Known r :=
  hr.imp (·.mono h.fn) (h.written r)

theorem Roams.offers (h : st.Roams D st') {v : Value} (hv : st.Offers v) : st'.Offers v :=
  ⟨hv.1.mono h.fn, fun r hr => h.known (hv.2 r hr)⟩

theorem Roams.holds (h : st.Roams D st') {v : Value} {ty : Ty} (hv : st.Holds v ty) :
    st'.Holds v ty :=
  ⟨hv.1, h.offers hv.2⟩

/-- Storage can be used everywhere in the function. -/
theorem Sound.offers_stored (h : st.Sound D) {v : Value} {ty : Ir.Ty}
    (hv : Stored st.env st.fn st.arrays v ty) : st.Offers v := by
  unfold Stored at hv
  unfold Offers Value.Typed
  split at hv
  · rename_i r hr
    obtain ⟨hptr, hi | ha⟩ := hv
    · refine ⟨?_, fun r' hr' => ?_⟩
      · rw [hr]
        exact Or.inr ⟨_, hi, by rw [hptr]; rfl⟩
      · rw [hr] at hr'
        cases hr'
        exact Or.inl (Or.inr ⟨ty, hi⟩)
    · refine ⟨?_, fun r' hr' => ?_⟩
      · rw [hr]
        exact Or.inl (hptr ▸ h.passed _ ha)
      · rw [hr] at hr'
        cases hr'
        exact Or.inl (Or.inl ⟨_, h.passed _ ha, rfl⟩)
  · rename_i name hs
    refine ⟨?_, fun r hr => ?_⟩
    · rw [hs]
      exact hv.1
    · rw [hs] at hr
      cases hr
  · exact hv.elim

theorem Sound.function (h : st.Sound D) : st.module.functions[st.index]? = some st.fn :=
  h.placed.function

theorem Sound.exists_block (h : st.Sound D) : ∃ b, st.fn.blocks[st.block]? = some b :=
  ⟨_, List.getElem?_eq_getElem h.placed.block⟩

/-! ## Steps -/

/-- Moreover no symbol was declared on the way. -/
structure Calm (D : Headings) (st st' : Stage) : Prop extends Flows D st st' where
  locals : st'.state.symbols.locals = st.state.symbols.locals
  same_globals : st'.state.symbols.globals = st.state.symbols.globals

theorem Calm.trans (h1 : st.Calm D st') (h2 : st'.Calm D st'') : st.Calm D st'' where
  toFlows := h1.toFlows.trans h2.toFlows
  locals := h2.locals.trans h1.locals
  same_globals := h2.same_globals.trans h1.same_globals

theorem Sound.flows_refl (h : st.Sound D) : st.Flows D st :=
  .refl h.placed.index_lt

theorem Sound.calm_refl (h : st.Sound D) : st.Calm D st :=
  ⟨h.flows_refl, rfl, rfl⟩

/-- A relation between stages that the steps in a row are related by if each of them is. -/
structure Way (D : Headings) where
  rel : Stage → Stage → Prop
  refl : ∀ {st}, st.Sound D → rel st st
  trans : ∀ {st st' st''}, rel st st' → rel st' st'' → rel st st''

/-- The way of steps that may declare symbols. -/
abbrev flow (D : Headings) : Way D := ⟨Flows D, Sound.flows_refl, Flows.trans⟩

/-- The way of steps that declare no symbols. -/
abbrev calm (D : Headings) : Way D := ⟨Calm D, Sound.calm_refl, Calm.trans⟩

/-- The step has an answer at the stage. It leads along the way to a stage at which the invariant
holds again. -/
def Takes {α : Type} {D : Headings} (way : Way D) (st : Stage) (x : Lower α)
    (post : α → Stage → Prop) : Prop :=
  ∃ a st', x st.state = .ok (a, st'.state) ∧ st'.Sound D ∧ way.rel st st' ∧ post a st'

section Takes

variable {α β : Type} {way : Way D} {x : Lower α} {post : α → Stage → Prop}

theorem takes_pure (h : st.Sound D) {a : α} (ha : post a st) : Takes way st (pure a) post :=
  ⟨a, st, rfl, h, way.refl h, ha⟩

theorem Takes.bind {f : α → Lower β} {post' : β → Stage → Prop} (hx : Takes way st x post)
    (hf : ∀ a st', st'.Sound D → way.rel st st' → post a st' → Takes way st' (f a) post') :
    Takes way st (x >>= f) post' := by
  obtain ⟨a, st', run, hs, hway, ha⟩ := hx
  obtain ⟨b, st'', run', hs', hway', hb⟩ := hf a st' hs hway ha
  exact ⟨b, st'', (run_bind run).trans run', hs', way.trans hway hway', hb⟩

theorem Takes.mono {post' : α → Stage → Prop} (hx : Takes way st x post)
    (h : ∀ a st', st'.Sound D → way.rel st st' → post a st' → post' a st') :
    Takes way st x post' := by
  obtain ⟨a, st', run, hs, hway, ha⟩ := hx
  exact ⟨a, st', run, hs, hway, h a st' hs hway ha⟩

theorem Takes.map {g : α → β} {post' : β → Stage → Prop} (hx : Takes way st x post)
    (h : ∀ a st', st'.Sound D → way.rel st st' → post a st' → post' (g a) st') :
    Takes way st (g <$> x) post' := by
  obtain ⟨a, st', run, hs, hway, ha⟩ := hx
  exact ⟨g a, st', run_map run, hs, hway, h a st' hs hway ha⟩

/-- The answer is that of the step. -/
theorem Takes.ran (hx : Takes way st x post) :
    Takes way st x fun a st' => x st.state = .ok (a, st'.state) ∧ post a st' := by
  obtain ⟨a, st', run, hs, hway, ha⟩ := hx
  exact ⟨a, st', run, hs, hway, run, ha⟩

/-- A step that leaves the state as it is. -/
theorem takes_same {a : α} {f : α → Lower β} {post' : β → Stage → Prop}
    (run : x st.state = .ok (a, st.state)) (h : Takes way st (f a) post') :
    Takes way st (x >>= f) post' := by
  obtain ⟨b, st', run', rest⟩ := h
  exact ⟨b, st', (run_bind run).trans run', rest⟩

theorem takes_get {f : Lowering → Lower β} {post' : β → Stage → Prop}
    (h : Takes way st (f st.state) post') : Takes way st (get >>= f) post' :=
  takes_same run_get h

theorem Takes.toFlow (hx : Takes (calm D) st x post) : Takes (flow D) st x post := by
  obtain ⟨a, st', run, hs, hcalm, ha⟩ := hx
  exact ⟨a, st', run, hs, hcalm.toFlows, ha⟩

theorem Takes.calmly (hx : Takes (calm D) st x post) :
    Takes (flow D) st x fun a st' => st.Calm D st' ∧ post a st' := by
  obtain ⟨a, st', run, hs, hcalm, ha⟩ := hx
  exact ⟨a, st', run, hs, hcalm.toFlows, hcalm, ha⟩

end Takes

end Stage

end ProcLang
