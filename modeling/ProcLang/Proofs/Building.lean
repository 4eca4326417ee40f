import ProcLang.Lower.State
import ProcLang.Proofs.Code

/-!
# What building steps do

A builder whose cursor stands at the end of a block is described by the function that the cursor is
in (`Builder.At`). The steps that need a cursor then have an answer, and all they change is that
function and the place of the cursor in it (`Builder.put`). For each step this file says what the
function becomes, and the other way round what a step that has an answer did.
-/

namespace ProcLang

/-! ## Steps in order -/

section Run

variable {σ ε α β : Type} {s s' : σ} {a : α}

theorem run_bind {x : StateT σ (Except ε) α} {f : α → StateT σ (Except ε) β}
    (h : x s = .ok (a, s')) : (x >>= f) s = f a s' := by
  simp only [bind, StateT.bind, Except.bind, h]

theorem run_bind_error {x : StateT σ (Except ε) α} {f : α → StateT σ (Except ε) β} {e : ε}
    (h : x s = .error e) : (x >>= f) s = .error e := by
  simp only [bind, StateT.bind, Except.bind, h]

/-- The parts of a run of two steps. -/
theorem run_bind_inv {x : StateT σ (Except ε) α} {f : α → StateT σ (Except ε) β} {b : β}
    (h : (x >>= f) s = .ok (b, s')) : ∃ a s1, x s = .ok (a, s1) ∧ f a s1 = .ok (b, s') := by
  cases hx : x s with
  | error e =>
    rw [run_bind_error hx] at h
    cases h
  | ok r => exact ⟨r.1, r.2, rfl, by rw [← h, run_bind hx]⟩

theorem run_map {x : StateT σ (Except ε) α} {g : α → β} (h : x s = .ok (a, s')) :
    (g <$> x) s = .ok (g a, s') := by
  simp only [Functor.map, StateT.map, bind, Except.bind, h, pure, Except.pure]

theorem run_map_inv {x : StateT σ (Except ε) α} {g : α → β} {b : β}
    (h : (g <$> x) s = .ok (b, s')) : ∃ a, x s = .ok (a, s') ∧ b = g a := by
  rw [map_eq_pure_bind] at h
  obtain ⟨a, s1, hx, hb⟩ := run_bind_inv h
  cases hb
  exact ⟨a, hx, rfl⟩

theorem run_pure (a : α) : (pure a : StateT σ (Except ε) α) s = .ok (a, s) := rfl

theorem run_get : (get : StateT σ (Except ε) σ) s = .ok (s, s) := rfl

theorem run_modify (g : σ → σ) : (modify g : StateT σ (Except ε) Unit) s = .ok ((), g s) := rfl

theorem eq_ok_of_mem_toOption {x : Except ε α} (h : a ∈ x.toOption) : x = .ok a := by
  cases x with
  | error e => cases h
  | ok b =>
    cases h
    rfl

end Run

/-- Runs a building step on the module. -/
theorem build_run {α : Type} {step : Ir.Build α} {s : Lowering} {a : α} {b : Ir.Builder}
    (run : step s.builder = .ok (a, b)) :
    Lower.build step s = .ok (a, { s with builder := b }) := by
  rw [Lower.build, run]

/-- What a building step does to the state of lowering. -/
theorem build_inv {α : Type} {step : Ir.Build α} {s s' : Lowering} {a : α}
    (h : Lower.build step s = .ok (a, s')) :
    ∃ b, step s.builder = .ok (a, b) ∧ s' = { s with builder := b } := by
  unfold Lower.build at h
  cases hstep : step s.builder with
  | error fault =>
    rw [hstep] at h
    cases h
  | ok r =>
    rw [hstep] at h
    cases h
    exact ⟨r.2, rfl, rfl⟩

theorem build_errors {α : Type} {step : Ir.Build α} {s s' : Lowering} {a : α}
    (run : Lower.build step s = .ok (a, s')) : s'.errors = s.errors := by
  obtain ⟨b, -, rfl⟩ := build_inv run
  rfl

theorem orReport_inv {α : Type} {line : Nat} {outcome : Except LowerCause α} {a : α}
    {s s' : Lowering} (run : Lower.orReport line outcome s = .ok (some a, s')) :
    outcome = .ok a ∧ s' = s := by
  cases outcome with
  | ok b =>
    cases run
    exact ⟨rfl, rfl⟩
  | error cause => cases run

end ProcLang

namespace ProcLang.Ir

namespace Builder

/-- The cursor stands at the end of block `block` of the function `f`, which has number `index`. -/
structure At (b : Builder) (index : Nat) (f : Function) (block : Nat) : Prop where
  cursor : b.cursor = some ⟨index, block⟩
  function : b.module.functions[index]? = some f
  block : block < f.blocks.length

/-- The builder with another function in place of the one with a number, and the cursor in it. -/
def put (b : Builder) (index : Nat) (f : Function) (block : Nat) : Builder :=
  { module := { b.module with functions := b.module.functions.set index f }
    cursor := some ⟨index, block⟩ }

variable {b : Builder} {index block : Nat} {f : Function}

theorem At.index_lt (h : b.At index f block) : index < b.module.functions.length :=
  (List.getElem?_eq_some_iff.mp h.function).1

theorem At.unique {index' block' : Nat} {f' : Function} (h : b.At index f block)
    (h' : b.At index' f' block') : index = index' ∧ f = f' ∧ block = block' := by
  cases h.cursor.symm.trans h'.cursor
  exact ⟨rfl, Option.some.inj (h.function.symm.trans h'.function), rfl⟩

theorem At.put (h : b.At index f block) {f' : Function} {block' : Nat}
    (hb : block' < f'.blocks.length) : (b.put index f' block').At index f' block' :=
  ⟨rfl, List.getElem?_set_self h.index_lt, hb⟩

@[simp]
theorem put_put (b : Builder) (index : Nat) (f f' : Function) (block block' : Nat) :
    (b.put index f block).put index f' block' = b.put index f' block' := by
  simp [put]

/-- Moving the cursor leaves the functions as they are. -/
theorem At.put_same (h : b.At index f block) (n : Nat) :
    b.put index f n = { b with cursor := some ⟨index, n⟩ } := by
  obtain ⟨hlt, hget⟩ := List.getElem?_eq_some_iff.mp h.function
  simp only [Builder.put, ← hget, List.set_getElem_self]

/-- Changing the function at the cursor in place. -/
theorem At.modifyFunction (h : b.At index f block) (g : Function → Function) :
    { b with module := b.module.modifyFunction index g } = b.put index (g f) block := by
  obtain ⟨m, cursor⟩ := b
  have hc : cursor = some ⟨index, block⟩ := h.cursor
  have hf : m.functions[index]? = some f := h.function
  subst hc
  simp only [Builder.put, Module.modifyFunction, List.modify_eq_set, hf, Option.getD_some]

end Builder

variable {name : String} {c : Cursor} {n : Nat}

namespace Function

/-- The function with a new empty block. -/
def append (f : Function) (hint : String) : Function :=
  f.tick.pushBlock ⟨f.freshName hint, []⟩

/-- The function with room for an instruction at the end of block `n`, and the number of the block
that has it: a new block, if block `n` has ended. -/
def room (f : Function) (n : Nat) : Function × Nat :=
  if f.blocks[n]?.any Block.isTerminated then (f.append "dead", f.blocks.length) else (f, n)

theorem append_length (f : Function) (hint : String) :
    (f.append hint).blocks.length = f.blocks.length + 1 := by
  simp [append]

theorem room_of_terminated {f : Function} {b : Block} (hb : f.blocks[n]? = some b)
    (h : b.isTerminated = true) : f.room n = (f.append "dead", f.blocks.length) :=
  if_pos (by rw [hb]; exact h)

theorem room_of_open {f : Function} {b : Block} (hb : f.blocks[n]? = some b)
    (h : b.isTerminated = false) : f.room n = (f, n) :=
  if_neg (by rw [hb, Option.any_some, h]; exact Bool.false_ne_true)

end Function

namespace Build

variable {b : Builder} {index block : Nat} {f : Function}

/-! ## Entries of the module -/

theorem defineFunction_taken (h : b.module.hasSymbol name = true) (ty : Ty) (params : List Param) :
    defineFunction name ty params b = .ok (.error ⟨name⟩, b) := by
  rw [defineFunction, run_bind run_get, if_pos h]
  rfl

theorem defineFunction_new (h : b.module.hasSymbol name = false) (ty : Ty) (params : List Param) :
    defineFunction name ty params b = .ok (.ok ⟨b.module.functions.length, 0⟩,
      { b with module := { b.module with
        functions := b.module.functions ++ [.new name ty params] } }) := by
  rw [defineFunction, run_bind run_get, if_neg (by rw [h]; exact Bool.false_ne_true)]
  rfl

theorem declareFunction_old {d : Declaration} (h : (b.module.declaration? d.name).isSome = true) :
    declareFunction d b = .ok ((), b) := by
  rw [declareFunction, run_bind run_get, if_pos h]
  rfl

theorem declareFunction_new {d : Declaration} (h : (b.module.declaration? d.name).isSome = false) :
    declareFunction d b = .ok ((), { b with module := { b.module with
      declarations := b.module.declarations ++ [d] } }) := by
  rw [declareFunction, run_bind run_get, if_neg (by rw [h]; exact Bool.false_ne_true)]
  rfl

theorem addGlobal_taken {g : Global} (h : b.module.hasSymbol g.name = true) :
    addGlobal g b = .ok (.error ⟨g.name⟩, b) := by
  rw [addGlobal, run_bind run_get, if_pos h]
  rfl

theorem addGlobal_new {g : Global} (h : b.module.hasSymbol g.name = false) :
    addGlobal g b = .ok (.ok (.address g.name), { b with module := { b.module with
      globals := b.module.globals ++ [g] } }) := by
  rw [addGlobal, run_bind run_get, if_neg (by rw [h]; exact Bool.false_ne_true)]
  rfl

theorem globalText_new (text : String) (h : b.module.hasSymbol name = false) :
    ∃ b', globalText name text b = .ok (.ok (.address name), b') :=
  ⟨_, addGlobal_new h⟩

/-- A name that a function has is not declared as that of a routine. -/
theorem declareRoutine_defined (h : (b.module.function? name).isSome = true) :
    declareRoutine name b = .ok ((), b) := by
  rw [declareRoutine, run_bind run_get, if_pos h]
  rfl

theorem declareRoutine_unknown (h : (b.module.function? name).isSome = false)
    (hr : Routine.find? name = none) : declareRoutine name b = .ok ((), b) := by
  rw [declareRoutine, run_bind run_get, if_neg (by rw [h]; exact Bool.false_ne_true), hr]
  rfl

theorem declareRoutine_known (h : (b.module.function? name).isSome = false) {r : Routine}
    (hr : Routine.find? name = some r) :
    declareRoutine name b = declareFunction r.declaration b := by
  rw [declareRoutine, run_bind run_get, if_neg (by rw [h]; exact Bool.false_ne_true), hr]

/-! ## The cursor -/

section AtCursor

variable (h : b.At index f block)

include h

theorem insertionPoint_run : insertionPoint b = .ok (⟨index, block⟩, b) := by
  rw [insertionPoint, run_bind run_get, h.cursor]
  rfl

theorem functionAt_run : functionAt index b = .ok (f, b) := by
  rw [functionAt, run_bind run_get, h.function]
  rfl

theorem blockAt_run {c : Block} (hc : f.blocks[n]? = some c) :
    blockAt ⟨index, n⟩ b = .ok (c, b) := by
  rw [blockAt, run_bind (functionAt_run h)]
  simp only [hc]
  rfl

theorem labelOf_run {c : Block} (hc : f.blocks[n]? = some c) :
    labelOf ⟨index, n⟩ b = .ok (c.label, b) :=
  run_map (blockAt_run h hc)

theorem isTerminated_run {c : Block} (hc : f.blocks[block]? = some c) :
    isTerminated b = .ok (c.isTerminated, b) := by
  refine run_map ?_
  rw [currentBlock, run_bind (insertionPoint_run h)]
  exact blockAt_run h hc

theorem moveTo_run (n : Nat) : moveTo ⟨index, n⟩ b = .ok ((), b.put index f n) := by
  rw [h.put_same n]
  rfl

/-! ## Blocks and instructions -/

theorem modifyFunction_run (g : Function → Function) :
    modifyModule (·.modifyFunction index g) b = .ok ((), b.put index (g f) block) := by
  rw [← h.modifyFunction g]
  rfl

theorem fresh_run (hint : String) :
    fresh hint b = .ok (f.freshName hint, b.put index f.tick block) := by
  rw [fresh, run_bind (insertionPoint_run h), run_bind (functionAt_run h),
    run_bind (modifyFunction_run h Function.tick)]
  rfl

/-- A new block is added behind the others. -/
theorem appendBlock_run (hint : String) :
    appendBlock hint b = .ok (⟨index, f.blocks.length⟩, b.put index (f.append hint) block) := by
  have h' : (b.put index f.tick block).At index f.tick block := h.put h.block
  rw [appendBlock, run_bind (fresh_run h hint), run_bind (insertionPoint_run h'),
    run_bind (functionAt_run h'), run_bind (modifyFunction_run h' _), Builder.put_put]
  rfl

/-- An instruction is added at the end of the block at the cursor, or of a new one if that block has
ended. -/
theorem emit_run (i : Instr) :
    emit i b = .ok ((), b.put index ((f.room block).1.modifyBlock (f.room block).2 (·.push i))
      (f.room block).2) := by
  obtain ⟨c, hc⟩ : ∃ c, f.blocks[block]? = some c := ⟨_, List.getElem?_eq_getElem h.block⟩
  rw [emit, run_bind (isTerminated_run h hc)]
  cases hterm : c.isTerminated with
  | true =>
    have hlt : f.blocks.length < (f.append "dead").blocks.length := by
      rw [Function.append_length]
      exact Nat.lt_succ_self _
    have h1 : (b.put index (f.append "dead") block).At index (f.append "dead") block :=
      h.put (Nat.lt_trans h.block hlt)
    have h2 : (b.put index (f.append "dead") f.blocks.length).At index (f.append "dead")
        f.blocks.length := h.put hlt
    rw [if_pos rfl, run_bind (appendBlock_run h "dead"), run_bind (moveTo_run h1 _),
      Builder.put_put]
    dsimp only
    rw [run_bind (insertionPoint_run h2), modifyFunction_run h2, Builder.put_put,
      Function.room_of_terminated hc hterm]
  | false =>
    rw [if_neg (by simp)]
    dsimp only
    rw [run_bind (insertionPoint_run h), modifyFunction_run h, Function.room_of_open hc hterm]

/-- An instruction that gives a value gets a new name first. -/
theorem emitValue_run (hint : String) (ty : Ty) (i : String → Instr) :
    emitValue hint ty i b = .ok (.register ty (f.freshName hint),
      b.put index ((f.tick.room block).1.modifyBlock (f.tick.room block).2
        (·.push (i (f.freshName hint)))) (f.tick.room block).2) := by
  have h' : (b.put index f.tick block).At index f.tick block := h.put h.block
  rw [emitValue, run_bind (fresh_run h hint), run_bind (emit_run h' _), Builder.put_put]
  rfl

/-- Storage is reserved at the start of the entry. -/
theorem alloca_run (ty : Ty) (hint : String) :
    alloca ty hint b = .ok (.register .ptr (f.freshName hint),
      b.put index (f.tick.modifyBlock 0 (·.pushAlloca (.alloca (f.freshName hint) ty)))
        block) := by
  have h' : (b.put index f.tick block).At index f.tick block := h.put h.block
  rw [alloca, run_bind (fresh_run h hint), run_bind (insertionPoint_run h'),
    run_bind (modifyFunction_run h' _), Builder.put_put]
  rfl

theorem br_run {c : Block} (hc : f.blocks[n]? = some c) :
    br ⟨index, n⟩ b = emit (.br c.label) b := by
  rw [br, run_bind (labelOf_run h hc)]

theorem condBr_run (cond : Value) {n m : Nat} {c d : Block}
    (hc : f.blocks[n]? = some c) (hd : f.blocks[m]? = some d) :
    condBr cond ⟨index, n⟩ ⟨index, m⟩ b = emit (.condBr cond c.label d.label) b := by
  rw [condBr, run_bind (labelOf_run h hc), run_bind (labelOf_run h hd)]

end AtCursor

/-! ## What a step that has an answer did -/

section Inversion

variable {b' : Builder} {hint : String}

theorem insertionPoint_inv (h : insertionPoint b = .ok (c, b')) : b.cursor = some c ∧ b' = b := by
  rw [insertionPoint, run_bind run_get] at h
  cases hc : b.cursor with
  | none =>
    rw [hc] at h
    cases h
  | some c =>
    rw [hc] at h
    cases h
    exact ⟨rfl, rfl⟩

theorem functionAt_inv {i : Nat} (h : functionAt i b = .ok (f, b')) :
    b.module.functions[i]? = some f ∧ b' = b := by
  rw [functionAt, run_bind run_get] at h
  cases hf : b.module.functions[i]? with
  | none =>
    rw [hf] at h
    cases h
  | some f =>
    rw [hf] at h
    cases h
    exact ⟨rfl, rfl⟩

theorem blockAt_inv {block : Block} (h : blockAt c b = .ok (block, b')) :
    (∃ f, b.module.functions[c.function]? = some f ∧ f.blocks[c.block]? = some block) ∧ b' = b := by
  obtain ⟨f, b1, hfun, hrest⟩ := run_bind_inv h
  obtain ⟨hf, rfl⟩ := functionAt_inv hfun
  cases hb : f.blocks[c.block]? with
  | none =>
    rw [hb] at hrest
    cases hrest
  | some found =>
    rw [hb] at hrest
    cases hrest
    exact ⟨⟨f, hf, hb⟩, rfl⟩

/-- A builder that can tell whether its block has ended has a block. -/
theorem isTerminated_inv {ended : Bool} (h : isTerminated b = .ok (ended, b')) :
    (∃ index f block c, b.At index f block ∧ f.blocks[block]? = some c ∧ c.isTerminated = ended) ∧
      b' = b := by
  obtain ⟨block, hblock, rfl⟩ := run_map_inv h
  obtain ⟨c, b1, hpoint, hat⟩ := run_bind_inv hblock
  obtain ⟨hcursor, rfl⟩ := insertionPoint_inv hpoint
  obtain ⟨⟨f, hf, hb⟩, rfl⟩ := blockAt_inv hat
  exact ⟨⟨c.function, f, c.block, block, ⟨hcursor, hf, (List.getElem?_eq_some_iff.mp hb).1⟩, hb,
    rfl⟩, rfl⟩

theorem labelOf_inv {label : String} (h : labelOf c b = .ok (label, b')) :
    (∃ f d, b.module.functions[c.function]? = some f ∧ f.blocks[c.block]? = some d ∧
      label = d.label) ∧ b' = b := by
  obtain ⟨d, hat, rfl⟩ := run_map_inv h
  obtain ⟨⟨f, hf, hd⟩, rfl⟩ := blockAt_inv hat
  exact ⟨⟨f, d, hf, hd, rfl⟩, rfl⟩

/-- Changing the function at the cursor in place, if there is one. -/
theorem modifyFunction_eq_put {index block : Nat} (hc : b.cursor = some ⟨index, block⟩)
    (hf : b.module.functions[index]? = some f) (g : Function → Function) :
    { b with module := b.module.modifyFunction index g } = b.put index (g f) block := by
  obtain ⟨m, cursor⟩ := b
  subst hc
  simp only at hf
  simp only [Builder.put, Module.modifyFunction, List.modify_eq_set, hf, Option.getD_some]

theorem put_function {index : Nat} (hf : b.module.functions[index]? = some f) (f' : Function)
    (block : Nat) : (b.put index f' block).module.functions[index]? = some f' :=
  List.getElem?_set_self (List.getElem?_eq_some_iff.mp hf).1

theorem fresh_inv {name : String} (h : fresh hint b = .ok (name, b')) :
    ∃ index block f, b.cursor = some ⟨index, block⟩ ∧ b.module.functions[index]? = some f ∧
      name = f.freshName hint ∧ b' = b.put index f.tick block := by
  obtain ⟨c, b1, hpoint, h1⟩ := run_bind_inv h
  obtain ⟨hcursor, rfl⟩ := insertionPoint_inv hpoint
  obtain ⟨f, b2, hfun, h2⟩ := run_bind_inv h1
  obtain ⟨hf, rfl⟩ := functionAt_inv hfun
  obtain ⟨_, b3, hmodify, h3⟩ := run_bind_inv h2
  cases h3
  cases hmodify
  exact ⟨c.function, c.block, f, hcursor, hf, rfl, modifyFunction_eq_put hcursor hf _⟩

theorem appendBlock_inv (h : appendBlock hint b = .ok (c, b')) :
    ∃ index block f, b.cursor = some ⟨index, block⟩ ∧ b.module.functions[index]? = some f ∧
      c = ⟨index, f.blocks.length⟩ ∧ b' = b.put index (f.append hint) block := by
  obtain ⟨name, b1, hname, h1⟩ := run_bind_inv h
  obtain ⟨index, block, f, hcursor, hf, rfl, rfl⟩ := fresh_inv hname
  obtain ⟨c1, b2, hpoint, h2⟩ := run_bind_inv h1
  obtain ⟨hc, rfl⟩ := insertionPoint_inv hpoint
  cases hc
  obtain ⟨f1, b3, hfun, h3⟩ := run_bind_inv h2
  obtain ⟨hf1, rfl⟩ := functionAt_inv hfun
  rw [put_function hf] at hf1
  cases hf1
  obtain ⟨_, b4, hmodify, h4⟩ := run_bind_inv h3
  cases h4
  cases hmodify
  exact ⟨index, block, f, hcursor, hf, rfl,
    (modifyFunction_eq_put rfl (put_function hf _ _) _).trans (Builder.put_put _ _ _ _ _ _)⟩

/-- An instruction can be added only where the cursor stands in a block. -/
theorem emit_inv {i : Instr} {u : Unit} (h : emit i b = .ok (u, b')) :
    ∃ index f block, b.At index f block ∧ b' = b.put index
      ((f.room block).1.modifyBlock (f.room block).2 (·.push i)) (f.room block).2 := by
  obtain ⟨ended, b1, hended, -⟩ := run_bind_inv h
  obtain ⟨⟨index, f, block, c, hat, -, -⟩, rfl⟩ := isTerminated_inv hended
  rw [emit_run hat] at h
  cases h
  exact ⟨index, f, block, hat, rfl⟩

theorem alloca_inv {ty : Ty} {v : Value} (h : alloca ty hint b = .ok (v, b')) :
    ∃ index block f, b.cursor = some ⟨index, block⟩ ∧ b.module.functions[index]? = some f ∧
      v = .register .ptr (f.freshName hint) ∧ b' = (b.put index f.tick block).put index
        (f.tick.modifyBlock 0 (·.pushAlloca (.alloca (f.freshName hint) ty))) block := by
  obtain ⟨name, b1, hname, h1⟩ := run_bind_inv h
  obtain ⟨index, block, f, hcursor, hf, rfl, rfl⟩ := fresh_inv hname
  obtain ⟨c1, b2, hpoint, h2⟩ := run_bind_inv h1
  obtain ⟨hc, rfl⟩ := insertionPoint_inv hpoint
  cases hc
  obtain ⟨_, b3, hmodify, h3⟩ := run_bind_inv h2
  cases h3
  cases hmodify
  exact ⟨index, block, f, hcursor, hf, rfl, modifyFunction_eq_put rfl (put_function hf _ _) _⟩

end Inversion

end Build

end ProcLang.Ir
