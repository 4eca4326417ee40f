import ProcLang.Proofs.Stage

/-!
# Building at a stage

The building steps that need a cursor, seen as steps from one stage to another. Each of them is
given the stage it leads to (`Stage.tick`, `Stage.append`, `Stage.move`, `Stage.room`, `Stage.push`,
`Stage.reserve`), and it is shown that this stage is sound and how it is related to the one before.

* `Stage.emit_takes`, `Stage.emitValue_takes`: instructions are added behind the others, in a new
  block if the block at the cursor has ended;
* `Stage.alloca_takes`: storage is reserved.
-/

namespace ProcLang

open Ir Naming

variable {b : Block} {i : Instr}

namespace Stage

variable {D : Headings} {st : Stage}

theorem build_bind {α β : Type} (x : Build α) (f : α → Build β) :
    Lower.build (x >>= f) = Lower.build x >>= fun a => Lower.build (f a) := by
  funext s
  simp only [Lower.build, bind, StateT.bind, Except.bind]
  cases x s.builder <;> rfl

/-! ## Changing the function at the cursor -/

/-- The stage with another function at the cursor. -/
def put (st : Stage) (f : Function) (block : Nat) (avail : Nat → String → Prop)
    (pending : List Nat) : Stage :=
  { st with
    state := { st.state with builder := st.state.builder.put st.index f block }
    fn := f
    block
    avail
    pending }

variable {f : Function} {block : Nat} {avail : Nat → String → Prop} {pending : List Nat}

/-- The heading of a function is all that other functions see of it. -/
theorem Sound.put_env (h : st.Sound D) (hf : st.fn.Extends f) :
    (st.put f block avail pending).env = st.env := by
  have hget : (st.module.functions.map Function.signature)[st.index]? = some f.signature := by
    rw [List.getElem?_map, h.function, Option.map_some, hf.signature]
  have same : (st.state.builder.module.functions.set st.index f).map Function.signature =
      st.state.builder.module.functions.map Function.signature := by
    obtain ⟨hlt, hsig⟩ := List.getElem?_eq_some_iff.mp hget
    rw [List.map_set, ← hsig]
    exact List.set_getElem_self hlt
  simp only [env, module, Module.interface, put, Builder.put, same]

theorem put_others (i : Nat) (g : Function) (hi : i ≠ st.index)
    (hg : st.module.functions[i]? = some g) :
    (st.put f block avail pending).module.functions[i]? = some g := by
  simp only [module, put, Builder.put]
  rw [List.getElem?_set_ne (Ne.symm hi)]
  exact hg

theorem Sound.put_names (h : st.Sound D) (hf : st.fn.Extends f) :
    (st.put f block avail pending).module.functions.map Function.name =
      st.module.functions.map Function.name := by
  have names : ∀ fs : List Function,
      fs.map Function.name = (fs.map Function.signature).map Declaration.name := by
    intro fs
    rw [List.map_map]
    rfl
  have henv : (st.put f block avail pending).env = st.env := h.put_env hf
  have callees := congrArg Interface.callees henv
  have same := List.append_cancel_right callees
  rw [names, names, same]

theorem Sound.put (h : st.Sound D) (hf : st.fn.Extends f) (hcode : f.Sound st.env st.arrays avail)
    (hblock : block < f.blocks.length)
    (hended : ∀ n b, f.blocks[n]? = some b → b.isTerminated = false → n = block ∨ n ∈ pending) :
    (st.put f block avail pending).Sound D := by
  have henv : (st.put f block avail pending).env = st.env := h.put_env hf
  refine ⟨h.placed.put hblock, ?_, ?_, ?_, ?_, hended, h.declarations, ?_⟩
  · rw [henv]
    exact hcode
  · have := h.heading
    rw [← hf.name, ← hf.ret, ← hf.params] at this
    exact this
  · intro a ha
    have := h.passed a ha
    rw [← hf.params] at this
    exact this
  · have := h.frame
    rw [← hf.ret] at this
    exact this
  · have grown : st.env.Extends (st.put f block avail pending).env := henv ▸ .refl _
    exact h.symbols.mono grown (h.put_names hf) hf

theorem Sound.put_grows (h : st.Sound D) (hf : st.fn.Extends f)
    (hblocks : ∀ (n : Nat) (b : Block), st.fn.blocks[n]? = some b →
      ∃ b', f.blocks[n]? = some b' ∧ b'.label = b.label ∧ b.body <+: b'.body)
    (havail : ∀ n, n < st.fn.blocks.length → avail n = st.avail n) :
    st.Grows D (st.put f block avail pending) where
  placed := h.placed.index_lt
  index := rfl
  arrays := rfl
  fn := hf
  blocks := hblocks
  avail := havail
  env := h.put_env hf ▸ .refl _
  functions := by simp [module, Stage.put, Builder.put]
  others := put_others
  added i g hi hg := by
    have hlt := (List.getElem?_eq_some_iff.mp hg).1
    simp only [module, Stage.put, Builder.put, List.length_set] at hlt hi
    omega
  scopes := .refl _
  globals := List.prefix_rfl
  frames := rfl
  errors := List.prefix_rfl

/-! ## Blocks -/

/-- The stage after handing out a name. -/
def tick (st : Stage) : Stage :=
  st.put st.fn.tick st.block st.avail st.pending

/-- The stage with a new block, which may rely on the registers of a set. -/
def append (st : Stage) (hint : String) (known : String → Prop) : Stage :=
  st.put (st.fn.append hint) st.block
    (fun n => if n = st.fn.blocks.length then known else st.avail n)
    (st.fn.blocks.length :: st.pending)

/-- The stage with the cursor in another block. -/
def move (st : Stage) (n : Nat) (pending : List Nat) : Stage :=
  st.put st.fn n st.avail pending

theorem extends_tick (f : Function) : f.Extends f.tick := ⟨rfl, rfl, rfl, List.Subset.refl _⟩

theorem extends_append (f : Function) (hint : String) : f.Extends (f.append hint) :=
  (extends_tick f).trans (.pushBlock _)

theorem Sound.tick (h : st.Sound D) : st.tick.Sound D :=
  h.put (extends_tick _) h.code.tick h.placed.block h.ended

theorem Sound.tick_calm (h : st.Sound D) : st.Calm D st.tick where
  locals := rfl
  same_globals := rfl
  toGrows := h.put_grows (extends_tick _) (fun _ b hb => ⟨b, hb, rfl, List.prefix_rfl⟩)
    fun _ _ => rfl
  pending := rfl
  written _ := id
  block := Or.inl rfl
  kept n b b' _ hb hb' := by
    have : b = b' := Option.some.inj (hb.symm.trans hb')
    rw [this]

theorem append_blocks (hint : String) {n : Nat} (hb : f.blocks[n]? = some b) :
    (f.append hint).blocks[n]? = some b :=
  Function.getElem?_pushBlock _ (f := f.tick) hb

theorem append_getElem?_length (f : Function) (hint : String) :
    (f.append hint).blocks[f.blocks.length]? = some ⟨f.freshName hint, []⟩ := by
  simp [Function.append]

theorem Sound.append_code (h : st.Sound D) (hint : String) (known : String → Prop) :
    (st.fn.append hint).Sound st.env st.arrays
      (fun n => if n = st.fn.blocks.length then known else st.avail n) := by
  have hissued : Issued st.fn.tick.nextId (st.fn.freshName hint) := by
    rw [freshName_eq]
    exact issued_numbered hint st.fn.nextId
  exact h.code.tick.pushBlock hissued (h.code.fresh hint) known

theorem Sound.append (h : st.Sound D) (hint : String) (known : String → Prop) :
    (st.append hint known).Sound D := by
  refine h.put (extends_append _ hint) (h.append_code hint known) ?_ ?_
  · rw [Function.append_length]
    exact Nat.lt_succ_of_lt h.placed.block
  · intro n b hb hopen
    rcases Function.pushBlock_getElem? hb with hb | ⟨hn, -⟩
    · exact (h.ended n b hb hopen).imp id (List.mem_cons_of_mem _)
    · exact Or.inr (List.mem_cons.mpr (Or.inl hn))

theorem Sound.append_roams (h : st.Sound D) (hint : String) (known : String → Prop) :
    st.Roams D (st.append hint known) where
  toGrows := h.put_grows (extends_append _ hint)
    (fun _ b hb => ⟨b, append_blocks hint hb, rfl, List.prefix_rfl⟩)
    fun _ hn => if_neg (Nat.ne_of_lt hn)
  block := Or.inl rfl
  kept n b b' _ hb hb' := by
    rw [show b' = b from Option.some.inj (hb'.symm.trans (append_blocks hint hb))]
  written r hr := by
    rcases hr with hr | ⟨b, hb, hr⟩
    · refine Or.inl ?_
      simp only [Stage.append, Stage.put, if_neg (Nat.ne_of_lt h.placed.block)]
      exact hr
    · exact Or.inr ⟨b, append_blocks hint hb, hr⟩

theorem appendBlock_run (h : st.Sound D) (hint : String) (known : String → Prop) :
    Lower.build (.appendBlock hint) st.state =
      .ok (⟨st.index, st.fn.blocks.length⟩, (st.append hint known).state) :=
  build_run (Build.appendBlock_run h.placed hint)

/-- The cursor can move to any block. The block that it leaves has to be finished later, unless it
has ended. -/
theorem Sound.move (h : st.Sound D) {n : Nat} {pending : List Nat} (hn : n < st.fn.blocks.length)
    (hended : ∀ m b, st.fn.blocks[m]? = some b → b.isTerminated = false → m = n ∨ m ∈ pending) :
    (st.move n pending).Sound D :=
  h.put (.refl _) h.code hn hended

theorem Sound.move_grows (h : st.Sound D) (n : Nat) (pending : List Nat) :
    st.Grows D (st.move n pending) :=
  h.put_grows (.refl _) (fun _ b hb => ⟨b, hb, rfl, List.prefix_rfl⟩) fun _ _ => rfl

theorem moveTo_run (h : st.Sound D) (n : Nat) (pending : List Nat) :
    Lower.build (.moveTo ⟨st.index, n⟩) st.state = .ok ((), (st.move n pending).state) :=
  build_run (Build.moveTo_run h.placed n)

/-! ## Room for an instruction -/

/-- The stage with room for an instruction: in a new block, which control never reaches, if the
block at the cursor has ended. -/
def room (st : Stage) : Stage :=
  if st.fn.blocks[st.block]?.any Block.isTerminated then
    st.put (st.fn.append "dead") st.fn.blocks.length
      (fun n => if n = st.fn.blocks.length then fun _ => True else st.avail n) st.pending
  else st

theorem room_of_open (h : st.Open) : st.room = st := by
  obtain ⟨b, hb, hopen⟩ := h
  exact if_neg (by rw [hb, Option.any_some, hopen]; exact Bool.false_ne_true)

/-- There is room, and control flows to it. -/
theorem Sound.room (h : st.Sound D) :
    st.room.Sound D ∧ st.Calm D st.room ∧ st.room.Open ∧
      (st.room.fn, st.room.block) = st.fn.room st.block ∧
      st.room.state = { st.state with
        builder := st.state.builder.put st.index st.room.fn st.room.block } := by
  obtain ⟨b, hb⟩ := h.exists_block
  cases hterm : b.isTerminated with
  | false =>
    have hopen : st.Open := ⟨b, hb, hterm⟩
    rw [room_of_open hopen]
    refine ⟨h, h.calm_refl, hopen, (Function.room_of_open hb hterm).symm, ?_⟩
    rw [h.placed.put_same, ← h.placed.cursor]
  | true =>
    have hroom : st.room = st.put (st.fn.append "dead") st.fn.blocks.length
        (fun n => if n = st.fn.blocks.length then fun _ => True else st.avail n) st.pending :=
      if_pos (by rw [hb]; exact hterm)
    have hnew := append_getElem?_length st.fn "dead"
    rw [hroom]
    refine ⟨h.put (extends_append _ _) (h.append_code _ _) ?_ ?_, ?_, ⟨_, hnew, rfl⟩,
      (Function.room_of_terminated hb hterm).symm, rfl⟩
    · rw [Function.append_length]
      exact Nat.lt_succ_self _
    · intro n c hc hopen
      rcases Function.pushBlock_getElem? hc with hc | ⟨hn, -⟩
      · refine Or.inr ((h.ended n c hc hopen).resolve_left ?_)
        -- the block at the cursor has ended
        rintro rfl
        have : c = b := Option.some.inj (hc.symm.trans hb)
        rw [this, hterm] at hopen
        cases hopen
      · exact Or.inl hn
    · refine ⟨⟨⟨h.put_grows (extends_append _ _)
        (fun _ c hc => ⟨c, append_blocks _ hc, rfl, List.prefix_rfl⟩)
        fun _ hn => if_neg (Nat.ne_of_lt hn), Or.inr (Nat.le_refl _), ?_, fun r _ => ?_⟩, rfl⟩,
        rfl, rfl⟩
      · intro n c c' _ hc hc'
        rw [show c' = c from Option.some.inj (hc'.symm.trans (append_blocks _ hc))]
      · refine Or.inl ?_
        simp only [Stage.put, if_pos]

/-! ## Instructions -/

/-- Control may pass to the block with the label. -/
def Targets (st : Stage) (t : String) : Prop :=
  st.fn.Admits st.avail st.Local t

theorem Roams.targets {st' : Stage} (h : st.Roams D st') {t : String} (ht : st.Targets t) :
    st'.Targets t := by
  obtain ⟨m, c, hm, hc, hl, hr⟩ := ht
  obtain ⟨c', hc', hl', -⟩ := h.blocks m c hc
  refine ⟨m, c', hm, hc', hl'.trans hl, fun r hav => h.written r (hr r ?_)⟩
  rw [← h.avail m (List.getElem?_eq_some_iff.mp hc).1]
  exact hav

/-- What has to be known of an instruction to add it at the cursor. -/
structure Fits (st : Stage) (i : Instr) : Prop where
  code : i.isAlloca = false
  typed : i.Typed st.env st.fn st.arrays
  operands : ∀ v ∈ i.operands, st.Offers v
  targets : ∀ t ∈ i.targets, st.Targets t

theorem Roams.fits {st' : Stage} (h : st.Roams D st') (hi : st.Fits i) : st'.Fits i where
  code := hi.code
  typed := h.arrays ▸ hi.typed.mono h.env h.fn
  operands v hv := h.offers (hi.operands v hv)
  targets t ht := h.targets (hi.targets t ht)

/-- The stage with an instruction more at the end of the block at the cursor. -/
def push (st : Stage) (i : Instr) : Stage :=
  st.put (st.fn.modifyBlock st.block (·.push i)) st.block st.avail st.pending

/-- The instruction writes a register that has a new name. -/
def Fresh (st : Stage) (i : Instr) : Prop :=
  ∀ d, i.dest? = some d → Issued st.fn.nextId d ∧ d ∉ st.fn.names

theorem push_getElem? (hb : st.fn.blocks[st.block]? = some b) (i : Instr) :
    (st.push i).fn.blocks[st.block]? = some (b.push i) :=
  Function.modifyBlock_getElem?_self _ hb

theorem extends_push (hb : st.fn.blocks[st.block]? = some b) (i : Instr) :
    st.fn.Extends (st.push i).fn :=
  .modifyBlock hb (b.push_instrs_perm i)

theorem Sound.push (h : st.Sound D) (hopen : st.Open) (hi : st.Fits i) (hd : st.Fresh i) :
    (st.push i).Sound D := by
  obtain ⟨b, hb, hopen⟩ := hopen
  have written : ∀ r, st.Local r → st.avail st.block r ∨ r ∈ b.defs := by
    rintro r (hr | ⟨b', hb', hr⟩)
    · exact Or.inl hr
    · rw [hb] at hb'
      cases hb'
      exact Or.inr hr
  refine h.put (extends_push hb i) (h.code.push hb hopen hi.code hi.typed
    (fun v hv => (hi.operands v hv).1) ?_ hd ?_) ?_ ?_
  · intro r hr
    obtain ⟨v, hv, hreg⟩ := Instr.mem_reads.mp hr
    exact ((hi.operands v hv).2 r hreg).imp id (written r)
  · intro t ht
    obtain ⟨m, c, hm, hc, hl, hr⟩ := hi.targets t ht
    exact ⟨m, c, hm, hc, hl, fun r hav => written r (hr r hav)⟩
  · rw [Function.modifyBlock_blocks_length]
    exact h.placed.block
  · intro n c hc hterm
    rcases Function.modifyBlock_getElem? hc with ⟨hn, -⟩ | ⟨_, hc⟩
    · exact Or.inl hn
    · exact h.ended n c hc hterm

theorem Sound.push_calm (h : st.Sound D) (hi : i.isAlloca = false) : st.Calm D (st.push i) := by
  obtain ⟨b, hb⟩ := h.exists_block
  refine ⟨⟨⟨h.put_grows (extends_push hb i) ?_ fun _ _ => rfl, Or.inl rfl, ?_, ?_⟩, rfl⟩, rfl, rfl⟩
  · intro n c hc
    by_cases hn : n = st.block
    · subst hn
      have : c = b := Option.some.inj (hc.symm.trans hb)
      subst this
      refine ⟨_, push_getElem? hb i, rfl, ?_⟩
      rw [Block.body_push hi]
      exact List.prefix_append _ _
    · refine ⟨c, ?_, rfl, List.prefix_rfl⟩
      rw [Function.modifyBlock_getElem?_ne _ hn]
      exact hc
  · intro n c c' hn hc hc'
    rw [show c' = c from Option.some.inj
      (hc'.symm.trans ((Function.modifyBlock_getElem?_ne _ hn).trans hc))]
  · rintro r (hr | ⟨c, hc, hr⟩)
    · exact Or.inl hr
    · have : c = b := Option.some.inj (hc.symm.trans hb)
      subst this
      refine Or.inr ⟨_, push_getElem? hb i, ?_⟩
      rw [Block.defs, Block.push_instrs, List.filterMap_append]
      exact List.mem_append_left _ hr

/-- What can be said of an instruction that was added last. -/
structure Emitted (st : Stage) (i : Instr) : Prop where
  mem : i ∈ st.fn.instrs
  written : ∀ d, i.dest? = some d → st.Local d
  ended : st.Open ↔ i.isTerminator = false

theorem emitted_push (hb : st.Open) (i : Instr) : (st.push i).Emitted i := by
  obtain ⟨b, hb, -⟩ := hb
  have hpush := push_getElem? hb i
  refine ⟨Function.mem_instrs_of_getElem? hpush (by simp), fun d hd => ?_, ?_⟩
  · refine Or.inr ⟨_, hpush, ?_⟩
    rw [Block.defs, List.mem_filterMap]
    exact ⟨i, by simp, hd⟩
  · constructor
    · rintro ⟨c, hc, hopen⟩
      have : c = b.push i := Option.some.inj (hc.symm.trans hpush)
      rw [this, Block.isTerminated_push] at hopen
      exact hopen
    · intro hi
      exact ⟨_, hpush, by rw [Block.isTerminated_push, hi]⟩

theorem emit_run (h : st.Sound D) (i : Instr) :
    Lower.build (.emit i) st.state = .ok ((), (st.room.push i).state) := by
  obtain ⟨-, hflow, -, hroom, hstate⟩ := h.room
  rw [build_run (Build.emit_run h.placed i), ← hroom]
  simp only [Stage.push, Stage.put, hstate, hflow.index, Builder.put_put]

/-- **An instruction without a result** is added behind the others. -/
theorem emit_takes (h : st.Sound D) (hi : st.Fits i) (hd : i.dest? = none) :
    Takes (calm D) st (Lower.build (.emit i)) fun _ st' => st'.Emitted i := by
  obtain ⟨hs, hcalm, hopen, -, -⟩ := h.room
  refine ⟨(), st.room.push i, emit_run h i, hs.push hopen (hcalm.fits hi) ?_,
    hcalm.trans (hs.push_calm hi.code), emitted_push hopen i⟩
  intro d hd'
  rw [hd] at hd'
  cases hd'

/-- A name that was new before there was room still is. -/
theorem fresh_room (st : Stage) {d : String} (hd : Issued st.fn.nextId d ∧ d ∉ st.fn.names) :
    Issued st.room.fn.nextId d ∧ d ∉ st.room.fn.names := by
  unfold Stage.room
  split
  · refine ⟨hd.1.mono (Nat.le_succ _), fun hmem => ?_⟩
    rw [show (st.put (st.fn.append "dead") _ _ _).fn = st.fn.append "dead" from rfl,
      Function.append, Function.pushBlock_names, List.mem_append, List.mem_singleton] at hmem
    rcases hmem with hmem | rfl
    · exact hd.2 hmem
    · exact not_issued_numbered "dead" st.fn.nextId hd.1
  · exact hd

theorem emitValue_run (h : st.Sound D) (hint : String) (ty : Ir.Ty) (i : String → Instr) :
    Lower.build (.emitValue hint ty i) st.state =
      .ok (.register ty (st.fn.freshName hint),
        (st.tick.room.push (i (st.fn.freshName hint))).state) := by
  have hfresh : Lower.build (.fresh hint) st.state = .ok (st.fn.freshName hint, st.tick.state) :=
    build_run (Build.fresh_run h.placed hint)
  rw [Build.emitValue, build_bind, run_bind hfresh, build_bind, run_bind (emit_run h.tick _)]
  rfl

/-- **An instruction with a result** is added behind the others, and its result can be used. -/
theorem emitValue_takes (h : st.Sound D) {hint : String} {ty : Ir.Ty} {i : String → Instr}
    (hr : ∀ d, (i d).result? = some ⟨d, ty⟩) (hi : ∀ n, st.Fits (i (numbered hint n))) :
    Takes (calm D) st (Lower.build (.emitValue hint ty i)) fun v st' =>
      ∃ d, v = .register ty d ∧ i d ∈ st'.fn.instrs ∧ st'.Offers v := by
  have hdest : ∀ d, (i d).dest? = some d := fun d => by rw [Instr.dest?, hr]; rfl
  obtain ⟨hs, hroom, hopen, -, -⟩ := h.tick.room
  have hcalm := h.tick_calm.trans hroom
  have hfits := hcalm.fits (hi st.fn.nextId)
  have hfresh : st.tick.room.Fresh (i (numbered hint st.fn.nextId)) := by
    intro d hd
    rw [hdest] at hd
    cases hd
    exact fresh_room st.tick ⟨issued_numbered hint st.fn.nextId, h.code.fresh hint⟩
  have hemit := emitted_push hopen (i (numbered hint st.fn.nextId))
  refine ⟨_, st.tick.room.push (i (st.fn.freshName hint)), emitValue_run h hint ty i, ?_, ?_,
    _, rfl, ?_, ?_, ?_⟩
  · exact hs.push hopen hfits hfresh
  · exact hcalm.trans (hs.push_calm hfits.code)
  · exact hemit.mem
  · exact Or.inr ⟨_, hemit.mem, hr _⟩
  · intro r hreg
    cases hreg
    exact Or.inr (hemit.written _ (hdest _))

/-! ## Storage -/

/-- The stage with storage reserved. -/
def reserve (st : Stage) (hint : String) (ty : Ir.Ty) : Stage :=
  st.put (st.fn.tick.modifyBlock 0 (·.pushAlloca (.alloca (st.fn.freshName hint) ty))) st.block
    st.avail st.pending

/-- The blocks of a function in which storage was reserved are the old ones, apart from that. -/
theorem reserve_blocks (st : Stage) (hint : String) (ty : Ir.Ty) {n : Nat}
    (hb : st.fn.blocks[n]? = some b) :
    ∃ b', (st.reserve hint ty).fn.blocks[n]? = some b' ∧ b'.label = b.label ∧ b'.body = b.body ∧
      b.defs ⊆ b'.defs := by
  by_cases hn : n = 0
  · subst hn
    refine ⟨_, Function.modifyBlock_getElem?_self (f := st.fn.tick) _ hb, rfl,
      Block.body_pushAlloca rfl b, fun d hd => ?_⟩
    obtain ⟨i, hi, hid⟩ := List.mem_filterMap.mp hd
    refine List.mem_filterMap.mpr ⟨i, ?_, hid⟩
    rw [(b.pushAlloca_instrs_perm _).mem_iff]
    exact List.mem_cons_of_mem _ hi
  · refine ⟨b, ?_, rfl, rfl, List.Subset.refl _⟩
    rw [show (st.reserve hint ty).fn = st.fn.tick.modifyBlock 0 _ from rfl,
      Function.modifyBlock_getElem?_ne _ hn]
    exact hb

theorem Sound.extends_reserve (h : st.Sound D) (hint : String) (ty : Ir.Ty) :
    st.fn.Extends (st.reserve hint ty).fn ∧
      .alloca (st.fn.freshName hint) ty ∈ (st.reserve hint ty).fn.instrs := by
  obtain ⟨b, hb, -⟩ := h.code.entry
  have hperm := b.pushAlloca_instrs_perm (.alloca (st.fn.freshName hint) ty)
  refine ⟨(extends_tick _).trans (.modifyBlock (f := st.fn.tick) hb hperm), ?_⟩
  refine Function.mem_instrs_of_getElem? (Function.modifyBlock_getElem?_self (f := st.fn.tick) _ hb)
    (hperm.mem_iff.mpr ?_)
  exact List.mem_cons_self

theorem Sound.reserve (h : st.Sound D) (hint : String) (ty : Ir.Ty) :
    (st.reserve hint ty).Sound D := by
  have hissued : Issued st.fn.tick.nextId (st.fn.freshName hint) :=
    issued_numbered hint st.fn.nextId
  refine h.put (h.extends_reserve hint ty).1
    (h.code.tick.pushAlloca ty ⟨hissued, h.code.fresh hint⟩) ?_ ?_
  · rw [Function.modifyBlock_blocks_length]
    exact h.placed.block
  · intro n c hc hopen
    rcases Function.modifyBlock_getElem? hc with ⟨rfl, b, hb, rfl⟩ | ⟨_, hc⟩
    · rw [Block.isTerminated_pushAlloca rfl] at hopen
      exact h.ended 0 b hb hopen
    · exact h.ended n c hc hopen

theorem Sound.reserve_calm (h : st.Sound D) (hint : String) (ty : Ir.Ty) :
    st.Calm D (st.reserve hint ty) := by
  refine ⟨⟨⟨h.put_grows (h.extends_reserve hint ty).1 ?_ fun _ _ => rfl, Or.inl rfl, ?_, ?_⟩, rfl⟩,
    rfl, rfl⟩
  · intro n b hb
    obtain ⟨b', hb', hl, hbody, -⟩ := reserve_blocks st hint ty hb
    exact ⟨b', hb', hl, hbody ▸ List.prefix_rfl⟩
  · intro n b b' _ hb hb'
    obtain ⟨c, hc, -, hbody, -⟩ := reserve_blocks st hint ty hb
    rw [show b' = c from Option.some.inj (hb'.symm.trans hc), hbody]
  · rintro r (hr | ⟨b, hb, hr⟩)
    · exact Or.inl hr
    · obtain ⟨b', hb', -, -, hdefs⟩ := reserve_blocks st hint ty hb
      exact Or.inr ⟨b', hb', hdefs hr⟩

theorem alloca_run (h : st.Sound D) (hint : String) (ty : Ir.Ty) :
    Lower.build (.alloca ty hint) st.state =
      .ok (.register .ptr (st.fn.freshName hint), (st.reserve hint ty).state) :=
  build_run (Build.alloca_run h.placed ty hint)

/-- **Storage is reserved** for the whole function. -/
theorem alloca_takes (h : st.Sound D) (hint : String) (ty : Ir.Ty) :
    Takes (calm D) st (Lower.build (.alloca ty hint)) fun v st' =>
      Stored st'.env st'.fn st'.arrays v ty :=
  ⟨_, _, alloca_run h hint ty, h.reserve hint ty, h.reserve_calm hint ty,
    ⟨rfl, Or.inl (h.extends_reserve hint ty).2⟩⟩

end Stage

end ProcLang
