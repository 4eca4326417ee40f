import ProcLang.Proofs.Openings
import ProcLang.Proofs.Stage.Expr

/-!
# Passing control on

The instructions that end a block, at a stage. A statement with blocks of its own plans them where
it starts, its *base*: they may rely on whatever was written on every way to the base
(`Stage.Planned`). Control can pass to a planned block from wherever that can be read, and it can be
read again when the cursor moves to one (`Stage.Roams.move`).
-/

namespace ProcLang

open Ir Naming

namespace Stage

variable {D : Headings} {base st st' : Stage} {n m : Nat}

/-! ## Planned blocks -/

/-- Block `n` was added after the base, and relies on what was written on every way to it. -/
structure Planned (base : Stage) (n : Nat) (st : Stage) : Prop where
  new : base.fn.blocks.length ≤ n
  lt : n < st.fn.blocks.length
  avail : st.avail n = base.Local

theorem Planned.grows (h : base.Planned n st) (hg : st.Grows D st') : base.Planned n st' :=
  ⟨h.new, Nat.lt_of_lt_of_le h.lt hg.length_le, (hg.avail n h.lt).trans h.avail⟩

/-- A block that is added is planned. -/
theorem Roams.planned (h : base.Roams D st) (hint : String) :
    base.Planned st.fn.blocks.length (st.append hint base.Local) where
  new := h.length_le
  lt := by
    rw [show (st.append hint base.Local).fn = st.fn.append hint from rfl, Function.append_length]
    exact Nat.lt_succ_self _
  avail := if_pos rfl

/-- At a planned block all that was written before the base can be read. -/
theorem Roams.move (h : base.Roams D st) (hs : st.Sound D) (hn : base.Planned n st)
    (pending : List Nat) : base.Roams D (st.move n pending) where
  toGrows := h.toGrows.trans (hs.move_grows n pending)
  block := Or.inr hn.new
  kept := h.kept
  written r hr := by
    refine Or.inl ?_
    change st.avail n r
    rw [hn.avail]
    exact hr

/-- The cursor moves from a block that has ended to one that was to be finished later. -/
theorem Sound.move_pending (h : st.Sound D) (hended : ¬ st.Open) (hn : n < st.fn.blocks.length)
    {pending : List Nat} (hp : ∀ m ∈ st.pending, m = n ∨ m ∈ pending) :
    (st.move n pending).Sound D := by
  refine h.move hn fun m b hb hopen => hp m ((h.ended m b hb hopen).resolve_left ?_)
  rintro rfl
  exact hended ⟨b, hb, hopen⟩

/-- Control can pass to a planned block. -/
theorem Planned.targets (h : base.Planned n st) (hs : base.Sound D) (hr : base.Roams D st) :
    ∃ b, st.fn.blocks[n]? = some b ∧ st.Targets b.label := by
  have hn : n ≠ 0 := by
    have := h.new
    have := hs.placed.block
    omega
  have hb := List.getElem?_eq_getElem h.lt
  refine ⟨_, hb, n, _, hn, hb, rfl, fun r hav => hr.written r ?_⟩
  rw [h.avail] at hav
  exact hav

/-! ## Ending a block -/

variable (h : st.Sound D)

include h

theorem end_takes {i : Instr} (hi : st.Fits i) (ht : i.isTerminator = true) :
    Takes (calm D) st (Lower.build (.emit i)) fun _ st' => ¬ st'.Open := by
  refine (emit_takes h hi (Instr.dest?_of_isTerminator ht)).mono fun _ st' _ _ he hopen => ?_
  have := he.ended.mp hopen
  rw [ht] at this
  cases this

theorem br_takes (hb : base.Sound D) (hr : base.Roams D st) (hn : base.Planned n st) :
    Takes (calm D) st (Lower.build (.br ⟨base.index, n⟩)) fun _ st' => ¬ st'.Open := by
  obtain ⟨b, hget, htargets⟩ := hn.targets hb hr
  have hi : st.Fits (.br b.label) :=
    ⟨rfl, trivial, by simp [Instr.operands], by simp [Instr.targets, htargets]⟩
  obtain ⟨a, st', run, rest⟩ := end_takes h hi rfl
  refine ⟨a, st', ?_, rest⟩
  rw [← run, Lower.build, Lower.build, ← hr.index, Build.br_run h.placed hget]

theorem condBr_takes (hb : base.Sound D) (hr : base.Roams D st) {cond : Value}
    (hcond : st.Holds cond .bool) (hn : base.Planned n st) (hm : base.Planned m st) :
    Takes (calm D) st (Lower.build (.condBr cond ⟨base.index, n⟩ ⟨base.index, m⟩)) fun _ st' =>
      ¬ st'.Open := by
  obtain ⟨b, hget, htargets⟩ := hn.targets hb hr
  obtain ⟨b', hget', htargets'⟩ := hm.targets hb hr
  have hi : st.Fits (.condBr cond b.label b'.label) :=
    ⟨rfl, hcond.1, by simp [Instr.operands, hcond.2],
      by simp [Instr.targets, htargets, htargets']⟩
  obtain ⟨a, st', run, rest⟩ := end_takes h hi rfl
  refine ⟨a, st', ?_, rest⟩
  rw [← run, Lower.build, Lower.build, ← hr.index, Build.condBr_run h.placed cond hget hget']

/-- Control passes to planned blocks by a condition, or to a planned block. -/
theorem branchOn_takes (hb : base.Sound D) (hr : base.Roams D st) {cond : Option Value}
    (hcond : ∀ v, cond = some v → st.Holds v .bool) {k : Nat} (hn : base.Planned n st)
    (hm : base.Planned m st) (hk : base.Planned k st) :
    Takes (calm D) st (Lower.branchOn cond ⟨base.index, n⟩ ⟨base.index, m⟩ ⟨base.index, k⟩)
      fun _ st' => ¬ st'.Open := by
  cases cond with
  | some cond => exact condBr_takes h hb hr (hcond cond rfl) hn hm
  | none => exact br_takes h hb hr hk

theorem unreachable_takes : Takes (calm D) st (Lower.build .unreachable) fun _ st' => ¬ st'.Open :=
  end_takes h ⟨rfl, trivial, by simp [Instr.operands], by simp [Instr.targets]⟩ rfl

/-- A step that looks whether the block at the cursor has ended. -/
theorem takes_isTerminated {β : Type} {way : Way D} {f : Bool → Lower β} {post : β → Stage → Prop}
    (hopen : st.Open → Takes way st (f false) post)
    (hended : ¬ st.Open → Takes way st (f true) post) :
    Takes way st (Lower.build .isTerminated >>= f) post := by
  obtain ⟨b, hget⟩ := h.exists_block
  have hterm : Lower.build .isTerminated st.state = .ok (b.isTerminated, st.state) :=
    build_run (Build.isTerminated_run h.placed hget)
  refine takes_same hterm ?_
  cases hb : b.isTerminated with
  | false => exact hopen ⟨b, hget, hb⟩
  | true =>
    refine hended ?_
    rintro ⟨c, hget', hopen⟩
    have : c = b := Option.some.inj (hget'.symm.trans hget)
    rw [this, hb] at hopen
    cases hopen

/-- What is done unless the block has ended. -/
theorem unlessEnded_takes {way : Way D} {x : Lower Unit} {post : Unit → Stage → Prop}
    (hx : st.Open → Takes way st x post) (hended : ¬ st.Open → post () st) :
    Takes way st (Lower.unlessEnded x) post :=
  takes_isTerminated h hx fun hno => takes_pure h (hended hno)

/-- After falling through, the block has ended. -/
theorem fallThrough_takes (hb : base.Sound D) (hr : base.Roams D st) (hn : base.Planned n st) :
    Takes (calm D) st (Lower.fallThrough ⟨base.index, n⟩) fun _ st' => ¬ st'.Open := by
  refine takes_isTerminated h (fun _ => ?_) fun hended => takes_pure h hended
  exact (br_takes h hb hr hn).bind fun _ st' hs _ hended => takes_pure hs hended

/-- The innermost scope is left. -/
theorem closeScope_run : Lower.closeScope st.state = .ok ((), { st.state with
    symbols := { st.state.symbols with locals := st.state.symbols.locals.tail }
    frames := st.state.frames.tail }) := by
  obtain ⟨scope, outer, hl⟩ := List.exists_cons_of_ne_nil h.symbols.nonempty
  rw [Lower.closeScope, run_bind run_get, SymbolTable.pop?, hl]
  rfl

/-! ## Conditions and results -/

theorem condition_takes (line : Nat) {value : Result} (hv : st.Gives value) :
    Takes (calm D) st (Lower.condition line value) fun r st' =>
      ∀ v, r = some v → st'.Holds v .bool := by
  unfold Lower.condition
  split
  · exact takes_pure h fun v hv => by cases hv
  · rename_i value
    refine takes_pure h ?_
    rintro _ ⟨⟩
    exact hv value .bool rfl
  · rename_i value
    have hvalue := hv value .integer rfl
    refine (icmp_takes h "cond" hvalue.2 (offers_int st 0) hvalue.1 (hvalue.1 ▸ Or.inl rfl)).map ?_
    rintro v st' - - hv' _ ⟨⟩
    exact hv'
  · exact (report_takes h line _).mono fun r st' _ _ hr v hv => by rw [hr.1] at hv; cases hv

theorem asResult_takes (line : Nat) (ret : Ty) {value : Value} {ty : Ty} (hv : st.Holds value ty) :
    Takes (calm D) st (Lower.asResult line ret value ty) fun r st' =>
      ∀ v, r = some v → st'.Holds v ret := by
  unfold Lower.asResult
  by_cases hfit : ty.fits ret = true
  · rw [if_pos hfit]
    refine (coerce_takes h hv hfit).map ?_
    rintro v st' - - hv' _ ⟨⟩
    exact hv'
  · rw [if_neg hfit]
    exact (report_takes h line _).mono fun r st' _ _ hr v hv => by rw [hr.1] at hv; cases hv

theorem returnValue_takes {ret : Ty} (hret : st.fn.ret = ret.ir) {value : Option Value}
    (hv : ∀ v, value = some v → st.Holds v ret) :
    Takes (calm D) st (Lower.returnValue value) fun _ st' => ¬ st'.Open := by
  cases value with
  | none => exact unreachable_takes h
  | some value =>
    obtain ⟨hty, hoffer⟩ := hv value rfl
    exact end_takes h ⟨rfl, hty.trans hret.symm, by simp [Instr.operands, hoffer],
      by simp [Instr.targets]⟩ rfl

theorem implicitReturn_takes (line : Nat) (name : String) {ret : Ty} (hret : st.fn.ret = ret.ir)
    {last : Result} (hl : st.Gives last) :
    Takes (calm D) st (Lower.implicitReturn line name ret last) fun _ st' => ¬ st'.Open := by
  unfold Lower.implicitReturn
  cases last with
  | some last =>
    obtain ⟨value, ty⟩ := last
    refine (asResult_takes h line ret (hl value ty rfl)).bind fun r st1 hs1 hc1 hr => ?_
    exact returnValue_takes hs1 (hc1.fn.ret.trans hret) hr
  | none =>
    refine (report_takes h line _).bind fun r st1 hs1 hc1 hr => ?_
    refine returnValue_takes hs1 (hc1.fn.ret.trans hret) fun v hv => ?_
    rw [hr.1] at hv
    cases hv

theorem returnFrom_takes (line : Nat) {ret : Ty} (hret : st.fn.ret = ret.ir) {value : Result}
    (hv : st.Gives value) :
    Takes (calm D) st (Lower.returnFrom line ret value) fun _ st' => ¬ st'.Open := by
  unfold Lower.returnFrom
  split
  · rename_i value ty
    refine (asResult_takes h line ret (hv value ty rfl)).bind fun r st1 hs1 hc1 hr => ?_
    exact returnValue_takes hs1 (hc1.fn.ret.trans hret) hr
  · exact returnValue_takes h hret fun v hv => by cases hv

end Stage

end ProcLang
