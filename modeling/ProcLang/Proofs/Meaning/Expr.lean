import ProcLang.Proofs.Meaning.Operators

/-!
# The code of expressions

* `expr_computes`: if an expression can be lowered, the code that is added does what the evaluation
  of the expression does, in every world;
* `place_computes`: so it is with the place of a variable, whose address the code gives.

That the code goes to an open block, or that there are no procedures, is only asked for where it
matters: an expression that is `Direct` has no calls, so what names of procedures stand for is of no
account.
-/

namespace ProcLang

open Ir Lower Naming

variable {env : Env} {s s' : Lowering} {w : Spot}

/-! ## Literals -/

variable {v : Value} {s1 : Lowering} {ty : Ty} {line : Nat} {x : (W : World) → Exec W W.Val}

/-- A text that is added to the module is found there. -/
theorem addGlobal_puts (hs : s.In w) {g : Global} (run : build (.addGlobal g) s = .ok (.ok v, s')) :
    v = .address g.name ∧ s.Puts w [] s' w ∧ s.builder.module.global? g.name = none ∧
      s'.builder.module.global? g.name = some g := by
  obtain ⟨b, hb, rfl⟩ := build_inv run
  cases htaken : s.builder.module.hasSymbol g.name with
  | true =>
    rw [Build.addGlobal_taken htaken] at hb
    cases hb
  | false =>
    rw [Build.addGlobal_new htaken] at hb
    cases hb
    have hnone : s.builder.module.global? g.name = none := by
      rw [Module.hasSymbol, Bool.or_eq_false_iff] at htaken
      exact Option.not_isSome_iff_eq_none.mp (by rw [htaken.2]; exact Bool.false_ne_true)
    refine ⟨rfl, outside_puts hs
      ⟨⟨List.prefix_append _ _, List.prefix_rfl, rfl⟩, rfl, rfl, rfl⟩ rfl rfl, hnone, ?_⟩
    rw [Module.global?, List.find?_append, ← Module.global?, hnone]
    simp

theorem literal_computes (hs : s.In w) {value : Literal} (hr : value.InRange)
    (run : literal line value s = .ok (some (v, ty), s')) :
    Computes env s w s' (fun W => pure (value.eval W)) v ty := by
  cases value with
  | integer n =>
    cases run
    refine ⟨[], w, ⟨hs.puts_nil, (fun r h => by cases h), fun _ m h => ?_⟩, ?_⟩
    · cases h
      exact hr
    · intro W T _ _ act store hagree
      exact .pure ⟨hagree, .refl _ _, rfl, rfl, rfl⟩
  | float x =>
    cases run
    refine ⟨[], w, ⟨hs.puts_nil, (fun r h => by cases h), fun h => by cases h⟩, ?_⟩
    intro W T _ _ act store hagree
    exact .pure ⟨hagree, .refl _ _, rfl, rfl, rfl⟩
  | bool b =>
    cases run
    refine ⟨[], w, ⟨hs.puts_nil, (fun r h => by cases h), fun h => by cases h⟩, ?_⟩
    intro W T _ _ act store hagree
    refine .pure ⟨hagree, .refl _ _, rfl, ?_, rfl⟩
    cases b <;> rfl
  | string text =>
    obtain ⟨name, s1, run1, run⟩ := run_bind_inv run
    obtain ⟨outcome, s2, run2, run⟩ := run_bind_inv run
    cases run1
    cases outcome with
    | error e => cases run
    | ok address =>
      cases run
      have hs1 : s.Puts w [] { s with symbols := s.symbols.tick } w :=
        outside_puts hs ⟨.refl _, rfl, rfl, rfl⟩ rfl rfl
      obtain ⟨rfl, hs2, -, hglobal⟩ := addGlobal_puts hs1.placed run2
      refine ⟨[], w, ⟨hs1.trans hs2, (fun r h => by cases h), fun h => by cases h⟩, ?_⟩
      intro W T hknows _ act store hagree
      refine .pure ⟨hagree, .refl _ _, rfl, ?_, rfl⟩
      rw [Value.eval, Value.address]
      dsimp only
      rw [hknows.module.global? hglobal]
      rfl

/-! ## Places -/

/-- Behind the code the operand is the address of the place. -/
structure Target.Locates {W : World} (T : Target W) (n : Nat) (act : Activation W) (a : Value)
    (ty : Ty) (p : Variable × Nat) (store : Store W) (act' : Activation W) : Prop where
  agrees : T.Agrees act' store
  keeps : act.Keeps n act'
  kept : act'.mem = act.mem
  mem : p.1 ∈ T.vars
  bound : p.2 < p.1.cells
  ty : p.1.ty = ty
  value : a.eval T.module act'.regs = some (.address (T.base p.1) p.1.cells p.2)

/-- Lowering added code for a place: it does what looking for the place does, and the operand is its
address. -/
def Addresses (env : Env) (s : Lowering) (w : Spot) (s' : Lowering)
    (locate : (W : World) → Exec W (Variable × Nat)) (a : Value) (ty : Ty) : Prop :=
  ∃ code w', s.Puts w code s' w' ∧
    ∀ {W : World} {T : Target W}, T.Knows env s' → T.Spares code →
      ∀ {act : Activation W} {store : Store W}, T.Agrees act store →
      T.Matches code act (locate W store) (T.Locates w.fn.nextId act a ty)

theorem cellAt_cases {F S : Type} (cells : Nat) {x : Val F S} (h : x.ty = .integer) :
    (∃ k < cells, cellAt cells x = .ok k) ∨ cellAt cells x = .error .fault := by
  cases x with
  | integer n =>
    by_cases hbounds : 0 ≤ n.toInt ∧ n.toInt < cells
    · exact Or.inl ⟨n.toInt.toNat, by omega, if_pos hbounds⟩
    · exact Or.inr (if_neg hbounds)
  | _ => cases h

/-- **A variable** that is no array is its own place. -/
theorem whole_addresses (hs : s.In w) {v : Variable} {a : Value} (hv : v ∈ env.vars)
    (hlen : v.len = none) (hb : ∀ home, Homes home s.symbols → a = ⟨.ptr, home v⟩) :
    Addresses env s w s (fun _ => pure (v, 0)) a v.ty := by
  refine ⟨[], w, hs.puts_nil, ?_⟩
  intro W T hknows _ act store hagree
  have hmem : v ∈ T.vars := hknows.vars hv
  refine .pure ⟨hagree, .refl _ _, rfl, hmem, ?_, rfl, ?_⟩
  · rw [Variable.cells, hlen]
    exact Nat.one_pos
  · rw [hb T.home hknows.homes]
    exact hagree.homes v hmem

/-- **An element of an array**, with the code of its index. -/
theorem element_addresses {symbol : Symbol} {v : Variable} {len line : Nat} {result : Result}
    {a : Value} (hv : v ∈ env.vars) (hlen : v.len = some len)
    (hb : ∀ home, Homes home s.symbols → symbol.binding = ⟨.ptr, home v⟩)
    (hx : ∀ u uty, result = some (u, uty) → Computes env s w s1 x u uty)
    (run : elementAddress line symbol result s1 = .ok (some a, s')) :
    Addresses env s w s' (fun W => do
      let value ← x W
      let k ← Exec.lift (cellAt len value)
      return (v, k)) a v.ty := by
  have hcells : v.cells = len := by rw [Variable.cells, hlen]; rfl
  unfold elementAddress at run
  split at run
  · cases run
  · rename_i index
    obtain ⟨_, run, heq⟩ := run_map_inv run
    cases heq
    obtain ⟨code1, w1, hy1, hsem1⟩ := hx index .integer rfl
    obtain ⟨rfl, w2, hputs2, -⟩ := emitValue_puts hy1.placed (fun _ => rfl) (fun _ => rfl) run
    refine ⟨code1 ++ _, w2, hy1.toPuts.trans hputs2, ?_⟩
    intro W T hknows hspare act store hagree
    have hknows1 := hknows.anti hputs2.toStill
    refine (hsem1 hknows1 hspare.left hagree).bind fun value store1 act1 h1 => ?_
    have hmem : v ∈ T.vars := hknows.vars hv
    have hbase : symbol.binding.eval T.module act1.regs =
        some (.address (T.base v) v.cells 0) := by
      rw [hb T.home (hknows1.anti hy1.toStill).homes]
      exact h1.agrees.homes v hmem
    have hexec := exec_gep hbase h1.value (numbered "elem" w1.fn.nextId) symbol.ty.ir
    rw [hcells] at hexec hbase
    rcases cellAt_cases len h1.ty with ⟨k, hk, hcell⟩ | hcell
    · rw [hcell] at hexec ⊢
      refine ⟨_, Target.execCode_single hexec, ?_, ?_, h1.kept,
        hmem, by rw [hcells]; exact hk, rfl, ?_⟩
      · exact h1.agrees.set (hspare.right _ (List.mem_singleton.mpr rfl) _ rfl) _
      · exact h1.keeps.trans ((Activation.Keeps.set _ _ _ _).anti hy1.spot.fn.nextId)
      · rw [Target.eval_set, hcells]
    · rw [hcell] at hexec ⊢
      refine (Target.execCode_single hexec).trans ?_
      change Except.error _ = Except.error _
      rw [h1.agrees.trace]
  · cases run

/-- **A sign** in front of a value. -/
theorem negate_computes (hs : s.In w) {negated : Bool} {u v : Value} {uty ty : Ty}
    (hu : u.Settled w.fn.nextId) (hlit : ∀ n, u.operand ≠ .int n)
    (run : negate line negated u uty s = .ok (some (v, ty), s')) :
    ∃ code w', s.Yields w code s' w' v ty ∧
      ∀ {W : World} {T : Target W}, T.Spares code →
        ∀ {act : Activation W} {store : Store W} {x : W.Val}, T.Agrees act store →
        u.eval T.module act.regs = some (.data x) → x.ty = uty →
        T.Matches code act ((if negated then Exec.lift x.negate else pure x : Exec W W.Val) store)
          (T.Gives w.fn.nextId act v ty) := by
  cases negated with
  | false =>
    cases run
    refine ⟨[], w, ⟨hs.puts_nil, hu, fun _ n hn => absurd hn (hlit n)⟩, ?_⟩
    intro W T _ act store x hagree hx hty
    exact .pure ⟨hagree, .refl _ _, rfl, hx, hty⟩
  | true =>
    cases uty with
    | integer =>
      obtain ⟨z, s1, run1, run2⟩ := run_bind_inv run
      cases run2
      obtain ⟨code, w', hy, hsem⟩ :=
        value_computes (i := (.binary · .sub (.int 0) u)) hs (fun _ => rfl) (fun _ => rfl)
          (fun _ => rfl) run1 .integer
      refine ⟨code, w', hy, ?_⟩
      intro W T hspare act store x hagree hx hty
      cases x with
      | integer n =>
        have hcalc : BinOp.sub.calculate (.integer (BitVec.ofInt 32 0)) (.integer n) =
            (Except.ok (.integer (-n)) : Except Refusal W.Val) := by
          change Except.ok (Val.integer (0#32 - n)) = _
          rw [BitVec.zero_sub]
        refine hsem hspare hagree (fun d => ?_) (Or.inl ⟨_, rfl, rfl⟩)
        rw [exec_binary (a := .integer (BitVec.ofInt 32 0)) rfl hx, hcalc]
      | _ => cases hty
    | float =>
      obtain ⟨z, s1, run1, run2⟩ := run_bind_inv run
      cases run2
      obtain ⟨code, w', hy, hsem⟩ :=
        value_computes (i := (.fneg · u)) hs (fun _ => rfl) (fun _ => rfl) (fun _ => rfl)
          run1 .float
      refine ⟨code, w', hy, ?_⟩
      intro W T hspare act store x hagree hx hty
      cases x with
      | float y => exact hsem hspare hagree (fun d => exec_fneg hx d) (Or.inl ⟨_, rfl, rfl⟩)
      | _ => cases hty
    | _ => cases run

/-- **Reading a variable** whose address is computed. -/
theorem readAt_computes {place : Place} {symbol : Symbol} {address : Option Value}
    {locate : (W : World) → Exec W (Variable × Nat)}
    (ha : ∀ a, address = some a → Addresses env s w s1 locate a symbol.ty)
    (run : readAt place symbol address s1 = .ok (some (v, ty), s')) :
    Computes env s w s' (fun W => do
      let (u, k) ← locate W
      let value ← Exec.read u k
      if place.negated then Exec.lift value.negate else return value) v ty := by
  unfold readAt at run
  split at run
  · cases run
  · rename_i a
    obtain ⟨x, s2, run1, run2⟩ := run_bind_inv run
    obtain ⟨code1, w1, hputs1, hsem1⟩ := ha a rfl
    obtain ⟨rfl, w2, hputs2, hid2⟩ :=
      emitValue_puts hputs1.placed (fun _ => rfl) (fun _ => rfl) run1
    have hset := (settled_register symbol.ty.ir place.name w1.fn.nextId).mono hid2
    obtain ⟨code3, w3, hy3, hsem3⟩ :=
      negate_computes hputs2.placed hset (by simp [Value.register]) run2
    refine ⟨code1 ++ (_ ++ code3), w3, hputs1.yields (hputs2.yields hy3), ?_⟩
    intro W T hknows hspare act store hagree
    have hknows2 := hknows.anti hy3.toStill
    refine (hsem1 (hknows2.anti hputs2.toStill) hspare.left hagree).bind ?_
    rintro ⟨u, k⟩ store1 act1 h1
    -- the cell of the storage holds what the variable holds
    have hcell := h1.agrees.cells u h1.mem k h1.bound
    have hty := (h1.agrees.typed u h1.mem k h1.bound).trans h1.ty
    have hload : T.Matches _ act1 (Exec.read u k store1) fun value store' act' =>
        store' = store1 ∧ T.Gives w1.fn.nextId act1
          (.register symbol.ty.ir (numbered place.name w1.fn.nextId)) symbol.ty value store' act' :=
      ⟨_, Target.execCode_single (exec_load h1.value _ symbol.ty.ir), rfl, by
        rw [hcell]
        exact h1.agrees.gives_set hspare.right.left rfl symbol.ty.ir hty⟩
    refine hload.bind ?_
    rintro value store2 act2 ⟨-, h2⟩
    refine (hsem3 hspare.right.right h2.agrees h2.value h2.ty).mono fun z store' act' h3 => ?_
    exact (h3.after h2.keeps h2.kept hputs2.spot.fn.nextId).after h1.keeps h1.kept
      hputs1.spot.fn.nextId

/-! ## Calls -/

/-- Behind the code the operands stand for the values. -/
structure Target.GivesAll {W : World} (T : Target W) (n : Nat) (act : Activation W)
    (vs : List Value) (xs : List W.Val) (store : Store W) (act' : Activation W) : Prop where
  agrees : T.Agrees act' store
  keeps : act.Keeps n act'
  kept : act'.mem = act.mem
  values : Evals T.module act' vs xs

/-- Lowering added code for several expressions: it does what their evaluation in order does, and
the operands stand for the values. -/
def ComputesAll (env : Env) (s : Lowering) (w : Spot) (s' : Lowering)
    (eval : (W : World) → Exec W (List W.Val)) (vs : List Value) : Prop :=
  ∃ code w', s.Puts w code s' w' ∧
    ∀ {W : World} {T : Target W}, T.Knows env s' → T.Spares code →
      ∀ {act : Activation W} {store : Store W}, T.Agrees act store →
      T.Matches code act (eval W store) (T.GivesAll w.fn.nextId act vs)

theorem Computes.still (h : Computes env s w s' x v ty) : s.Still s' := by
  obtain ⟨code, w', hy, -⟩ := h
  exact hy.toStill

/-- **An argument** is promoted to the type of its parameter. -/
theorem passValue_computes {slot : ArgumentSlot} {result : Result}
    (hparam : slot.param = some ⟨ty, none⟩)
    (hx : ∀ u uty, result = some (u, uty) → Computes env s w s1 x u uty)
    (run : passValue line slot result s1 = .ok (some v, s')) :
    Computes env s w s' (fun W => do
      let value ← x W
      return W.promote ty value) v ty := by
  unfold passValue at run
  split at run
  · cases run
  · rename_i u uty
    rw [hparam] at run
    dsimp only at run
    by_cases hfit : uty.fits ty = true
    · rw [if_pos ⟨rfl, hfit⟩] at run
      obtain ⟨_, run, heq⟩ := run_map_inv run
      cases heq
      obtain ⟨code1, w1, hy1, hsem1⟩ := hx u uty rfl
      obtain ⟨code2, w2, hy2, hsem2⟩ :=
        coerce_computes hy1.placed hy1.settled hy1.literal hfit run
      refine ⟨code1 ++ code2, w2, hy1.toPuts.yields hy2, ?_⟩
      intro W T hknows hspare act store hagree
      refine (hsem1 (hknows.anti hy2.toStill) hspare.left hagree).bind fun a store1 act1 h1 => ?_
      refine (hsem2 hspare.right h1.agrees h1.value h1.ty).mono fun z store' act' h2 => ?_
      exact h2.after h1.keeps h1.kept hy1.spot.fn.nextId
    · rw [if_neg fun h => hfit h.2] at run
      cases run

theorem computesAll_nil (hs : s.In w) : ComputesAll env s w s (fun _ => pure []) [] := by
  refine ⟨[], w, hs.puts_nil, ?_⟩
  intro W T _ _ act store hagree
  exact .pure ⟨hagree, .refl _ _, rfl, .nil⟩

/-- An argument in front of others. -/
theorem Computes.cons {xs : (W : World) → Exec W (List W.Val)} {vs : List Value}
    (hx : Computes env s w s1 x v ty)
    (hxs : ∀ {w1 : Spot}, s1.In w1 → ComputesAll env s1 w1 s' xs vs) :
    ComputesAll env s w s' (fun W => do
      let value ← x W
      let values ← xs W
      return value :: values) (v :: vs) := by
  obtain ⟨code1, w1, hy1, hsem1⟩ := hx
  obtain ⟨code2, w2, hputs2, hsem2⟩ := hxs hy1.placed
  refine ⟨code1 ++ code2, w2, hy1.toPuts.trans hputs2, ?_⟩
  intro W T hknows hspare act store hagree
  refine (hsem1 (hknows.anti hputs2.toStill) hspare.left hagree).bind fun a store1 act1 h1 => ?_
  rw [← List.append_nil code2]
  refine (hsem2 hknows hspare.right h1.agrees).bind fun values store2 act2 h2 => ?_
  have hv : v.eval T.module act2.regs = some (.data a) := by
    rw [h2.keeps.eval hy1.settled, h1.value]
  exact .pure ⟨h2.agrees, h1.keeps.trans (h2.keeps.anti hy1.spot.fn.nextId), h2.kept.trans h1.kept,
    .cons hv h2.values⟩

/-- **A call** of a routine, with the code of its arguments. -/
theorem finishCall_computes {callee : String} {r : Routine} {params : List ParamShape}
    {values : List (Option Value)} {xs : (W : World) → Exec W (List W.Val)} (hscene : Scene env s)
    (hr : r ∈ Routine.callable)
    (hxs : ∀ vs, params.length = values.length → allSome values = some vs →
      ComputesAll env s w s1 xs vs)
    (run : finishCall line callee r.symbol params values s1 = .ok (some (v, ty), s')) :
    Computes env s w s' (fun W => do
      let values ← xs W
      Exec.ask r.name values) v ty := by
  unfold finishCall at run
  by_cases hlen : params.length = values.length
  · rw [if_neg (not_not_intro hlen)] at run
    cases hall : allSome values with
    | none =>
      rw [hall] at run
      cases run
    | some vs =>
      rw [hall] at run
      obtain ⟨code1, w1, hputs1, hsem1⟩ := hxs vs hlen hall
      have hr' : r ∈ Routine.callable ++ [Routine.stringEquals] := List.mem_append_left _ hr
      obtain ⟨⟨⟩, s2, run1, run⟩ := run_bind_inv run
      obtain ⟨hputs2, hdeclared⟩ :=
        declareRoutine_puts hputs1.placed (hputs1.scene hscene) hr' run1
      obtain ⟨x, s3, run2, run3⟩ := run_bind_inv run
      cases run3
      obtain ⟨rfl, w3, hputs3, hid⟩ :=
        emitValue_puts hputs2.placed (fun _ => rfl) (fun _ => rfl) run2
      refine ⟨code1 ++ _, w3, hputs1.yields (hputs2.yields (yields_register hputs3 hid)), ?_⟩
      intro W T hknows hspare act store hagree
      have hcall := (hputs3.module.trans hknows.module).declaration? hdeclared
      have hknows1 := (hknows.anti hputs3.toStill).anti hputs2.toStill
      refine (hsem1 hknows1 hspare.left hagree).bind fun values store1 act1 h1 => ?_
      refine (Target.ask_matches h1.agrees hspare.right rfl r.ret.ir hr'
        (exec_call h1.values hcall _ _)).mono fun z store' act' h2 => ?_
      exact h2.after h1.keeps h1.kept hputs1.spot.fn.nextId
  · rw [if_pos hlen] at run
    cases run

/-! ## Expressions -/

mutual

/-- In the expression, in which types are filled in, no procedure is called and no strings are
compared. -/
def Expr.Direct : Expr → Prop
  | .literal _ _ _ => True
  | .read place _ _ => place.Direct
  | .not operand _ _ => operand.Direct
  | .binary op lhs rhs _ _ => lhs.Direct ∧ rhs.Direct ∧ ¬ (op = .eq ∧ lhs.ty = some .string)
  | .call _ _ _ _ => False

/-- So it is with the index of a place. -/
def Place.Direct : Place → Prop
  | .whole _ _ _ => True
  | .element _ index _ _ => index.Direct

end

mutual

def Expr.decideDirect : (e : Expr) → Decidable e.Direct
  | .literal _ _ _ => .isTrue trivial
  | .read place _ _ => place.decideDirect
  | .not operand _ _ => operand.decideDirect
  | .binary op lhs rhs _ _ =>
    have := lhs.decideDirect
    have := rhs.decideDirect
    inferInstanceAs (Decidable (lhs.Direct ∧ rhs.Direct ∧ ¬ (op = .eq ∧ lhs.ty = some .string)))
  | .call _ _ _ _ => .isFalse id

def Place.decideDirect : (place : Place) → Decidable place.Direct
  | .whole _ _ _ => .isTrue trivial
  | .element _ index _ _ => index.decideDirect

end

instance (e : Expr) : Decidable e.Direct := e.decideDirect

/-- What is asked of names: those of variables stand for variables of the environment, and those of
procedures for routines, unless none is called. -/
structure Suits (env : Env) (s : Lowering) (direct : Prop) : Prop where
  names : Names env s
  calls : Scene env s ∨ direct

theorem Scene.suits (h : Scene env s) (direct : Prop) : Suits env s direct :=
  ⟨h.names, Or.inl h⟩

theorem Suits.imp {p q : Prop} (h : Suits env s p) (hpq : p → q) : Suits env s q :=
  ⟨h.names, h.calls.imp_right hpq⟩

theorem Lowering.Still.suits {direct : Prop} (h : s.Still s') (hs : Suits env s direct) :
    Suits env s' direct :=
  ⟨h.names hs.names, hs.calls.imp_left h.scene⟩

/-- Only `==` compares strings. -/
theorem operation?_equalStrings {op : BinaryOp} {lty rty : Ty}
    (h : op.operation? lty rty = some .equalStrings) : op = .eq ∧ lty = .string := by
  cases op <;> cases lty <;> cases rty <;> cases h
  exact ⟨rfl, rfl⟩

/-- No routine takes an array. -/
theorem passArray_ne_some {slot : ArgumentSlot} {array : Symbol} {len : Nat}
    (hparam : slot.param = some ⟨ty, none⟩) :
    passArray line slot array len s ≠ .ok (some v, s') := by
  unfold passArray
  rw [hparam]
  dsimp only
  rw [if_neg (by simp)]
  intro run
  cases run

mutual

/-- **The code of an expression** does what the evaluation of the expression does. -/
theorem expr_computes : ∀ (e : Expr) {s s' : Lowering} {w : Spot} {v : Value} {ty : Ty} {e' : Expr},
    e.InRange → s.In w → Suits env s e'.Direct → e.lower s = .ok ((some (v, ty), e'), s') →
    Computes env s w s' (fun W => e.eval W env) v ty
  | .literal value line _, s, s', w, v, ty, e', hr, hs, hsuits, run => by
    rw [Expr.lower] at run
    obtain ⟨result, s1, run1, run2⟩ := run_bind_inv run
    cases run2
    simp only [Expr.eval]
    exact literal_computes hs hr run1
  | .read place line _, s, s', w, v, ty, e', hr, hs, hsuits, run => by
    rw [Expr.lower] at run
    obtain ⟨_, _, hget, rest1⟩ := run_bind_inv run
    cases hget
    obtain ⟨found, s1, run1, rest2⟩ := run_bind_inv rest1
    cases found with
    | none => cases rest2
    | some symbol =>
      obtain ⟨hsymbol, hs1⟩ := orReport_inv run1
      rw [hs1] at rest2
      obtain ⟨⟨address, lowered⟩, s2, run2, rest3⟩ := run_bind_inv rest2
      obtain ⟨result, s3, run3, run4⟩ := run_bind_inv rest3
      cases run4
      simp only [Expr.eval]
      refine readAt_computes ?_ run3
      rintro a rfl
      exact place_computes place hr hs hsuits hsymbol run2
  | .not operand line _, s, s', w, v, ty, e', hr, hs, hsuits, run => by
    rw [Expr.lower] at run
    obtain ⟨⟨value, lowered⟩, s1, run1, rest1⟩ := run_bind_inv run
    obtain ⟨result, s2, run2, run3⟩ := run_bind_inv rest1
    cases run3
    simp only [Expr.eval]
    refine complement_computes ?_ run2
    rintro u uty rfl
    have hoperand : Suits env s lowered.Direct := hsuits
    exact expr_computes operand hr hs hoperand run1
  | .binary op lhs rhs line _, s, s', w, v, ty, e', hr, hs, hsuits, run => by
    rw [Expr.lower] at run
    obtain ⟨⟨left, lhs'⟩, s1, run1, rest1⟩ := run_bind_inv run
    obtain ⟨⟨right, rhs'⟩, s2, run2, rest2⟩ := run_bind_inv rest1
    obtain ⟨result, s3, run3, run4⟩ := run_bind_inv rest2
    cases run4
    obtain ⟨l, lty, r, rty, o, rfl, rfl, ho, rfl, hoperate⟩ := binary_inv run3
    simp only [Expr.eval]
    have hl := expr_computes lhs hr.1 hs (hsuits.imp And.left) run1
    refine binary_computes hl (fun hs1 => ?_) ho ?_ hoperate
    · have hrhs : Suits env s rhs'.Direct := hsuits.imp fun h => h.2.1
      exact expr_computes rhs hr.2 hs1 (hl.still.suits hrhs) run2
    · rintro rfl
      obtain ⟨hop, hlty⟩ := operation?_equalStrings ho
      refine hsuits.calls.resolve_right fun h => h.2.2 ⟨hop, ?_⟩
      rw [lower_ty run1, hlty]
      rfl
  | .call callee args line _, s, s', w, v, ty, e', hr, hs, hsuits, run => by
    rw [Expr.lower] at run
    obtain ⟨_, _, hget, rest1⟩ := run_bind_inv run
    cases hget
    cases hl : s.symbols.lookup? callee with
    | none =>
      rw [hl] at rest1
      cases rest1
    | some symbol =>
      rw [hl] at rest1
      cases hk : symbol.kind with
      | procedure params =>
        simp only [hk] at rest1
        obtain ⟨⟨values, lowered⟩, s1, run1, rest2⟩ := run_bind_inv rest1
        obtain ⟨result, s2, run2, run3⟩ := run_bind_inv rest2
        cases run3
        have hscene : Scene env s := hsuits.calls.resolve_right id
        obtain ⟨r, hmem, hfind, rfl⟩ := hscene.routine hl hk
        cases hk
        simp only [Expr.eval, hfind]
        refine finishCall_computes hscene hmem ?_ run2
        intro vs hlen hall
        rw [List.length_map] at hlen
        exact args_computes callee args hr hs hscene run1 hlen hall
      | _ =>
        dsimp only at rest1
        rw [hk] at rest1
        cases rest1

/-- **The code of a place** looks for the place as the program does. -/
theorem place_computes : ∀ (place : Place) {s s' : Lowering} {w : Spot} {symbol : Symbol}
    {a : Value} {place' : Place}, place.InRange → s.In w → Suits env s place'.Direct →
    s.resolveVariable place.name = .ok symbol → place.lower symbol s = .ok ((some a, place'), s') →
    Addresses env s w s' (fun W => place.locate W env) a symbol.ty
  | .whole name negated line, s, s', w, symbol, a, place', _, hs, hsuits, hsymbol, run => by
    obtain ⟨v, hv, hfind, hd, hb⟩ := hsuits.names hsymbol
    replace hfind : env.find? name = some v := hfind
    rw [Place.lower, hd.kind] at run
    rw [hd.ty]
    simp only [Place.locate, hfind]
    cases hlen : v.len with
    | none =>
      rw [hlen] at run
      cases run
      exact whole_addresses hs hv hlen hb
    | some len =>
      rw [hlen] at run
      cases run
  | .element name index negated line, s, s', w, symbol, a, place', hr, hs, hsuits, hsymbol,
    run => by
    obtain ⟨v, hv, hfind, hd, hb⟩ := hsuits.names hsymbol
    replace hfind : env.find? name = some v := hfind
    rw [Place.lower, hd.kind] at run
    rw [hd.ty]
    simp only [Place.locate, hfind]
    cases hlen : v.len with
    | none =>
      rw [hlen] at run
      cases run
    | some len =>
      rw [hlen] at run
      obtain ⟨⟨value, lowered⟩, s1, run1, rest1⟩ := run_bind_inv run
      obtain ⟨address, s2, run2, run3⟩ := run_bind_inv rest1
      cases run3
      refine element_addresses hv hlen hb ?_ run2
      rintro u uty rfl
      exact expr_computes index hr hs hsuits run1

/-- **The code of arguments** evaluates them in order. -/
theorem args_computes (callee : String) : ∀ (args : List Expr) {s s' : Lowering} {w : Spot}
    {position : Nat} {tys : List Ty} {values : List (Option Value)} {lowered : List Expr}
    {vs : List Value}, ArgsInRange args → s.In w → Scene env s →
    lowerArgs callee position (tys.map fun ty => ⟨ty, none⟩) args s = .ok ((values, lowered), s') →
    tys.length = values.length → allSome values = some vs →
    ComputesAll env s w s' (fun W => evalArgs W env tys args) vs
  | [], s, s', w, position, tys, values, lowered, vs, _, hs, _, run, hlen, hall => by
    rw [lowerArgs] at run
    cases run
    cases hall
    cases List.length_eq_zero_iff.mp hlen
    simp only [evalArgs]
    exact computesAll_nil hs
  | arg :: args, s, s', w, position, tys, values, lowered, vs, hr, hs, hscene, run, hlen, hall => by
    obtain ⟨value, values, lowered', s1, rfl, rest, hvalue⟩ := lowerArgs_cons_inv run
    obtain ⟨v, vs, rfl, rfl, hrest⟩ := allSome_cons_inv hall
    cases tys with
    | nil => cases hlen
    | cons ty tys =>
      obtain ⟨array, len, -, run1⟩ | ⟨-, result, arg', s0, run1, run2⟩ := hvalue
      · exact absurd run1 (passArray_ne_some rfl)
      · have hx : Computes env s w s1 (fun W => do
            let value ← arg.eval W env
            return W.promote ty value) v ty := by
          refine passValue_computes rfl ?_ run2
          rintro u uty rfl
          exact expr_computes arg hr.1 hs (hscene.suits _) run1
        have hxs : ∀ {w1 : Spot}, s1.In w1 →
            ComputesAll env s1 w1 s' (fun W => evalArgs W env tys args) vs := by
          intro w1 hs1
          exact args_computes callee args hr.2 hs1 (hx.still.scene hscene) rest
            (Nat.succ.inj hlen) hrest
        have hcons := hx.cons hxs
        simp only [bind_assoc, pure_bind] at hcons
        simp only [evalArgs]
        exact hcons

end

end ProcLang
