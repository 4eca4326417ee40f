import ProcLang.Proofs.Meaning.Match
import ProcLang.Proofs.Meaning.Range
import ProcLang.Proofs.Stage.Expr

/-!
# The code of operators

What the lowering of operators and promotions adds does what the operators do, in every world. What
a lowering function adds is read off its run, so every lemma starts from a run that has an answer.

* `coerce_computes`: promotion, in code or beforehand;
* `operation?_apply`: the operation that is chosen calculates what the operator does;
* `binary_computes`, `complement_computes`: operators with the code of their operands.
-/

namespace ProcLang

open Ir Naming

/-! ## Results -/

/-- The code was put into one block, and the operand stands for its result. If it is an integer
constant, it has 32 bits. -/
structure Lowering.Yields (s : Lowering) (w : Spot) (code : List Instr) (s' : Lowering) (w' : Spot)
    (v : Value) (ty : Ty) : Prop extends s.Puts w code s' w' where
  settled : v.Settled w'.fn.nextId
  literal : ty = .integer → ∀ n, v.operand = .int n → InRange n

variable {env : Env} {s s' s1 : Lowering} {w : Spot} {op : BinaryOp} {v : Value} {W : World}
  {ty lty rty : Ty} {hint : String} {a : W.Val} {o : Operation}

/-- The result of an instruction. -/
theorem yields_register {i : Instr} {irTy : Ir.Ty} {w' : Spot} (h : s.Puts w [i] s' w')
    (hid : w.fn.nextId < w'.fn.nextId) :
    s.Yields w [i] s' w' (.register irTy (numbered hint w.fn.nextId)) ty :=
  ⟨h, (settled_register _ _ _).mono hid, fun _ n hn => by cases hn⟩

theorem Lowering.Puts.yields {w1 w' : Spot} {code code' : List Instr} (h : s.Puts w code s1 w1)
    (h' : s1.Yields w1 code' s' w' v ty) : s.Yields w (code ++ code') s' w' v ty :=
  ⟨h.trans h'.toPuts, h'.settled, h'.literal⟩

/-! ## Promotion -/

theorem eval_integer {m : Module} {regs : String → Option (Word W)} {n : Int} {x : W.Val}
    (hop : v.operand = .int n) (hx : v.eval m regs = some (.data x)) (hty : x.ty = .integer) :
    x = .integer (BitVec.ofInt 32 n) := by
  rw [Value.eval, hop] at hx
  dsimp only at hx
  split at hx
  · cases hx
    rfl
  · cases hx
    cases hty
  · cases hx

/-- **A value as one of another type**: the code promotes it. -/
theorem coerce_computes (hs : s.In w) {v' : Value} {ty ty' : Ty} (hv : v.Settled w.fn.nextId)
    (hlit : ty = .integer → ∀ n, v.operand = .int n → InRange n) (hfit : ty.fits ty' = true)
    (run : Lower.coerce v ty ty' s = .ok (v', s')) :
    ∃ code w', s.Yields w code s' w' v' ty' ∧
      ∀ {W : World} {T : Target W}, T.Spares code → ∀ {act : Activation W} {store : Store W}
        {x : W.Val}, T.Agrees act store → v.eval T.module act.regs = some (.data x) → x.ty = ty →
        T.Matches code act (.ok (W.promote ty' x, store)) (T.Gives w.fn.nextId act v' ty') := by
  by_cases hpromote : ty = .integer ∧ ty' = .float
  · obtain ⟨rfl, rfl⟩ := hpromote
    rw [Lower.coerce] at run
    by_cases hconst : ∃ n, v.operand = .int n
    · -- a constant is converted beforehand
      obtain ⟨n, hop⟩ := hconst
      rw [Build.sitofp, hop] at run
      cases run
      refine ⟨[], w, ⟨hs.puts_nil, (fun r hr => by cases hr), fun h => by cases h⟩, ?_⟩
      intro W T _ act store x hagree hx hty
      have hx' : x = .integer (BitVec.ofInt 32 n) := eval_integer hop hx hty
      subst hx'
      have hpromote : W.promote .float (.integer (BitVec.ofInt 32 n)) =
          .float (W.constant (.ofInt n)) := by
        rw [World.promote, if_pos rfl, W.ofInteger_eq _ _ (Binary32.ofInt_rounds _),
          (hlit rfl n hop).toInt_ofInt]
      rw [hpromote]
      exact .pure ⟨hagree, .refl _ _, rfl, rfl, rfl⟩
    · have hstep : Build.sitofp v "conv" = Build.emitValue "conv" .float (.sitofp · v) := by
        unfold Build.sitofp
        split
        · rename_i n hn
          exact absurd ⟨n, hn⟩ hconst
        · rfl
      rw [hstep] at run
      obtain ⟨rfl, w', hputs, hid⟩ := emitValue_puts hs (fun _ => rfl) (fun _ => rfl) run
      refine ⟨_, w', yields_register hputs hid, ?_⟩
      intro W T hspare act store x hagree hx hty
      cases x with
      | integer n =>
        exact Target.lift_matches hagree hspare rfl .float (r := .ok _) (exec_sitofp hx _)
          (fun x hx => by cases hx; rfl) (by simp)
      | _ => cases hty
  · have hsame : Lower.coerce v ty ty' = pure v := by
      unfold Lower.coerce
      split
      · exact absurd ⟨rfl, rfl⟩ hpromote
      · rfl
    rw [hsame] at run
    cases run
    have heq : ty = ty' := Ty.eq_of_fits hfit hpromote
    subst heq
    refine ⟨[], w, ⟨hs.puts_nil, hv, hlit⟩, ?_⟩
    intro W T _ act store x hagree hx hty
    have hpromote : W.promote ty x = x := by
      cases x with
      | integer n =>
        have hne : ty ≠ .float := by
          rintro rfl
          cases hty
        exact if_neg hne
      | _ => rfl
    rw [hpromote]
    exact .pure ⟨hagree, .refl _ _, rfl, hx, hty⟩

/-! ## Operators -/

/-- What an operation calculates. -/
def Operation.calculate {W : World} (o : Operation) (a b : W.Val) : Except Refusal W.Val :=
  match o with
  | bits op _ | integers op => op.calculate a b
  | floats op => op.calculate (W.promote .float a) (W.promote .float b)
  | compareIntegers pred => pred.calculate a b
  | compareFloats pred => pred.calculate (W.promote .float a) (W.promote .float b)
  | equalStrings => .error .stuck

theorem quotient_cases (a b : BitVec 32) :
    (∃ q, quotient a b = .ok q) ∨ quotient a b = .error .fault := by
  unfold quotient
  split
  · exact Or.inr rfl
  · exact Or.inl ⟨_, rfl⟩

/-- **The operation that an operator stands for** calculates what the operator does. -/
theorem operation?_apply {b : W.Val} (h : op.operation? a.ty b.ty = some o)
    (hne : o ≠ .equalStrings) :
    op.apply a b = Exec.lift (o.calculate a b) ∧
      ((∃ x, o.calculate a b = .ok x ∧ x.ty = o.ty) ∨ o.calculate a b = .error .fault) := by
  cases op <;> cases a <;> cases b <;> cases h
  case div.integer.integer.refl a b =>
    refine ⟨rfl, ?_⟩
    change (∃ x, Val.integer <$> quotient a b = .ok x ∧ _) ∨ Val.integer <$> quotient a b = _
    rcases quotient_cases a b with ⟨q, hq⟩ | hq
    · rw [hq]
      exact Or.inl ⟨_, rfl, rfl⟩
    · rw [hq]
      exact Or.inr rfl
  case eq.string.string.refl => exact absurd rfl hne
  all_goals exact ⟨rfl, Or.inl ⟨_, rfl, rfl⟩⟩

theorem operation?_strings {b : W.Val} (h : op.operation? a.ty b.ty = some .equalStrings) :
    op.apply a b = Exec.ask Routine.stringEquals.name [a, b] := by
  cases op <;> cases a <;> cases b <;> cases h
  rfl

/-- A routine that is asked for is declared, as no function has its name. -/
theorem declareRoutine_puts (hs : s.In w) (hscene : Scene env s) {r : Routine}
    (hr : r ∈ Routine.callable ++ [Routine.stringEquals])
    (run : Lower.build (.declareRoutine r.name) s = .ok ((), s')) :
    s.Puts w [] s' w ∧ (s'.builder.module.declaration? r.name).isSome = true := by
  have names : ∀ r ∈ Routine.callable ++ [Routine.stringEquals], r.name ≠ Lower.mainName ∧
      Routine.find? r.name = some r := by decide
  obtain ⟨hmain, hfind⟩ := names r hr
  have hfun : (s.builder.module.function? r.name).isSome = false := by
    rw [Bool.eq_false_iff]
    intro hsome
    obtain ⟨f, hf⟩ := Option.isSome_iff_exists.mp hsome
    have hname : f.name = r.name := by simpa using List.find?_some hf
    have hmem : f.name ∈ s.builder.module.functions.map Function.name :=
      List.mem_map_of_mem (List.mem_of_find?_eq_some hf)
    rw [hscene.functions, hname] at hmem
    exact hmain (List.mem_singleton.mp hmem)
  obtain ⟨b, hb, rfl⟩ := build_inv run
  rw [Build.declareRoutine_known hfun hfind] at hb
  cases hdeclared : (s.builder.module.declaration? r.declaration.name).isSome with
  | true =>
    rw [Build.declareFunction_old hdeclared] at hb
    cases hb
    exact ⟨hs.puts_nil, hdeclared⟩
  | false =>
    rw [Build.declareFunction_new hdeclared] at hb
    cases hb
    refine ⟨outside_puts hs ⟨⟨List.prefix_rfl, List.prefix_append _ _, rfl⟩, rfl, rfl, rfl⟩
      rfl rfl, ?_⟩
    rw [Module.declaration?, List.find?_isSome]
    exact ⟨r.declaration, List.mem_append_right _ (List.mem_singleton.mpr rfl),
      by simp [Routine.declaration]⟩

/-- An instruction that calculates a value. -/
theorem value_computes (hs : s.In w) {irTy : Ir.Ty} {i : String → Instr}
    (ha : ∀ d, (i d).isAlloca = false) (ht : ∀ d, (i d).isTerminator = false)
    (hd : ∀ d, (i d).dest? = some d) (run : Lower.build (.emitValue hint irTy i) s = .ok (v, s'))
    (ty : Ty) :
    ∃ code w', s.Yields w code s' w' v ty ∧
      ∀ {W : World} {T : Target W}, T.Spares code →
        ∀ {act : Activation W} {store : Store W} {r : Except Refusal W.Val}, T.Agrees act store →
        (∀ d, (i d).exec T.module act =
          (Machine.lift r >>= fun x => Machine.set d (.data x)) act) →
        ((∃ x, r = .ok x ∧ x.ty = ty) ∨ r = .error .fault) →
        T.Matches code act (Exec.lift r store) (T.Gives w.fn.nextId act v ty) := by
  obtain ⟨rfl, w', hputs, hid⟩ := emitValue_puts hs ha ht run
  refine ⟨_, w', yields_register hputs hid, ?_⟩
  intro W T hspare act store r hagree hexec hr
  refine Target.lift_matches hagree hspare (hd _) irTy (hexec _) ?_ ?_
  · rintro x rfl
    obtain ⟨y, hy, hty⟩ | hfault := hr
    · cases hy
      exact hty
    · cases hfault
  · rintro rfl
    obtain ⟨y, hy, -⟩ | hfault := hr
    · cases hy
    · cases hfault

/-- An instruction on two values that are promoted to floats first. -/
theorem promoted_computes (hs : s.In w) {irTy : Value → Ir.Ty} {i : Value → Value → String → Instr}
    {lhs rhs : Value} (ha : ∀ l r d, (i l r d).isAlloca = false)
    (ht : ∀ l r d, (i l r d).isTerminator = false) (hd : ∀ l r d, (i l r d).dest? = some d)
    (hl : lhs.Settled w.fn.nextId) (hllit : lty = .integer → ∀ n, lhs.operand = .int n → InRange n)
    (hlfit : lty.fits .float = true) (hr : rhs.Settled w.fn.nextId)
    (hrlit : rty = .integer → ∀ n, rhs.operand = .int n → InRange n)
    (hrfit : rty.fits .float = true) (run : (do
      let l ← Lower.coerce lhs lty .float
      let r ← Lower.coerce rhs rty .float
      Lower.build (.emitValue hint (irTy l) (i l r)) : Lower Value) s = .ok (v, s')) (ty : Ty) :
    ∃ code w', s.Yields w code s' w' v ty ∧
      ∀ {W : World} {T : Target W}, T.Spares code →
        ∀ {act : Activation W} {store : Store W} {a b : W.Val} {r : Except Refusal W.Val},
        T.Agrees act store →
        lhs.eval T.module act.regs = some (.data a) → a.ty = lty →
        rhs.eval T.module act.regs = some (.data b) → b.ty = rty →
        (∀ l r' d act', l.eval T.module act'.regs = some (.data (W.promote .float a)) →
          r'.eval T.module act'.regs = some (.data (W.promote .float b)) →
          (i l r' d).exec T.module act' =
            (Machine.lift r >>= fun x => Machine.set d (.data x)) act') →
        ((∃ x, r = .ok x ∧ x.ty = ty) ∨ r = .error .fault) →
        T.Matches code act (Exec.lift r store) (T.Gives w.fn.nextId act v ty) := by
  obtain ⟨l, s1, run1, run⟩ := run_bind_inv run
  obtain ⟨r, s2, run2, run3⟩ := run_bind_inv run
  obtain ⟨code1, w1, hy1, hsem1⟩ := coerce_computes hs hl hllit hlfit run1
  have hr1 : rhs.Settled w1.fn.nextId := hr.mono hy1.spot.fn.nextId
  obtain ⟨code2, w2, hy2, hsem2⟩ := coerce_computes hy1.placed hr1 hrlit hrfit run2
  obtain ⟨code3, w3, hy3, hsem3⟩ :=
    value_computes hy2.placed (ha l r) (ht l r) (hd l r) run3 ty
  refine ⟨code1 ++ (code2 ++ code3), w3, hy1.toPuts.yields (hy2.toPuts.yields hy3), ?_⟩
  intro W T hspare act store a b outcome hagree hla hlty hrb hrty hexec hout
  refine (hsem1 hspare.left hagree hla hlty).seq fun act1 h1 => ?_
  have hrb1 : rhs.eval T.module act1.regs = some (.data b) := by rw [h1.keeps.eval hr, hrb]
  refine (hsem2 hspare.right.left h1.agrees hrb1 hrty).seq fun act2 h2 => ?_
  have hla2 : l.eval T.module act2.regs = some (.data (W.promote .float a)) := by
    rw [h2.keeps.eval hy1.settled, h1.value]
  refine (hsem3 hspare.right.right h2.agrees (fun d => hexec _ _ d act2 hla2 h2.value) hout).mono ?_
  intro x store' act' h3
  exact (h3.after h2.keeps h2.kept hy2.spot.fn.nextId).after h1.keeps h1.kept hy1.spot.fn.nextId

/-- **An operation** on two values does what the operator does. -/
theorem operate_computes (hs : s.In w) {lhs rhs : Value} (ho : op.operation? lty rty = some o)
    (hscene : o = .equalStrings → Scene env s) (hl : lhs.Settled w.fn.nextId)
    (hllit : lty = .integer → ∀ n, lhs.operand = .int n → InRange n) (hr : rhs.Settled w.fn.nextId)
    (hrlit : rty = .integer → ∀ n, rhs.operand = .int n → InRange n)
    (run : Lower.operate o lhs lty rhs rty s = .ok (v, s')) :
    ∃ code w', s.Yields w code s' w' v o.ty ∧
      ∀ {W : World} {T : Target W}, T.Knows env s' → T.Spares code →
        ∀ {act : Activation W} {store : Store W} {a b : W.Val}, T.Agrees act store →
        lhs.eval T.module act.regs = some (.data a) → a.ty = lty →
        rhs.eval T.module act.regs = some (.data b) → b.ty = rty →
        T.Matches code act (op.apply a b store) (T.Gives w.fn.nextId act v o.ty) := by
  have hsuits := BinaryOp.operation?_suits ho
  have happly : ∀ {W : World} {a b : W.Val}, a.ty = lty → b.ty = rty →
      op.operation? a.ty b.ty = some o := by
    rintro W a b rfl rfl
    exact ho
  cases o with
  | bits bop _
  | integers bop =>
    obtain ⟨code, w', hyields, hsem⟩ :=
      value_computes (i := (.binary · bop lhs rhs)) hs (fun _ => rfl) (fun _ => rfl) (fun _ => rfl)
        run _
    refine ⟨code, w', hyields, ?_⟩
    intro W T _ hspare act store a b hagree hla hlty hrb hrty
    obtain ⟨happ, hout⟩ := operation?_apply (happly hlty hrty) (by simp)
    rw [happ]
    exact hsem hspare hagree (fun d => exec_binary hla hrb d bop) hout
  | compareIntegers pred =>
    obtain ⟨code, w', hyields, hsem⟩ :=
      value_computes (i := (.icmp · pred lhs rhs)) hs (fun _ => rfl) (fun _ => rfl) (fun _ => rfl)
        run .bool
    refine ⟨code, w', hyields, ?_⟩
    intro W T _ hspare act store a b hagree hla hlty hrb hrty
    obtain ⟨happ, hout⟩ := operation?_apply (happly hlty hrty) (by simp)
    rw [happ]
    exact hsem hspare hagree (fun d => exec_icmp hla hrb d pred) hout
  | floats bop =>
    obtain ⟨code, w', hyields, hsem⟩ :=
      promoted_computes (i := fun l r d => .binary d bop l r) hs (fun _ _ _ => rfl)
        (fun _ _ _ => rfl) (fun _ _ _ => rfl) hl hllit hsuits.1 hr hrlit hsuits.2.1 run .float
    refine ⟨code, w', hyields, ?_⟩
    intro W T _ hspare act store a b hagree hla hlty hrb hrty
    obtain ⟨happ, hout⟩ := operation?_apply (happly hlty hrty) (by simp)
    rw [happ]
    exact hsem hspare hagree hla hlty hrb hrty (fun l r d act' h h' => exec_binary h h' d bop) hout
  | compareFloats pred =>
    obtain ⟨code, w', hyields, hsem⟩ :=
      promoted_computes (i := fun l r d => .fcmp d pred l r) hs (fun _ _ _ => rfl)
        (fun _ _ _ => rfl) (fun _ _ _ => rfl) hl hllit hsuits.1 hr hrlit hsuits.2 run .bool
    refine ⟨code, w', hyields, ?_⟩
    intro W T _ hspare act store a b hagree hla hlty hrb hrty
    obtain ⟨happ, hout⟩ := operation?_apply (happly hlty hrty) (by simp)
    rw [happ]
    exact hsem hspare hagree hla hlty hrb hrty (fun l r d act' h h' => exec_fcmp h h' d pred) hout
  | equalStrings =>
    obtain ⟨⟨⟩, s1, run1, run2⟩ := run_bind_inv run
    obtain ⟨hputs1, hdeclared⟩ :=
      declareRoutine_puts (r := Routine.stringEquals) hs (hscene rfl) (by decide) run1
    obtain ⟨rfl, w', hputs2, hid⟩ :=
      emitValue_puts hputs1.placed (fun _ => rfl) (fun _ => rfl) run2
    refine ⟨_, w', hputs1.yields (yields_register hputs2 hid), ?_⟩
    intro W T hknows hspare act store a b hagree hla hlty hrb hrty
    have hcall := (hputs2.module.trans hknows.module).declaration? hdeclared
    rw [operation?_strings (happly hlty hrty)]
    exact Target.ask_matches (r := Routine.stringEquals) hagree hspare rfl _ (by decide)
      (exec_call (.cons hla (.cons hrb .nil)) hcall _ _)

/-! ## Parts of expressions -/

/-- Lowering added code for an expression: it does what the evaluation does, and the operand stands
for the value. -/
def Computes (env : Env) (s : Lowering) (w : Spot) (s' : Lowering)
    (eval : (W : World) → Exec W W.Val) (v : Value) (ty : Ty) : Prop :=
  ∃ code w', s.Yields w code s' w' v ty ∧
    ∀ {W : World} {T : Target W}, T.Knows env s' → T.Spares code →
      ∀ {act : Activation W} {store : Store W}, T.Agrees act store →
      T.Matches code act (eval W store) (T.Gives w.fn.nextId act v ty)

/-- What the lowering of an operator that has a result went through. -/
theorem binary_inv {line : Nat} {lhs rhs : Result}
    (run : Lower.binary line op lhs rhs s = .ok (some (v, ty), s')) :
    ∃ l lty r rty o, lhs = some (l, lty) ∧ rhs = some (r, rty) ∧ op.operation? lty rty = some o ∧
      ty = o.ty ∧ Lower.operate o l lty r rty s = .ok (v, s') := by
  unfold Lower.binary at run
  split at run
  · rename_i l lty r rty
    cases ho : op.operation? lty rty with
    | some o =>
      rw [ho] at run
      obtain ⟨x, s1, run1, run2⟩ := run_bind_inv run
      cases run2
      exact ⟨l, lty, r, rty, o, rfl, rfl, ho, rfl, run1⟩
    | none =>
      rw [ho] at run
      cases run
  · cases run

/-- **An operator** between expressions whose code is there. -/
theorem binary_computes {s2 : Lowering} {x y : (W : World) → Exec W W.Val} {l r : Value}
    (hl : Computes env s w s1 x l lty)
    (hr : ∀ {w1 : Spot}, s1.In w1 → Computes env s1 w1 s2 y r rty)
    (ho : op.operation? lty rty = some o) (hscene : o = .equalStrings → Scene env s)
    (run : Lower.operate o l lty r rty s2 = .ok (v, s')) :
    Computes env s w s' (fun W => do
      let a ← x W
      let b ← y W
      op.apply a b) v o.ty := by
  obtain ⟨code1, w1, hy1, hsem1⟩ := hl
  obtain ⟨code2, w2, hy2, hsem2⟩ := hr hy1.placed
  have hl2 := hy1.settled.mono hy2.spot.fn.nextId
  obtain ⟨code3, w3, hy3, hsem3⟩ :=
    operate_computes hy2.placed ho (fun h => hy2.scene (hy1.scene (hscene h))) hl2 hy1.literal
      hy2.settled hy2.literal run
  refine ⟨code1 ++ (code2 ++ code3), w3, hy1.toPuts.yields (hy2.toPuts.yields hy3), ?_⟩
  intro W T hknows hspare act store hagree
  have hknows2 := hknows.anti hy3.toStill
  have hknows1 := hknows2.anti hy2.toStill
  refine (hsem1 hknows1 hspare.left hagree).bind fun a store1 act1 h1 => ?_
  refine (hsem2 hknows2 hspare.right.left h1.agrees).bind fun b store2 act2 h2 => ?_
  have hla : l.eval T.module act2.regs = some (.data a) := by
    rw [h2.keeps.eval hy1.settled, h1.value]
  refine (hsem3 hknows hspare.right.right h2.agrees hla h1.ty h2.value h2.ty).mono ?_
  intro z store' act' h3
  exact (h3.after h2.keeps h2.kept hy2.spot.fn.nextId).after h1.keeps h1.kept hy1.spot.fn.nextId

/-- The value whose bits are all set turns the bits of another value over. -/
theorem allBits?_complement {mask : Value} (h : Lower.allBits? a.ty = some mask) (m : Module)
    (regs : String → Option (Word W)) :
    ∃ b : W.Val, mask.eval m regs = some (.data b) ∧ BinOp.xor.calculate a b = a.complement ∧
      ∃ c, a.complement = .ok c ∧ c.ty = a.ty := by
  cases a with
  | integer n =>
    cases h
    refine ⟨.integer (BitVec.ofInt 32 (-1)), rfl, ?_, _, rfl, rfl⟩
    change Except.ok (Val.integer (n ^^^ BitVec.allOnes 32)) = .ok (.integer (~~~n))
    rw [BitVec.xor_allOnes]
  | bool b =>
    cases h
    refine ⟨.bool true, rfl, ?_, _, rfl, rfl⟩
    cases b <;> rfl
  | float x => cases h
  | string t => cases h

/-- **A complement** of an expression whose code is there. -/
theorem complement_computes {line : Nat} {x : (W : World) → Exec W W.Val} {result : Result}
    (hx : ∀ u uty, result = some (u, uty) → Computes env s w s1 x u uty)
    (run : Lower.complement line result s1 = .ok (some (v, ty), s')) :
    Computes env s w s' (fun W => do
      let a ← x W
      Exec.lift a.complement) v ty := by
  unfold Lower.complement at run
  split at run
  · cases run
  · rename_i u uty
    cases hmask : Lower.allBits? uty with
    | none =>
      rw [hmask] at run
      cases run
    | some mask =>
      rw [hmask] at run
      obtain ⟨z, s2, run1, run2⟩ := run_bind_inv run
      cases run2
      obtain ⟨code1, w1, hy1, hsem1⟩ := hx u ty rfl
      obtain ⟨code2, w2, hy2, hsem2⟩ :=
        value_computes (i := (.binary · .xor u mask)) hy1.placed (fun _ => rfl) (fun _ => rfl)
          (fun _ => rfl) run1 ty
      refine ⟨code1 ++ code2, w2, hy1.toPuts.yields hy2, ?_⟩
      intro W T hknows hspare act store hagree
      refine (hsem1 (hknows.anti hy2.toStill) hspare.left hagree).bind fun a store1 act1 h1 => ?_
      obtain ⟨b, hb, hcalc, hout⟩ := allBits?_complement (h1.ty ▸ hmask) T.module act1.regs
      rw [h1.ty] at hout
      refine (hsem2 hspare.right h1.agrees (fun d => ?_) (Or.inl hout)).mono ?_
      · rw [exec_binary h1.value hb, hcalc]
      · intro z store' act' h2
        exact h2.after h1.keeps h1.kept hy1.spot.fn.nextId

end ProcLang
