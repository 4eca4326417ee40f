import ProcLang.Proofs.Meaning.Machine
import ProcLang.Proofs.Meaning.Scene

/-!
# Code that does what a program does

A `Target` is a module in which variables have storage. `Target.Agrees` relates a
run of the module to a run of the program, and `Target.Matches` says that some code does the same as
a part of the program: both have the same outcome, and agree again behind it.

* `Target.Matches.bind`: parts in order;
* `lift_matches`, `ask_matches`: instructions that calculate, and calls.
-/

namespace ProcLang

open Ir Naming

/-- A module, and the storage of variables in it. -/
structure Target (W : World) where
  module : Module
  vars : List Variable
  /-- The operand that has the address of a variable. -/
  home : Variable → Operand
  /-- The storage at that address. Two arrays that were passed can be in one place. -/
  base : Variable → Operand

/-- The second activation holds the same in all registers with a number below the given one. -/
def Ir.Activation.Keeps {W : World} (n : Nat) (act act' : Activation W) : Prop :=
  ∀ r, Issued n r → act'.regs r = act.regs r

/-- If the operand is a register, it has a number below the given one. -/
def Ir.Value.Settled (n : Nat) (v : Value) : Prop :=
  ∀ r, v.operand = .register r → Issued n r

theorem Ir.Value.Settled.mono {v : Value} {m n : Nat} (h : v.Settled m) (hmn : m ≤ n) :
    v.Settled n :=
  fun r hr => (h r hr).mono hmn

theorem settled_register (ty : Ir.Ty) (hint : String) (n : Nat) :
    (Value.register ty (numbered hint n)).Settled (n + 1) := by
  intro r hr
  cases hr
  exact issued_numbered hint n

namespace Ir.Activation.Keeps

variable {W : World} {act act' act'' : Activation W} {m n : Nat}

theorem refl (n : Nat) (act : Activation W) : act.Keeps n act :=
  fun _ _ => rfl

theorem trans (h1 : act.Keeps n act') (h2 : act'.Keeps n act'') : act.Keeps n act'' :=
  fun r hr => (h2 r hr).trans (h1 r hr)

theorem anti (h : act.Keeps n act') (hmn : m ≤ n) : act.Keeps m act' :=
  fun r hr => h r (hr.mono hmn)

/-- An operand that was settled stands for the same. -/
theorem eval (h : act.Keeps n act') {v : Value} (hv : v.Settled n) (module : Module) :
    v.eval module act'.regs = v.eval module act.regs := by
  unfold Value.eval
  cases hop : v.operand with
  | register r => exact h r (hv r hop)
  | _ => rfl

theorem set (n : Nat) (hint : String) (word : Word W) (act : Activation W) :
    act.Keeps n (act.set (numbered hint n) word) := by
  intro r hr
  have hne : r ≠ numbered hint n := by
    rintro rfl
    exact not_issued_numbered hint n hr
  exact if_neg hne

end Ir.Activation.Keeps

variable {cells offset : Nat} {base : Operand} {i : Instr}

namespace Target

variable {W : World} (T : Target W)

/-- The run of the module and that of the program agree: the calls and the contents of the variables
are the same, and the module has the address of each variable. -/
structure Agrees (act : Activation W) (store : Store W) : Prop where
  trace : act.trace = store.trace
  cells : ∀ v ∈ T.vars, ∀ k < v.cells, act.mem (T.base v) k = store.mem v k
  typed : ∀ v ∈ T.vars, ∀ k < v.cells, (store.mem v k).ty = v.ty
  homes : ∀ v ∈ T.vars, Value.eval T.module act.regs ⟨.ptr, T.home v⟩ =
    some (.address (T.base v) v.cells 0)

/-- No two variables share storage. -/
def Apart : Prop :=
  ∀ u ∈ T.vars, ∀ v ∈ T.vars, T.base u = T.base v → u = v

/-- No instruction writes a register that holds the address of a variable. -/
def Spares (code : List Instr) : Prop :=
  ∀ i ∈ code, ∀ r, i.dest? = some r → ∀ v ∈ T.vars, T.home v ≠ .register r

/-- The target is that of a program which was lowered to the state so far. -/
structure Knows (env : Env) (s : Lowering) : Prop where
  module : s.builder.module.GrowsTo T.module
  homes : Homes T.home s.symbols
  vars : env.vars ⊆ T.vars

/-- The code does what a part of the program does. -/
def Matches {α : Type} (code : List Instr) (act : Activation W)
    (outcome : Except W.Stop (α × Store W)) (post : α → Store W → Activation W → Prop) : Prop :=
  match outcome with
  | .ok (a, store) => ∃ act', execCode T.module code act = .ok ((), act') ∧ post a store act'
  | .error (.fault trace) => execCode T.module code act = .error (.fault trace)
  | .error _ => False

variable {T} {act : Activation W} {store : Store W} {code code' : List Instr} {α β : Type}

theorem Spares.left (h : T.Spares (code ++ code')) : T.Spares code :=
  fun i hi => h i (List.mem_append_left _ hi)

theorem Spares.right (h : T.Spares (code ++ code')) : T.Spares code' :=
  fun i hi => h i (List.mem_append_right _ hi)

theorem Knows.anti {env : Env} {s s' : Lowering} (h : T.Knows env s') (ha : s.Still s') :
    T.Knows env s :=
  ⟨ha.module.trans h.module, h.homes.anti ha.symbols, h.vars⟩

theorem Agrees.set (h : T.Agrees act store) {r : String}
    (hr : ∀ v ∈ T.vars, T.home v ≠ .register r) (word : Word W) :
    T.Agrees (act.set r word) store where
  trace := h.trace
  cells := h.cells
  typed := h.typed
  homes v hv := by
    rw [← h.homes v hv]
    unfold Value.eval
    cases hop : T.home v with
    | register r' =>
      have hne : r' ≠ r := by
        rintro rfl
        exact hr v hv hop
      exact if_neg hne
    | _ => rfl

theorem execCode_append (m : Module) (code code' : List Instr) (act : Activation W) :
    execCode m (code ++ code') act = (execCode m code >>= fun _ => execCode m code') act := by
  induction code generalizing act with
  | nil => rfl
  | cons i code ih =>
    cases hi : i.exec m act with
    | error stop =>
      rw [List.cons_append, execCode, run_bind_error hi, run_bind_error]
      rw [execCode, run_bind_error hi]
    | ok r =>
      rw [List.cons_append, execCode, run_bind hi, ih]
      simp only [execCode, bind_assoc]
      rw [run_bind hi]

theorem Matches.pure {a : α} {post : α → Store W → Activation W → Prop} (h : post a store act) :
    T.Matches [] act (.ok (a, store)) post :=
  ⟨act, rfl, h⟩

/-- **Parts in order** match code in a row. -/
theorem Matches.bind {x : Exec W α} {f : α → Exec W β} {mid : α → Store W → Activation W → Prop}
    {post : β → Store W → Activation W → Prop} (hx : T.Matches code act (x store) mid)
    (hf : ∀ a store' act', mid a store' act' → T.Matches code' act' (f a store') post) :
    T.Matches (code ++ code') act ((x >>= f) store) post := by
  cases hrun : x store with
  | error stop =>
    rw [hrun] at hx
    rw [run_bind_error hrun]
    cases stop with
    | fault trace =>
      change execCode T.module (code ++ code') act = _
      rw [execCode_append, run_bind_error hx]
    | timeout => exact hx
    | stuck => exact hx
  | ok r =>
    obtain ⟨a, store'⟩ := r
    rw [hrun] at hx
    obtain ⟨act', hcode, hmid⟩ := hx
    rw [run_bind hrun]
    have hnext := hf a store' act' hmid
    unfold Matches at hnext ⊢
    rw [execCode_append, run_bind hcode]
    exact hnext

/-- Code that the program does nothing for, in front of other code. -/
theorem Matches.seq {a : α} {mid : α → Store W → Activation W → Prop}
    {outcome : Except W.Stop (β × Store W)} {post : β → Store W → Activation W → Prop}
    (hx : T.Matches code act (.ok (a, store)) mid)
    (hf : ∀ act', mid a store act' → T.Matches code' act' outcome post) :
    T.Matches (code ++ code') act outcome post := by
  obtain ⟨act', hcode, hmid⟩ := hx
  have hnext := hf act' hmid
  unfold Matches at hnext ⊢
  rw [execCode_append, run_bind hcode]
  exact hnext

theorem Matches.mono {outcome : Except W.Stop (α × Store W)}
    {post post' : α → Store W → Activation W → Prop} (h : T.Matches code act outcome post)
    (hp : ∀ a store act, post a store act → post' a store act) :
    T.Matches code act outcome post' := by
  cases outcome with
  | ok r =>
    obtain ⟨act', hcode, hpost⟩ := h
    exact ⟨act', hcode, hp _ _ _ hpost⟩
  | error stop => cases stop <;> exact h

/-! ## Values -/

/-- Behind the code the operand stands for the value, which has the type. Both runs agree, and the
registers from before and all storage are kept. -/
structure Gives (T : Target W) (n : Nat) (act : Activation W) (v : Value) (ty : Ty) (x : W.Val)
    (store : Store W) (act' : Activation W) : Prop where
  agrees : T.Agrees act' store
  keeps : act.Keeps n act'
  kept : act'.mem = act.mem
  value : v.eval T.module act'.regs = some (.data x)
  ty : x.ty = ty

/-- Code in front that keeps the registers and the storage too. -/
theorem Gives.after {m n : Nat} {act1 act' : Activation W} {v : Value} {ty : Ty} {x : W.Val}
    (h : T.Gives m act1 v ty x store act') (hk : act.Keeps n act1) (hmem : act1.mem = act.mem)
    (hn : n ≤ m) : T.Gives n act v ty x store act' :=
  ⟨h.agrees, hk.trans (h.keeps.anti hn), h.kept.trans hmem, h.value, h.ty⟩

theorem eval_set (m : Module) (ty : Ir.Ty) (r : String) (word : Word W) (act : Activation W) :
    (Value.register ty r).eval m (act.set r word).regs = some word :=
  if_pos rfl

theorem Agrees.gives_set (h : T.Agrees act store) {hint : String} {n : Nat} (hs : T.Spares [i])
    (hd : i.dest? = some (numbered hint n)) (irTy : Ir.Ty) {ty : Ty} {x : W.Val} (hx : x.ty = ty) :
    T.Gives n act (.register irTy (numbered hint n)) ty x store
      (act.set (numbered hint n) (.data x)) :=
  ⟨h.set (hs i (List.mem_singleton.mpr rfl) _ hd) _, .set n hint _ act, rfl, eval_set _ _ _ _ _, hx⟩

theorem execCode_single {m : Module} {x : Except W.Stop (Unit × Activation W)}
    (h : i.exec m act = x) : execCode m [i] act = x := by
  subst h
  cases hi : i.exec m act with
  | error stop => rw [execCode, run_bind_error hi]
  | ok r =>
    obtain ⟨⟨⟩, act'⟩ := r
    rw [execCode, run_bind hi]
    rfl

/-- **An instruction that calculates** matches the same calculation in the program. -/
theorem lift_matches (h : T.Agrees act store) {hint : String} {n : Nat} (hs : T.Spares [i])
    (hd : i.dest? = some (numbered hint n)) (irTy : Ir.Ty) {ty : Ty} {r : Except Refusal W.Val}
    (hexec : i.exec T.module act =
      (Machine.lift r >>= fun x => Machine.set (numbered hint n) (.data x)) act)
    (hty : ∀ x, r = .ok x → x.ty = ty) (hr : r ≠ .error .stuck) :
    T.Matches [i] act (Exec.lift r store)
      (T.Gives n act (.register irTy (numbered hint n)) ty) := by
  cases r with
  | ok x => exact ⟨_, execCode_single hexec, h.gives_set hs hd irTy (hty x rfl)⟩
  | error refusal =>
    cases refusal with
    | fault =>
      refine (execCode_single hexec).trans ?_
      change Except.error _ = Except.error _
      rw [h.trace]
    | stuck => exact absurd rfl hr

/-- **A call of a routine** matches the same call in the program. -/
theorem ask_matches (h : T.Agrees act store) {hint : String} {n : Nat} (hs : T.Spares [i])
    (hd : i.dest? = some (numbered hint n)) (irTy : Ir.Ty) {r : Routine}
    (hr : r ∈ Routine.callable ++ [Routine.stringEquals]) {args : List W.Val}
    (hexec : i.exec T.module act =
      (Machine.ask r.name args >>= fun x => Machine.set (numbered hint n) (.data x)) act) :
    T.Matches [i] act (Exec.ask r.name args store)
      (T.Gives n act (.register irTy (numbered hint n)) r.ret) := by
  cases hanswer : W.answer (store.trace ++ [⟨r.name, args⟩]) with
  | some x =>
    have hask : W.ask r.name args store.trace = .ok (x, store.trace ++ [⟨r.name, args⟩]) := by
      rw [World.ask, hanswer]
    have hrun : Machine.ask r.name args act =
        .ok (x, { act with trace := store.trace ++ [⟨r.name, args⟩] }) := by
      rw [Machine.ask, h.trace, hask]
    have h' : T.Agrees { act with trace := store.trace ++ [⟨r.name, args⟩] }
        { store with trace := store.trace ++ [⟨r.name, args⟩] } :=
      ⟨rfl, h.cells, h.typed, h.homes⟩
    rw [run_bind hrun] at hexec
    rw [Exec.ask, hask]
    obtain ⟨agrees, keeps, kept, value, ty⟩ :=
      h'.gives_set hs hd irTy (W.answer_ty hanswer r hr rfl)
    exact ⟨_, execCode_single hexec, agrees, keeps, kept, value, ty⟩
  | none =>
    have hask : W.ask r.name args store.trace =
        .error (.fault (store.trace ++ [⟨r.name, args⟩])) := by
      rw [World.ask, hanswer]
    have hrun : Machine.ask r.name args act =
        .error (.fault (store.trace ++ [⟨r.name, args⟩])) := by
      rw [Machine.ask, h.trace, hask]
    rw [run_bind_error hrun] at hexec
    rw [Exec.ask, hask]
    exact execCode_single hexec

end Target

/-! ## Instructions -/

section Exec

variable {W : World} {m : Module} {act : Activation W} {lhs rhs operand ptr : Value} {a b : W.Val}

theorem data_run (h : operand.eval m act.regs = some (.data a)) :
    Machine.data m operand act = .ok (a, act) := by
  rw [Machine.data, h]

theorem address_run (h : ptr.eval m act.regs = some (.address base cells offset)) :
    Machine.address m ptr act = .ok ((base, cells, offset), act) := by
  rw [Machine.address, h]

section Operands

variable (hl : lhs.eval m act.regs = some (.data a)) (hr : rhs.eval m act.regs = some (.data b))
  (dest : String)

include hl hr

theorem exec_binary (op : BinOp) :
    (Instr.binary dest op lhs rhs).exec m act =
      (Machine.lift (op.calculate a b) >>= fun x => Machine.set dest (.data x)) act := by
  rw [Instr.exec, run_bind (data_run hl), run_bind (data_run hr)]

theorem exec_icmp (pred : IntPredicate) :
    (Instr.icmp dest pred lhs rhs).exec m act =
      (Machine.lift (pred.calculate a b) >>= fun x => Machine.set dest (.data x)) act := by
  rw [Instr.exec, run_bind (data_run hl), run_bind (data_run hr)]

theorem exec_fcmp (pred : FloatPredicate) :
    (Instr.fcmp dest pred lhs rhs).exec m act =
      (Machine.lift (pred.calculate a b) >>= fun x => Machine.set dest (.data x)) act := by
  rw [Instr.exec, run_bind (data_run hl), run_bind (data_run hr)]

end Operands

theorem exec_fneg (h : operand.eval m act.regs = some (.data a)) (dest : String) :
    (Instr.fneg dest operand).exec m act =
      (Machine.lift (floatOpposite a) >>= fun x => Machine.set dest (.data x)) act := by
  rw [Instr.exec, run_bind (data_run h)]

theorem exec_sitofp (h : operand.eval m act.regs = some (.data a)) (dest : String) :
    (Instr.sitofp dest operand).exec m act =
      (Machine.lift (floatOfInteger a) >>= fun x => Machine.set dest (.data x)) act := by
  rw [Instr.exec, run_bind (data_run h)]

theorem exec_load (h : ptr.eval m act.regs = some (.address base cells offset)) (dest : String)
    (ty : Ir.Ty) :
    (Instr.load dest ty ptr).exec m act = .ok ((), act.set dest (.data (act.mem base offset))) := by
  rw [Instr.exec, run_bind (address_run h)]
  rfl

theorem exec_store (hv : operand.eval m act.regs = some (.data a))
    (h : ptr.eval m act.regs = some (.address base cells offset)) :
    (Instr.store operand ptr).exec m act = .ok ((), act.write base offset a) := by
  rw [Instr.exec, run_bind (data_run hv), run_bind (address_run h)]
  rfl

theorem exec_gep (h : ptr.eval m act.regs = some (.address base cells offset))
    (hi : operand.eval m act.regs = some (.data a)) (dest : String) (elem : Ir.Ty) :
    (Instr.gep dest elem ptr operand).exec m act =
      (Machine.lift (cellAt cells a) >>= fun k => Machine.set dest (.address base cells k))
        act := by
  rw [Instr.exec, run_bind (address_run h)]
  dsimp only
  rw [run_bind (data_run hi)]

/-- The operands stand for the values. -/
def Evals (m : Module) (act : Activation W) (vs : List Value) (xs : List W.Val) : Prop :=
  List.Forall₂ (fun v x => v.eval m act.regs = some (.data x)) vs xs

theorem dataAll_run {vs : List Value} {xs : List W.Val} (h : Evals m act vs xs) :
    dataAll m vs act = .ok (xs, act) := by
  induction h with
  | nil => rfl
  | cons hv _ ih =>
    rw [dataAll, run_bind (data_run hv), run_bind ih]
    rfl

theorem exec_call {vs : List Value} {xs : List W.Val} (h : Evals m act vs xs) {callee : String}
    (hc : (m.declaration? callee).isSome = true) (dest : String) (ty : Ir.Ty) :
    (Instr.call dest ty callee vs).exec m act =
      (Machine.ask callee xs >>= fun x => Machine.set dest (.data x)) act := by
  rw [Instr.exec, run_bind (dataAll_run h), if_pos hc]

end Exec

end ProcLang
