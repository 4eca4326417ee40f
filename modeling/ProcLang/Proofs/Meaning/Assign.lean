import ProcLang.Proofs.Meaning.Expr
import ProcLang.Proofs.Meaning.Report

/-!
# The code of assignments and conditions

* `assign_performs`: an assignment without errors does what the program does;
* `condition_tests`: a condition that has a value gives the truth value that the program tests.
-/

namespace ProcLang

open Ir Naming

variable {env : Env} {s s' s1 : Lowering} {w : Spot} {line : Nat} {dest : Place}

/-! ## Assignments -/

/-- Lowering added code that does what a part of the program does. -/
def Performs (env : Env) (s : Lowering) (w : Spot) (s' : Lowering)
    (exec : (W : World) → Exec W Unit) : Prop :=
  ∃ code w', s.Adds w code s' w' ∧
    ∀ {W : World} {T : Target W}, T.Apart → T.Knows env s' → T.Spares code →
      ∀ {act : Activation W} {store : Store W}, T.Agrees act store →
      T.Matches code act (exec W store) fun _ store' act' => T.Agrees act' store'

/-- Writing the storage of a variable is writing the variable. -/
theorem Target.Agrees.write {W : World} {T : Target W} {act : Activation W} {store : Store W}
    (h : T.Agrees act store) (ha : T.Apart) {v : Variable} (hv : v ∈ T.vars) (k : Nat) {x : W.Val}
    (hx : x.ty = v.ty) :
    T.Agrees (act.write (T.base v) k x)
      { store with mem := fun u j => if u = v ∧ j = k then x else store.mem u j } where
  trace := h.trace
  cells u hu j hj := by
    by_cases heq : u = v ∧ j = k
    · obtain ⟨rfl, rfl⟩ := heq
      simp [Activation.write]
    · have hne : ¬ (T.base u = T.base v ∧ j = k) :=
        fun hsame => heq ⟨ha u hu v hv hsame.1, hsame.2⟩
      simp only [Activation.write, if_neg heq, if_neg hne]
      exact h.cells u hu j hj
  typed u hu j hj := by
    by_cases heq : u = v ∧ j = k
    · obtain ⟨rfl, rfl⟩ := heq
      simpa using hx
    · simp only [if_neg heq]
      exact h.typed u hu j hj
  homes := h.homes

/-- What an assignment that stores a value went through: the value was promoted to the type of the
variable, and the symbols are as before. -/
theorem assignTo_inv (hscene : Scene env s) {dest' : Place} {v v' : Value} {ty ty' : Ty}
    (run : Lower.assignTo line dest v ty s = .ok ((some (v', ty'), dest'), s')) :
    ∃ symbol s1 s2 a, s.resolveVariable dest.name = .ok symbol ∧ ty.fits symbol.ty = true ∧
      Lower.coerce v ty symbol.ty s = .ok (v', s1) ∧
      dest.lower symbol s1 = .ok ((some a, dest'), s2) ∧
      Lower.build (.emit (.store v' a)) s2 = .ok ((), s') := by
  obtain ⟨_, _, hget, rest1⟩ := run_bind_inv run
  cases hget
  obtain ⟨found, s0, run0, rest2⟩ := run_bind_inv rest1
  cases found with
  | none => cases rest2
  | some symbol =>
    obtain ⟨hsymbol, hs0⟩ := orReport_inv run0
    rw [hs0] at rest2
    obtain ⟨hlookup, hname, -, -⟩ := SymbolTable.resolveVariable_cases hscene.regular hsymbol
    obtain ⟨_, _, hget, rest3⟩ := run_bind_inv rest2
    cases hget
    by_cases hfit : ty.fits symbol.ty = true
    · have hupdate : s.symbols.update symbol = .ok s.symbols :=
        SymbolTable.update_self hscene.regular (hname ▸ hlookup)
      simp only [if_pos hfit, hupdate] at rest3
      obtain ⟨⟨⟩, _, hmodify, rest4⟩ := run_bind_inv rest3
      cases hmodify
      obtain ⟨u, s1, run1, rest5⟩ := run_bind_inv rest4
      obtain ⟨⟨address, dest''⟩, s2, run2, rest6⟩ := run_bind_inv rest5
      cases address with
      | none => cases rest6
      | some a =>
        obtain ⟨⟨⟩, s3, run3, run4⟩ := run_bind_inv rest6
        cases run4
        exact ⟨symbol, s1, s2, a, hsymbol, hfit, run1, run2, run3⟩
    · have hne : symbol.ty ≠ ty := by
        rintro rfl
        exact hfit (by cases symbol.ty <;> rfl)
      have hmismatch := SymbolTable.update_mismatch (hname ▸ hlookup) hne
      simp only [if_neg hfit, hmismatch] at rest3
      cases rest3

/-- **An assignment** whose value is computed. -/
theorem assignTo_performs {dest' : Place} {u v : Value} {uty ty : Ty}
    {x : (W : World) → Exec W W.Val} (hr : dest.InRange) (hs : s.At w) (hscene : Scene env s)
    (hx : Computes env s w s1 x u uty)
    (run : Lower.assignTo line dest u uty s1 = .ok ((some (v, ty), dest'), s')) :
    Performs env s w s' (fun W => do
      let value ← x W
      let (v, k) ← dest.locate W env
      Exec.write v k (W.promote v.ty value)) := by
  obtain ⟨code1, w1, hy1, hsem1⟩ := hx
  have hscene1 := hy1.scene hscene
  obtain ⟨symbol, s2, s3, a, hsymbol, hfit, run2, run3, run4⟩ := assignTo_inv hscene1 run
  obtain ⟨code2, w2, hy2, hsem2⟩ := coerce_computes hy1.placed hy1.settled hy1.literal hfit run2
  have hsymbol2 := (hy2.resolveVariable dest.name).trans hsymbol
  obtain ⟨code3, w3, hputs3, hsem3⟩ :=
    place_computes dest hr hy2.placed ((hy2.scene hscene1).suits _) hsymbol2 run3
  have hadds3 := (hy1.toPuts.trans (hy2.toPuts.trans hputs3)).adds hs
  obtain ⟨w4, hadds4⟩ := emit_adds hadds3.placed rfl rfl run4
  have hadds := hadds3.trans hadds4
  rw [List.append_assoc, List.append_assoc] at hadds
  refine ⟨code1 ++ (code2 ++ (code3 ++ _)), w4, hadds, ?_⟩
  intro W T hapart hknows hspare act store hagree
  have hknows3 := hknows.anti hadds4.toStill
  have hknows1 := (hknows3.anti hputs3.toStill).anti hy2.toStill
  refine (hsem1 hknows1 hspare.left hagree).bind fun value store1 act1 h1 => ?_
  refine (hsem2 hspare.right.left h1.agrees h1.value h1.ty).seq fun act2 h2 => ?_
  refine (hsem3 hknows3 hspare.right.right.left h2.agrees).bind ?_
  rintro ⟨p, k⟩ store3 act3 h3
  have hv : v.eval T.module act3.regs = some (.data (W.promote symbol.ty value)) := by
    rw [h3.keeps.eval hy2.settled, h2.value]
  refine ⟨_, Target.execCode_single (exec_store hv h3.value), ?_⟩
  have hty : p.ty = symbol.ty := h3.ty
  rw [hty]
  exact h3.agrees.write hapart h3.mem k (h2.ty.trans hty.symm)

/-- **An assignment** without errors does what the program does. -/
theorem assign_performs {value : Expr} (hr : dest.InRange) (hrv : value.InRange) (hs : s.At w)
    (hscene : Scene env s) {r : Result × Place × Expr}
    (run : Lower.assign line dest value s = .ok (r, s')) (herrors : s'.errors = s.errors) :
    Performs env s w s' fun W => execAssign W env dest value := by
  have hsome := (tells_assign line dest value s s' r run).2 herrors
  obtain ⟨⟨result, value'⟩, s1, run1, rest1⟩ := run_bind_inv run
  cases result with
  | none =>
    cases rest1
    cases hsome
  | some result =>
    obtain ⟨u, uty⟩ := result
    obtain ⟨⟨result, dest'⟩, s2, run2, run3⟩ := run_bind_inv rest1
    cases run3
    obtain ⟨⟨v, ty⟩, rfl⟩ := Option.isSome_iff_exists.mp hsome
    exact assignTo_performs hr hs hscene
      (expr_computes value hrv hs.toIn (hscene.suits _) run1) run2

/-! ## Conditions -/

/-- Lowering added code that evaluates a condition, and the operand says whether it holds. -/
def Tests (env : Env) (s : Lowering) (w : Spot) (s' : Lowering) (w' : Spot)
    (test : (W : World) → Exec W Bool) (cond : Value) : Prop :=
  ∃ code, s.Adds w code s' w' ∧
    ∀ {W : World} {T : Target W}, T.Knows env s' → T.Spares code →
      ∀ {act : Activation W} {store : Store W}, T.Agrees act store →
      T.Matches code act (test W store) fun b store' act' =>
        T.Agrees act' store' ∧ cond.eval T.module act'.regs = some (.data (.bool b))

/-- **A condition** gives the truth value that the program tests. -/
theorem condition_tests {x : (W : World) → Exec W W.Val} {u c : Value} {uty : Ty} (hs : s.At w)
    (hx : Computes env s w s1 x u uty)
    (run : Lower.condition line (some (u, uty)) s1 = .ok (some c, s')) :
    ∃ w', Tests env s w s' w' (fun W => do
      let value ← x W
      Exec.lift value.holds) c := by
  obtain ⟨code1, w1, hy1, hsem1⟩ := hx
  cases uty with
  | bool =>
    cases run
    refine ⟨w1, code1 ++ [], (hy1.toPuts.trans hy1.placed.puts_nil).adds hs, ?_⟩
    intro W T hknows hspare act store hagree
    refine (hsem1 hknows hspare.left hagree).bind fun value store1 act1 h1 => ?_
    obtain ⟨hagree1, -, -, hvalue, hty⟩ := h1
    cases value with
    | bool b => exact .pure ⟨hagree1, hvalue⟩
    | _ => cases hty
  | integer =>
    obtain ⟨_, run1, heq⟩ := run_map_inv run
    cases heq
    obtain ⟨rfl, w2, hputs2, -⟩ := emitValue_puts hy1.placed (fun _ => rfl) (fun _ => rfl) run1
    refine ⟨w2, code1 ++ _, (hy1.toPuts.trans hputs2).adds hs, ?_⟩
    intro W T hknows hspare act store hagree
    refine (hsem1 (hknows.anti hputs2.toStill) hspare.left hagree).bind ?_
    rintro value store1 act1 ⟨hagree1, -, -, hvalue, hty⟩
    cases value with
    | integer n =>
      have hzero : (Value.int 0).eval T.module act1.regs =
          some (.data (.integer (BitVec.ofInt 32 0))) := rfl
      have hexec := exec_icmp hvalue hzero (numbered "cond" w1.fn.nextId) .ne
      refine ⟨_, Target.execCode_single hexec, ?_, Target.eval_set _ _ _ _ _⟩
      exact hagree1.set (hspare.right _ (List.mem_singleton.mpr rfl) _ rfl) _
    | _ => cases hty
  | _ => cases run

/-- A condition without errors has a value. -/
theorem condition_some {cond cond' : Expr} {value : Result} {test : Option Value}
    (run1 : cond.lower s = .ok ((value, cond'), s1))
    (run2 : Lower.condition line value s1 = .ok (test, s')) (herrors : s'.errors = s.errors) :
    ∃ u uty c, value = some (u, uty) ∧ test = some c := by
  obtain ⟨hgrow1, hfine1⟩ := expr_tells cond s s1 _ run1
  obtain ⟨hgrow2, hfine2⟩ := tells_condition line value s1 s' _ run2
  obtain ⟨hsame1, hsame2⟩ := Stage.errors_between hgrow1 hgrow2 herrors
  obtain ⟨⟨u, uty⟩, rfl⟩ := Option.isSome_iff_exists.mp (hfine1 hsame1)
  obtain ⟨c, rfl⟩ := Option.isSome_iff_exists.mp (hfine2 hsame2 rfl)
  exact ⟨u, uty, c, rfl, rfl⟩

end ProcLang
