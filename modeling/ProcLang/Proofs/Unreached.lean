import ProcLang.Proofs.Onward
import ProcLang.Proofs.Valid

/-!
# Places that control does not reach

Where both branches of a conditional statement have ended, neither passes control to the block
behind the statement, which is marked. Through nested statements and procedures:

* `stmt_leadsOn`: if no error is found in a statement, control passes to no block that is marked;
* `compile_reaches_return`: so a way through a function of a program without errors comes to no
  marked block, and can only end where a value is returned.
-/

namespace ProcLang

open Ir

/-! ## Statements -/

theorem leadsOn_plain {α : Type} {x : Lower α} {n : Nat}
    (hx : ∀ s, Walks (Lowering.Plain fun _ => True) n s x) : LeadsOn x := by
  intro s s' index n f a hat hg run
  obtain ⟨f', n', h, -⟩ := (Onward.refl hat hg).plain (hx s) run
  exact ⟨f', n', h⟩

theorem LeadsOn.bind {α β : Type} {x : Lower α} {y : α → Lower β} (hx : LeadsOn x)
    (hy : ∀ a, LeadsOn (y a)) : LeadsOn (x >>= y) := by
  intro s s' index n f b hat hg run
  obtain ⟨a, s1, run1, run2⟩ := run_bind_inv run
  obtain ⟨f1, n1, h1⟩ := hx hat hg run1
  obtain ⟨f2, n2, h2⟩ := hy a h1.placed h1.guarded run2
  exact ⟨f2, n2, h1.trans h2⟩

/-- Statements in a block of their own, behind which control passes on to another block unless it
has been passed on before. -/
theorem Onward.arm {s s1 s2 s3 s4 : Lowering} {index n n1 y m : Nat} {f f1 : Function}
    {stmts : List Stmt} {label : String} {u : Unit} {r : Result × List Stmt} {ended : Bool}
    (h : Onward s index f n s1 f1 n1) (hstmts : LeadsOn (lowerBlock none stmts))
    (hy : f.graph.length ≤ y) (hlt : y < f1.graph.length) (hm : f.graph.length ≤ m) (hne : m ≠ y)
    (hsafe : f1.graph.Safe m label) (move : Lower.build (.moveTo ⟨index, y⟩) s1 = .ok (u, s2))
    (fill : lowerBlock none stmts s2 = .ok (r, s3))
    (pass : Lower.fallThrough ⟨index, m⟩ s3 = .ok (ended, s4)) :
    ∃ f2 n2, Onward s index f n s4 f2 n2 ∧ f1.graph.length ≤ f2.graph.length ∧
      (∀ k b, k ≠ y → f1.graph[k]? = some b → f2.graph[k]? = some b) ∧
      ∀ l ∈ f1.graph.labels, f2.graph.Targeted l → f1.graph.Targeted l ∨ l = label ∧
        ended = false := by
  have h2 := h.move rfl hy hlt move
  obtain ⟨f3, n3, h3⟩ := hstmts h2.placed h2.guarded fill
  obtain ⟨f4, n4, h4, passes⟩ := (h2.trans h3).fallThrough hm (h3.graph.safe hne hsafe) pass
  refine ⟨f4, n4, h4, Nat.le_trans h3.graph.length_le passes.length, fun k b hk hb => ?_,
    fun l hl ht => ?_⟩
  · have hlt := (List.getElem?_eq_some_iff.mp hb).1
    have := h3.graph.block
    exact passes.kept k b (by omega) (h3.graph.kept k b hk hb)
  · rcases passes.targeted l ht with ht | ht
    · exact Or.inl (h3.graph.inward l hl ht)
    · cases ended with
      | true => cases ht
      | false => exact Or.inr ⟨List.mem_singleton.mp ht, rfl⟩

/-- A conditional statement with one branch. -/
theorem branch_leadsOn (cond : Expr) {yes : List Stmt} (line : Nat)
    (hyes : LeadsOn (lowerBlock none yes)) : LeadsOn (Stmt.lower (.branch cond yes none line)) := by
  intro s s' index n f r hat hg run
  rw [Stmt.lower] at run
  obtain ⟨⟨value, lowered⟩, s1, run1, rest1⟩ := run_bind_inv run
  obtain ⟨f1, n1, h1, -⟩ := (Onward.refl hat hg).plain (expr_walks cond s) run1
  obtain ⟨test, s2, run2, rest2⟩ := run_bind_inv rest1
  obtain ⟨f2, n2, h2, -⟩ := h1.plain (condition_walks _ _) run2
  obtain ⟨_, s3, run3, rest3⟩ := run_bind_inv rest2
  obtain ⟨f3, yesLabel, h3, rfl, grows3⟩ := h2.append run3
  obtain ⟨_, s4, run4, rest4⟩ := run_bind_inv rest3
  obtain ⟨f4, label, h4, rfl, grows4⟩ := h3.append run4
  have := h2.graph.length_le
  have := grows3.length
  have := grows4.length
  obtain ⟨_, s5, run5, rest5⟩ := run_bind_inv rest4
  have hmerge := Graph.safe_of_empty grows4.last
  obtain ⟨f5, n5, h5, passes5⟩ := h4.branchOn (by omega)
    (Graph.safe_of_empty (grows4.kept _ _ grows3.last)) (by omega) hmerge (Or.inl rfl) run5
  have := passes5.length
  obtain ⟨_, s6, run6, rest6⟩ := run_bind_inv rest5
  obtain ⟨_, s7, run7, rest7⟩ := run_bind_inv rest6
  obtain ⟨_, s8, run8, rest8⟩ := run_bind_inv rest7
  obtain ⟨f8, n8, h8, hlen8, -⟩ := h5.arm hyes (by omega) (by omega) (by omega) (by omega)
    (passes5.safe _ _ hmerge) run6 run7 run8
  obtain ⟨_, s9, run9, rest9⟩ := run_bind_inv rest8
  cases rest9
  exact ⟨f8, _, h8.move rfl (by omega) (by omega) run9⟩

/-- **A conditional statement with two branches.** Where both have ended, neither passes control to
the block behind the statement, and nothing else knows its label. -/
theorem branchElse_leadsOn (cond : Expr) {yes no : List Stmt} (line : Nat)
    (hyes : LeadsOn (lowerBlock none yes)) (hno : LeadsOn (lowerBlock none no)) :
    LeadsOn (Stmt.lower (.branch cond yes (some no) line)) := by
  intro s s' index n f r hat hg run
  rw [Stmt.lower] at run
  obtain ⟨⟨value, lowered⟩, s1, run1, rest1⟩ := run_bind_inv run
  obtain ⟨f1, n1, h1, -⟩ := (Onward.refl hat hg).plain (expr_walks cond s) run1
  obtain ⟨test, s2, run2, rest2⟩ := run_bind_inv rest1
  obtain ⟨f2, n2, h2, -⟩ := h1.plain (condition_walks _ _) run2
  obtain ⟨_, s3, run3, rest3⟩ := run_bind_inv rest2
  obtain ⟨f3, yesLabel, h3, rfl, grows3⟩ := h2.append run3
  obtain ⟨_, s4, run4, rest4⟩ := run_bind_inv rest3
  obtain ⟨f4, noLabel, h4, rfl, grows4⟩ := h3.append run4
  obtain ⟨_, s5, run5, rest5⟩ := run_bind_inv rest4
  obtain ⟨f5, label, h5, rfl, grows5⟩ := h4.append run5
  have := h2.block_lt
  have := h2.graph.length_le
  have := grows3.length
  have := grows4.length
  have := grows5.length
  have hyes5 := grows5.kept _ _ (grows4.kept _ _ grows3.last)
  have hno5 := grows5.kept _ _ grows4.last
  obtain ⟨_, s6, run6, rest6⟩ := run_bind_inv rest5
  obtain ⟨f6, n6, h6, passes6⟩ := h5.branchOn (by omega) (Graph.safe_of_empty hyes5) (by omega)
    (Graph.safe_of_empty hno5) (Or.inl rfl) run6
  have := passes6.length
  have hmerge6 := passes6.kept _ _ (by omega) grows5.last
  have huntargeted : ¬ f6.graph.Targeted label := by
    have hlabels := (h5.guarded _ h5.mem_function).labels
    intro ht
    rcases passes6.targeted _ ht with ht | ht
    · exact grows5.untargeted ht
    · rw [List.mem_cons, List.mem_singleton] at ht
      rcases ht with heq | heq
      · have := Graph.index_unique hlabels grows5.last hyes5 heq
        omega
      · have := Graph.index_unique hlabels grows5.last hno5 heq
        omega
  obtain ⟨_, s7, run7, rest7⟩ := run_bind_inv rest6
  obtain ⟨_, s8, run8, rest8⟩ := run_bind_inv rest7
  obtain ⟨yesEnded, s9, run9, rest9⟩ := run_bind_inv rest8
  obtain ⟨f9, n9, h9, hlen9, kept9, inward9⟩ := h6.arm hyes (by omega) (by omega) (by omega)
    (by omega) (Graph.safe_of_empty hmerge6) run7 run8 run9
  have hmerge9 := kept9 _ _ (by omega) hmerge6
  obtain ⟨_, s10, run10, rest10⟩ := run_bind_inv rest9
  obtain ⟨_, s11, run11, rest11⟩ := run_bind_inv rest10
  obtain ⟨noEnded, s12, run12, rest12⟩ := run_bind_inv rest11
  obtain ⟨f12, n12, h12, hlen12, kept12, inward12⟩ := h9.arm hno (by omega) (by omega) (by omega)
    (by omega) (Graph.safe_of_empty hmerge9) run10 run11 run12
  have hmerge12 := kept12 _ _ (by omega) hmerge9
  obtain ⟨_, s13, run13, rest13⟩ := run_bind_inv rest12
  have h13 := h12.move rfl (by omega) (by omega) run13
  cases hended : yesEnded && noEnded with
  | false =>
    rw [hended] at rest13
    cases rest13
    exact ⟨f12, _, h13⟩
  | true =>
    rw [hended] at rest13
    obtain ⟨rfl, rfl⟩ := Bool.and_eq_true_iff.mp hended
    have hclosed : ¬ f12.graph.Targeted label := by
      intro ht
      rcases inward12 _ (Graph.mem_labels hmerge9) ht with ht | ⟨-, hfalse⟩
      · rcases inward9 _ (Graph.mem_labels hmerge6) ht with ht | ⟨-, hfalse⟩
        · exact huntargeted ht
        · cases hfalse
      · cases hfalse
    obtain ⟨_, s14, run14, rest14⟩ := run_bind_inv rest13
    cases rest14
    obtain ⟨f14, h14⟩ := h13.mark hmerge12 (by omega) hclosed run14
    exact ⟨f14, _, h14⟩

/-- A loop, whose body passes control back to the condition. -/
theorem loop_leadsOn (dest : Place) (value cond : Expr) {body : List Stmt} (line : Nat)
    (hbody : LeadsOn (lowerBlock none body)) :
    LeadsOn (Stmt.lower (.loop dest value cond body line)) := by
  intro s s' index n f r hat hg run
  rw [Stmt.lower] at run
  obtain ⟨_, s1, run1, rest1⟩ := run_bind_inv run
  obtain ⟨f1, n1, h1, -⟩ := (Onward.refl hat hg).plain (assign_walks line dest value s) run1
  obtain ⟨_, s2, run2, rest2⟩ := run_bind_inv rest1
  obtain ⟨f2, condLabel, h2, rfl, grows2⟩ := h1.append run2
  obtain ⟨_, s3, run3, rest3⟩ := run_bind_inv rest2
  obtain ⟨f3, bodyLabel, h3, rfl, grows3⟩ := h2.append run3
  obtain ⟨_, s4, run4, rest4⟩ := run_bind_inv rest3
  obtain ⟨f4, endLabel, h4, rfl, grows4⟩ := h3.append run4
  have := h1.graph.length_le
  have := grows2.length
  have := grows3.length
  have := grows4.length
  have hcond4 := Graph.safe_of_empty (grows4.kept _ _ (grows3.kept _ _ grows2.last))
  have hbody4 := Graph.safe_of_empty (grows4.kept _ _ grows3.last)
  have hend4 := Graph.safe_of_empty grows4.last
  obtain ⟨_, s5, run5, rest5⟩ := run_bind_inv rest4
  obtain ⟨f5, n5, h5, passes5⟩ := h4.br (by omega) hcond4 run5
  have := passes5.length
  obtain ⟨_, s6, run6, rest6⟩ := run_bind_inv rest5
  have h6 := h5.move rfl (by omega) (by omega) run6
  obtain ⟨_, s7, run7, rest7⟩ := run_bind_inv rest6
  obtain ⟨f7, n7, h7, passes7⟩ := h6.plain (expr_walks cond s6) run7
  obtain ⟨test, s8, run8, rest8⟩ := run_bind_inv rest7
  obtain ⟨f8, n8, h8, passes8⟩ := h7.plain (condition_walks _ _) run8
  have := passes7.length
  have := passes8.length
  have safe8 : ∀ m label, f4.graph.Safe m label → f8.graph.Safe m label := fun m label hs =>
    passes8.safe _ _ (passes7.safe _ _ (passes5.safe _ _ hs))
  obtain ⟨_, s9, run9, rest9⟩ := run_bind_inv rest8
  obtain ⟨f9, n9, h9, passes9⟩ := h8.branchOn (by omega) (safe8 _ _ hbody4) (by omega)
    (safe8 _ _ hend4) (Or.inr rfl) run9
  have := passes9.length
  obtain ⟨_, s10, run10, rest10⟩ := run_bind_inv rest9
  obtain ⟨_, s11, run11, rest11⟩ := run_bind_inv rest10
  obtain ⟨_, s12, run12, rest12⟩ := run_bind_inv rest11
  obtain ⟨f12, n12, h12, hlen12, -⟩ := h9.arm hbody (by omega) (by omega) (by omega) (by omega)
    (passes9.safe _ _ (safe8 _ _ hcond4)) run10 run11 run12
  obtain ⟨_, s13, run13, rest13⟩ := run_bind_inv rest12
  cases rest13
  exact ⟨f12, _, h12.move rfl (by omega) (by omega) run13⟩

/-- A `return` marks its block only if an error was found in it. -/
theorem result_leadsOn (value : Expr) (line : Nat) : LeadsOn (Stmt.lower (.result value line)) := by
  intro s s' index n f r hat hg run
  have h := Onward.refl hat hg
  rw [Stmt.lower] at run
  obtain ⟨_, _, ⟨⟩, rest1⟩ := run_bind_inv run
  cases hret : s.returnType? with
  | none =>
    rw [hret] at rest1
    obtain ⟨_, s1, run1, rest2⟩ := run_bind_inv rest1
    obtain ⟨f1, n1, h1, -⟩ := h.plain (report_walks _ (by trivial)) run1
    cases rest2
    exact ⟨f1, n1, h1⟩
  | some ret =>
    rw [hret] at rest1
    obtain ⟨ended, s1, run1, rest2⟩ := run_bind_inv rest1
    obtain ⟨b, hb, rfl⟩ := build_inv run1
    obtain ⟨-, rfl⟩ := Build.isTerminated_inv hb
    cases ended with
    | true =>
      obtain ⟨_, s2, run2, rest3⟩ := run_bind_inv rest2
      obtain ⟨f2, n2, h2, -⟩ := h.plain (report_walks _ (by trivial)) run2
      cases rest3
      exact ⟨f2, n2, h2⟩
    | false =>
      obtain ⟨⟨result, lowered⟩, s2, run2, rest3⟩ := run_bind_inv rest2
      obtain ⟨f2, n2, h2, -⟩ := h.plain (expr_walks value s) run2
      obtain ⟨_, s3, run3, rest4⟩ := run_bind_inv rest3
      cases rest4
      exact h2.returnFrom (expr_tells value s s2 _ run2).2 run3

/-- A procedure is lowered in a function of its own, and leaves the others as they are. -/
theorem procedure_leadsOn (heading : Heading) {body : List Stmt} (line : Nat)
    (hbody : LeadsOn (lowerBlock none body)) :
    LeadsOn (Stmt.lower (.procedure heading body line)) := by
  intro s s' index n f r hat hg run
  rw [Stmt.lower] at run
  obtain ⟨opened, s1, run1, rest1⟩ := run_bind_inv run
  obtain ⟨h1, hopened⟩ := (Onward.refl hat hg).openProcedure run1
  cases opened with
  | none =>
    cases rest1
    exact ⟨f, n, h1⟩
  | some o =>
    obtain ⟨k, g, hk, hne, hentry, hget, hlt⟩ := hopened o rfl
    obtain ⟨_, s2, run2, rest2⟩ := run_bind_inv rest1
    cases rest2
    exact ⟨f, n, h1.procedure hk hne hentry hget hlt hbody run2⟩

mutual

/-- **Every statement leads on**: if no error is found in it, control passes to no block that is
marked. -/
theorem stmt_leadsOn : ∀ stmt : Stmt, LeadsOn stmt.lower
  | .branch cond yes none line => branch_leadsOn cond line (block_leadsOn yes none)
  | .branch cond yes (some no) line =>
    branchElse_leadsOn cond line (block_leadsOn yes none) (block_leadsOn no none)
  | .loop dest value cond body line => loop_leadsOn dest value cond line (block_leadsOn body none)
  | .result value line => result_leadsOn value line
  | .procedure heading body line => procedure_leadsOn heading line (block_leadsOn body none)
  | .assign dest value line => leadsOn_plain fun s => by
    rw [Stmt.lower]
    exact (assign_walks line dest value s).next fun _ _ => walks_pure _
  | .call call line => leadsOn_plain fun s => by
    rw [Stmt.lower]
    exact (expr_walks call s).next fun _ _ => walks_pure _
  | .declare decl line => leadsOn_plain fun s => by
    rw [Stmt.lower]
    exact (declareVariable_walks trivial s).next fun _ _ => walks_pure _
  | .declareType name mark isGlobal line => leadsOn_plain fun s => by
    rw [Stmt.lower]
    exact (warn_walks _ _).next fun _ _ => walks_pure _

/-- **Statements in order lead on.** -/
theorem block_leadsOn : ∀ (stmts : List Stmt) (last : Result), LeadsOn (lowerBlock last stmts)
  | [], last => by
    rw [lowerBlock]
    exact leadsOn_plain fun _ => walks_pure _
  | stmt :: stmts, last => by
    rw [lowerBlock]
    refine (stmt_leadsOn stmt).bind fun r => (block_leadsOn stmts _).bind fun _ => ?_
    exact leadsOn_plain fun _ => walks_pure _

end

/-! ## Programs -/

/-- The end of a program returns zero, unless control was passed on before. -/
theorem finish_onward {s s' : Lowering} {index n : Nat} {f : Function} {m : Module}
    (hat : s.builder.At index f n) (hg : ∀ g ∈ s.module.functions, g.Guarded)
    (run : Lower.finish s = .ok (m, s')) :
    ∃ f' n', Onward s index f n s' f' n' ∧ s'.errors = s.errors := by
  have h := Onward.refl hat hg
  rw [Lower.finish_eq] at run
  obtain ⟨_, s1, hend, leave⟩ := run_bind_inv run
  obtain ⟨_, _, ⟨⟩, hend⟩ := run_bind_inv hend
  rw [hat.cursor] at hend
  have hsame : s1.errors = s.errors := by
    obtain ⟨ended, s2, run1, hend⟩ := run_bind_inv hend
    obtain ⟨b, -, rfl⟩ := build_inv run1
    cases ended with
    | true =>
      cases hend
      rfl
    | false =>
      obtain ⟨b2, -, rfl⟩ := build_inv hend
      rfl
  obtain ⟨f1, n1, h1⟩ := h.unlessEnded (x := Lower.returnValue (some (.int 0)))
    (fun run => h.returnValue (fun _ => rfl) run) hend
  obtain ⟨_, _, ⟨⟩, leave⟩ := run_bind_inv leave
  split at leave
  · cases leave
    exact ⟨f1, n1, h1, hsame⟩
  · obtain ⟨_, s2, run2, leave⟩ := run_bind_inv leave
    obtain ⟨hb, he⟩ := Onward.closeScope_inv run2
    cases leave
    exact ⟨f1, n1, h1.look hb (he ▸ List.prefix_rfl), he.trans hsame⟩

/-- What holds between two items: the cursor stands in the body of the program, and if nothing wrong
was found so far, control passes to no block that is marked. -/
structure Lowering.Sealed (s : Lowering) (found : List Diagnostic) : Prop where
  placed : ∃ f n, s.builder.At 0 f n
  guarded : ∀ g ∈ s.module.functions, g.Guarded
  clear : s.errors = []
  barred : Clean found → ∀ g ∈ s.module.functions, g.graph.Barred

theorem start_sealed (moduleName name : String) (found : List Diagnostic) :
    (Stage.start moduleName name).state.Sealed found := by
  have hfunctions : (Stage.start moduleName name).state.module.functions =
      [Function.new Lower.mainName .i32 []] := rfl
  refine ⟨⟨_, 0, rfl, rfl, Nat.one_pos⟩, fun g hg => ?_, rfl, fun _ g hg => ?_⟩
  all_goals
    rw [hfunctions, List.mem_singleton] at hg
    subst hg
  · exact Function.guarded_new _ _ _
  · exact Function.barred_new _ _ _

theorem Lowering.Sealed.item {s s' : Lowering} {found findings : List Diagnostic} {stmt : Stmt}
    (h : s.Sealed found) (run : s.item stmt = .ok (s', findings)) :
    s'.Sealed (found ++ findings) := by
  unfold Lowering.item at run
  cases hlower : stmt.lower s with
  | error fault =>
    rw [hlower] at run
    cases run
  | ok r =>
    rw [hlower] at run
    cases run
    obtain ⟨f, n, hat⟩ := h.placed
    obtain ⟨f', n', honward⟩ := stmt_leadsOn stmt hat h.guarded hlower
    refine ⟨⟨f', n', honward.placed⟩, honward.guarded, rfl, fun hclean => ?_⟩
    obtain ⟨hfound, hfindings⟩ := clean_append.mp hclean
    exact honward.barred ((errors_of_clean hfindings).trans h.clear.symm) (h.barred hfound)

/-- **Control passes to no block that is marked**, in a module that was compiled without errors. -/
theorem compile_barred {source : String} {options : Options} {c : Compilation}
    (compiled : compile source options = .ok c) (hclean : c.hasErrors = false) :
    ∀ f ∈ c.module.functions, f.graph.Barred := by
  rcases compile_between (I := Lowering.Sealed) compiled start_sealed
      (fun more h => { h with barred := fun hc => h.barred (clean_append.mp hc).1 })
      (fun _ _ h run => h.item run) with ⟨name, hname⟩ | ⟨st, s, -, hsealed, hfinish⟩
  · rw [hname]
    nofun
  · obtain ⟨f, n, hat⟩ := hsealed.placed
    obtain ⟨f', n', honward, hsame⟩ := finish_onward hat hsealed.guarded hfinish
    rw [← finish_module hfinish]
    exact honward.barred hsame (hsealed.barred hclean)

namespace Ir.Function

variable {f : Function} {passed : List Instr} {n k : Nat}

/-- A block that control comes to is the entry, or control passes to it. -/
theorem Reaches.targeted (h : f.Reaches passed n k) :
    n = 0 ∨ ∃ b, f.blocks[n]? = some b ∧ f.graph.Targeted b.label := by
  induction h with
  | entry => exact Or.inl rfl
  | next _ _ _ _ ih => exact ih
  | @jump passed n k m b i label _ hb hi ht hm _ =>
    obtain ⟨c, hc, rfl⟩ := hm
    have hterm : i.isTerminator = true := by
      by_contra hterm
      rw [Instr.targets_of_not_isTerminator (Bool.eq_false_iff.mpr hterm)] at ht
      cases ht
    refine Or.inr ⟨c, hc, _, List.mem_of_getElem? (graph_getElem? hb), i, ?_, ht⟩
    exact List.mem_filter.mpr ⟨List.mem_of_getElem? hi, hterm⟩

/-- Control does not come to a block that is marked, if it passes to none. -/
theorem Reaches.not_unreachable (h : f.Reaches passed n k) (hbarred : f.graph.Barred) {b : Block}
    (hb : f.blocks[n]? = some b) : .unreachable ∉ b.instrs := by
  intro hmem
  have hexit : .unreachable ∈ b.exits := List.mem_filter.mpr ⟨hmem, rfl⟩
  obtain ⟨hn, hnot⟩ := hbarred n _ (graph_getElem? hb) hexit
  rcases h.targeted with hzero | ⟨c, hc, htargeted⟩
  · exact hn hzero
  · rw [hb] at hc
    cases hc
    exact hnot htargeted

/-- Control always comes to an instruction, if all blocks have ended. -/
theorem Sound.instr_of_reaches {env : Interface} {arrays : List Param} {avail : Nat → String → Prop}
    (hs : f.Sound env arrays avail) (hended : ∀ b ∈ f.blocks, b.isTerminated = true)
    (h : f.Reaches passed n k) : ∃ b i, f.blocks[n]? = some b ∧ b.instrs[k]? = some i := by
  have first : ∀ {m : Nat} {b : Block}, f.blocks[m]? = some b →
      ∃ b i, f.blocks[m]? = some b ∧ b.instrs[0]? = some i := by
    intro m b hb
    have hmem := List.mem_of_getElem? hb
    obtain ⟨before, last, hinstrs, -, -⟩ := (hs.shaped b hmem).ends (hended b hmem)
    have hlt : 0 < b.instrs.length := by
      rw [hinstrs, List.length_append]
      exact Nat.succ_pos _
    exact ⟨b, _, hb, List.getElem?_eq_getElem hlt⟩
  cases h with
  | entry =>
    obtain ⟨b, hb, -⟩ := hs.entry
    exact first hb
  | jump _ _ _ _ hm =>
    obtain ⟨c, hc, -⟩ := hm
    exact first hc
  | @next passed n k b i _ hb hi hterm =>
    have hmem := List.mem_of_getElem? hb
    obtain ⟨before, last, hinstrs, hlast, -⟩ := (hs.shaped b hmem).ends (hended b hmem)
    -- the instruction that was passed does not end the block, so it is not the last one
    have hk : k < before.length := by
      by_contra hge
      have hlt := (List.getElem?_eq_some_iff.mp hi).1
      rw [hinstrs, List.length_append, List.length_singleton] at hlt
      obtain rfl : k = before.length := by omega
      rw [hinstrs, List.getElem?_concat_length] at hi
      cases hi
      rw [hlast] at hterm
      cases hterm
    have hlt : k + 1 < b.instrs.length := by
      rw [hinstrs, List.length_append, List.length_singleton]
      omega
    exact ⟨b, _, hb, List.getElem?_eq_getElem hlt⟩

end Ir.Function

/-- **A way through a function that ends, ends with a return.** If a text compiles without errors, a
way from the entry of a function comes to no block that holds a mark for places that control does
not reach. It always stands in front of an instruction, which returns a value, or passes control on
to blocks that are there, or is followed by another one. -/
theorem compile_reaches_return (source : String) (options : Options) :
    compile source options = .error .overflow ∨
      ∃ c, compile source options = .ok c ∧ (c.hasErrors = false →
        ∀ f ∈ c.module.functions, ∀ passed n k, f.Reaches passed n k →
          ∃ b i, f.blocks[n]? = some b ∧ b.instrs[k]? = some i ∧ .unreachable ∉ b.instrs ∧
            ((∃ value, i = .ret value) ∨
              (i.targets ≠ [] ∧ ∀ label ∈ i.targets, ∃ m, f.HasTarget label m) ∨
              (i.isTerminator = false ∧ f.Reaches (passed ++ [i]) n (k + 1)))) := by
  rcases compile_finished source options with hcut | ⟨c, hc, hfunctions⟩
  · exact Or.inl hcut
  · refine Or.inr ⟨c, hc, fun hclean f hf passed n k hreaches => ?_⟩
    obtain ⟨⟨arrays, avail, hs, hended, -⟩, -⟩ := hfunctions f hf
    obtain ⟨b, i, hb, hi⟩ := hs.instr_of_reaches hended hreaches
    have hmark := hreaches.not_unreachable (compile_barred hc hclean f hf) hb
    refine ⟨b, i, hb, hi, hmark, ?_⟩
    have hmem := List.mem_of_getElem? hi
    have htargets : ∀ label ∈ i.targets, ∃ m, f.HasTarget label m := by
      intro label hl
      obtain ⟨m, d, -, hd, hlabel, -⟩ := hs.targets n b hb i hmem label hl
      exact ⟨m, d, hd, hlabel⟩
    cases hterm : i.isTerminator with
    | false => exact Or.inr (Or.inr ⟨rfl, hreaches.next hb hi hterm⟩)
    | true =>
      cases i with
      | ret value => exact Or.inl ⟨value, rfl⟩
      | br | condBr => exact Or.inr (Or.inl ⟨nofun, htargets⟩)
      | unreachable => exact absurd hmem hmark
      | _ => cases hterm

end ProcLang
