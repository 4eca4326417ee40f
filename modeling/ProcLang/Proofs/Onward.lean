import ProcLang.Proofs.Graph
import ProcLang.Proofs.Meaning.Report
import ProcLang.Proofs.Steps.Stmt

/-!
# From the start of a statement

A block is marked as one that control does not reach where nothing can be returned, which is an
error, and where both branches of a conditional statement have ended. `Onward` is what holds from
the start of a statement to any place in it: old blocks other than the one that is filled stay as
they are, control passes to none that it did not pass to before, and as long as no error is found it
passes to none that is marked. There is one lemma for each thing that lowering does: `Onward.plain`,
`Onward.append`, `Onward.move`, `Onward.exit`, `Onward.mark`, `Onward.define`, `Onward.procedure`.
-/

namespace ProcLang

open Ir Relation

/-! ## Plain code -/

/-- Instructions are added to a function that pass no control on, and blocks that nothing leaves. -/
structure Ir.Function.Drifts (f : Function) (n : Nat) (f' : Function) (n' : Nat) : Prop where
  graph : ∃ extra, f'.graph = f.graph ++ extra ∧ ∀ b ∈ extra, b.2 = []
  block : n' = n ∨ f.graph.length ≤ n'
  guarded : f.Guarded → f'.Guarded

namespace Ir.Function

variable {f f' f'' : Function} {n n' n'' : Nat}

theorem Drifts.same (hg : f'.graph = f.graph) (hn : f.nextId ≤ f'.nextId) : f.Drifts n f' n :=
  ⟨⟨[], by rw [hg, List.append_nil], by simp⟩, Or.inl rfl, fun h => h.same hg hn⟩

theorem Drifts.trans (h1 : f.Drifts n f' n') (h2 : f'.Drifts n' f'' n'') : f.Drifts n f'' n'' := by
  obtain ⟨extra, hg, hempty⟩ := h1.graph
  obtain ⟨extra', hg', hempty'⟩ := h2.graph
  refine ⟨⟨extra ++ extra', by rw [hg', hg, List.append_assoc], fun b hb => ?_⟩, ?_,
    fun h => h2.guarded (h1.guarded h)⟩
  · exact (List.mem_append.mp hb).elim (hempty b) (hempty' b)
  · have hlen : f.graph.length ≤ f'.graph.length := by
      rw [hg, List.length_append]
      omega
    have := h1.block
    have := h2.block
    omega

theorem Drifts.passes (h : f.Drifts n f' n') : f.graph.Passes n [] f'.graph n' := by
  obtain ⟨extra, hg, hempty⟩ := h.graph
  rw [hg]
  exact Graph.passes_append hempty h.block

theorem drifts_append (f : Function) (n : Nat) (hint : String) :
    f.Drifts n (f.append hint) f.blocks.length :=
  ⟨⟨_, graph_append f hint, by simp⟩, Or.inr (Nat.le_of_eq (graph_length f)),
    fun h => h.append hint⟩

/-- Room for an instruction is in the block itself or in a new one. -/
theorem drifts_room (hn : n < f.blocks.length) :
    f.Drifts n (f.room n).1 (f.room n).2 ∧ (f.room n).2 < (f.room n).1.blocks.length := by
  rcases room_cases hn with hroom | hroom <;> rw [hroom]
  · exact ⟨.same rfl (Nat.le_refl _), hn⟩
  · refine ⟨drifts_append f n "dead", ?_⟩
    rw [append_length]
    exact Nat.lt_succ_self _

theorem Gains.drifts {allowed : Instr → Prop} (h : f.Gains allowed n f' n')
    (hi : ∀ i, allowed i → i.isTerminator = false) (hn : n < f.blocks.length) :
    f.Drifts n f' n' ∧ n' < f'.blocks.length := by
  cases h with
  | tick => exact ⟨.same rfl (Nat.le_succ _), hn⟩
  | reserve dest ty =>
    refine ⟨.same (graph_reserve dest ty 0) (Nat.le_refl _), ?_⟩
    rw [modifyBlock_blocks_length]
    exact hn
  | emit hblock ok =>
    obtain ⟨hroom, hlt⟩ := drifts_room hn
    refine ⟨hroom.trans (.same (graph_push (hi _ ok) _) (Nat.le_refl _)), ?_⟩
    rw [modifyBlock_blocks_length]
    exact hlt

end Ir.Function

/-- Plain steps change the function at the cursor only, and add plain code there. -/
theorem plain_drifts {declared : String → Prop} {s s' : Lowering}
    (h : ReflTransGen (Lowering.Plain declared) s s') {index n : Nat}
    {f : Function} (hat : s.builder.At index f n) :
    ∃ f' n', s'.builder.At index f' n' ∧ f.Drifts n f' n' ∧
      s'.module.functions = s.module.functions.set index f' := by
  induction h with
  | refl =>
    refine ⟨f, n, hat, .same rfl (Nat.le_refl _), ?_⟩
    obtain ⟨hlt, hget⟩ := List.getElem?_eq_some_iff.mp hat.function
    rw [← hget, List.set_getElem_self]
  | @tail s1 s2 _ step ih =>
    obtain ⟨f1, n1, hat1, hdrift, hset⟩ := ih
    cases step with
    | warn | report | clash | tick | rebind | declare | global | routine =>
      exact ⟨f1, n1, ⟨hat1.cursor, hat1.function, hat1.block⟩, hdrift, hset⟩
    | code cursor function gains =>
      have hc := hat1.cursor.symm.trans cursor
      cases hc
      have hf := hat1.function.symm.trans function
      cases hf
      obtain ⟨hdrift2, hlt⟩ := gains.drifts (fun i hi => hi.1) hat1.block
      refine ⟨_, _, hat1.put hlt, hdrift.trans hdrift2, ?_⟩
      rw [Lowering.module, Builder.put]
      dsimp only
      rw [hset, List.set_set]

/-! ## From the start of a statement -/

/-- Lowering came from the state `s`, whose cursor stands in block `n` of the function `f`, to `s'`,
whose cursor stands in block `n'` of what became of the function. -/
structure Onward (s : Lowering) (index : Nat) (f : Function) (n : Nat) (s' : Lowering)
    (f' : Function) (n' : Nat) : Prop where
  placed : s'.builder.At index f' n'
  graph : f.graph.Advances n f'.graph n'
  others : ∀ j g, j ≠ index → s.module.functions[j]? = some g → s'.module.functions[j]? = some g
  guarded : ∀ g ∈ s'.module.functions, g.Guarded
  errors : s.errors <+: s'.errors
  /-- If no error is found, control passes to no block that is marked. -/
  barred : s'.errors = s.errors → (∀ g ∈ s.module.functions, g.graph.Barred) →
    ∀ g ∈ s'.module.functions, g.graph.Barred

/-- A part is lowered so, wherever the cursor stands in front of it. -/
def LeadsOn {α : Type} (x : Lower α) : Prop :=
  ∀ ⦃s s' : Lowering⦄ ⦃index n : Nat⦄ ⦃f : Function⦄ ⦃a : α⦄, s.builder.At index f n →
    (∀ g ∈ s.module.functions, g.Guarded) → x s = .ok (a, s') →
    ∃ f' n', Onward s index f n s' f' n'

variable {u : Unit} {label : String} {line m : Nat}

namespace Onward

variable {s s1 s2 : Lowering} {index n n1 n2 : Nat} {f f1 f2 : Function}

theorem refl (hat : s.builder.At index f n) (hg : ∀ g ∈ s.module.functions, g.Guarded) :
    Onward s index f n s f n :=
  ⟨hat, .refl _ _, fun _ _ _ h => h, hg, List.prefix_rfl, fun _ h => h⟩

theorem trans (h1 : Onward s index f n s1 f1 n1) (h2 : Onward s1 index f1 n1 s2 f2 n2) :
    Onward s index f n s2 f2 n2 where
  placed := h2.placed
  graph := h1.graph.trans h2.graph
  others j g hj hg := h2.others j g hj (h1.others j g hj hg)
  guarded := h2.guarded
  errors := h1.errors.trans h2.errors
  barred hsame hb := by
    obtain ⟨hsame1, hsame2⟩ := Stage.errors_between h1.errors h2.errors hsame
    exact h2.barred hsame2 (h1.barred hsame1 hb)

variable (h : Onward s index f n s1 f1 n1)

include h

theorem mem_function : f1 ∈ s1.module.functions :=
  List.mem_of_getElem? h.placed.function

theorem block_lt : n1 < f1.graph.length := by
  rw [Function.graph_length]
  exact h.placed.block

/-- No function goes away. -/
theorem length_le : s.module.functions.length ≤ s1.module.functions.length := by
  by_contra hlt
  have hindex := h.placed.index_lt
  have hget := List.getElem?_eq_getElem (Nat.lt_of_not_le hlt)
  have hget1 := h.others _ _ (Nat.ne_of_gt hindex) hget
  exact absurd (List.getElem?_eq_some_iff.mp hget1).1 (Nat.lt_irrefl _)

/-- A step that changes the function at the cursor. -/
theorem put (hat : s2.builder.At index f2 n2)
    (hset : s2.module.functions = s1.module.functions.set index f2)
    (herrors : s1.errors <+: s2.errors) (hgraph : f.graph.Advances n f2.graph n2)
    (hguarded : f2.Guarded) (hbarred : s2.errors = s.errors → f1.graph.Barred → f2.graph.Barred) :
    Onward s index f n s2 f2 n2 where
  placed := hat
  graph := hgraph
  others j g hj hg := by
    rw [hset, List.getElem?_set_ne hj.symm]
    exact h.others j g hj hg
  guarded g hg := by
    rw [hset] at hg
    exact (List.mem_or_eq_of_mem_set hg).elim (h.guarded g) fun e => e ▸ hguarded
  errors := h.errors.trans herrors
  barred hsame hb g hg := by
    have hb1 := h.barred (Stage.errors_between h.errors herrors hsame).1 hb
    rw [hset] at hg
    exact (List.mem_or_eq_of_mem_set hg).elim (hb1 g) fun e =>
      e ▸ hbarred hsame (hb1 _ h.mem_function)

/-- Plain code. -/
theorem plain {α : Type} {x : Lower α} {a : α} {k : Nat}
    (hx : Walks (Lowering.Plain fun _ => True) k s1 x) (run : x s1 = .ok (a, s2)) :
    ∃ f2 n2, Onward s index f n s2 f2 n2 ∧ f1.graph.Passes n1 [] f2.graph n2 := by
  have hsteps := hx.goes a s2 run
  obtain ⟨f2, n2, hat, hdrift, hset⟩ := plain_drifts hsteps h.placed
  refine ⟨f2, n2, ?_, hdrift.passes⟩
  obtain ⟨extra, hg, hempty⟩ := hdrift.graph
  refine h.put hat hset (Lowering.errors_of_plain hsteps) (h.graph.trans ?_)
    (hdrift.guarded (h.guarded _ h.mem_function)) fun _ hb => hg ▸ hb.append hempty
  rw [hg]
  exact Graph.advances_append hempty hdrift.block

/-- A step that leaves the module and the cursor as they are. -/
theorem look (hb : s2.builder = s1.builder) (herrors : s1.errors <+: s2.errors) :
    Onward s index f n s2 f1 n1 where
  placed := hb ▸ h.placed
  graph := h.graph
  others j g hj hg := by
    rw [Lowering.module, hb]
    exact h.others j g hj hg
  guarded := by
    rw [Lowering.module, hb]
    exact h.guarded
  errors := h.errors.trans herrors
  barred hsame hbar := by
    rw [Lowering.module, hb]
    exact h.barred (Stage.errors_between h.errors herrors hsame).1 hbar

/-- A new block. -/
theorem append {hint : String} {c : Ir.Cursor}
    (run : Lower.build (.appendBlock hint) s1 = .ok (c, s2)) :
    ∃ f2 label, Onward s index f n s2 f2 n1 ∧ c = ⟨index, f1.graph.length⟩ ∧
      f1.graph.Grows label f2.graph := by
  obtain ⟨b, hb, rfl⟩ := build_inv run
  rw [Build.appendBlock_run h.placed] at hb
  cases hb
  have hguarded := h.guarded _ h.mem_function
  have hgraph := Function.graph_append f1 hint
  refine ⟨f1.append hint, f1.freshName hint, ?_, by rw [Function.graph_length], ?_⟩
  · refine h.put (h.placed.put ?_) rfl List.prefix_rfl (h.graph.trans ?_) (hguarded.append hint)
      fun _ hbar => ?_
    · rw [Function.append_length]
      exact Nat.lt_succ_of_lt h.placed.block
    · rw [hgraph]
      exact Graph.advances_append (by simp) (Or.inl rfl)
    · rw [hgraph]
      exact hbar.append (by simp)
  · -- control passes to labels that are there, and this one was not
    rw [hgraph]
    exact Graph.grows_append fun ht => hguarded.fresh hint (hguarded.targets _ ht)

/-- The cursor goes to a block that is new since the start. -/
theorem move {c : Ir.Cursor} (hc : c = ⟨index, m⟩) (hm : f.graph.length ≤ m)
    (hlt : m < f1.graph.length) (run : Lower.build (.moveTo c) s1 = .ok (u, s2)) :
    Onward s index f n s2 f1 m := by
  subst hc
  obtain ⟨b, hb, rfl⟩ := build_inv run
  rw [Build.moveTo_run h.placed] at hb
  cases hb
  rw [Function.graph_length] at hlt
  exact h.put (h.placed.put hlt) rfl List.prefix_rfl (h.graph.move hm)
    (h.guarded _ h.mem_function) fun _ hbar => hbar

/-! ## Passing control on -/

/-- A block is left by an instruction that passes control to new blocks, none of them marked. Only
where an error was found may the block be marked itself. -/
theorem exit {i : Instr} (hi : i.isTerminator = true)
    (hmark : s1.errors = s.errors → i ≠ .unreachable)
    (ht : ∀ t ∈ i.targets, ∃ m, f.graph.length ≤ m ∧ f1.graph.Safe m t)
    (run : Lower.build (.emit i) s1 = .ok (u, s2)) :
    ∃ f2 n2, Onward s index f n s2 f2 n2 ∧
      (i ≠ .unreachable → f1.graph.Passes n1 i.targets f2.graph n2) := by
  obtain ⟨b, hb, rfl⟩ := build_inv run
  rw [Build.emit_run h.placed] at hb
  cases hb
  obtain ⟨hroom, hlt⟩ := Function.drifts_room h.placed.block
  obtain ⟨extra, hg, hempty⟩ := hroom.graph
  have hguarded := hroom.guarded (h.guarded _ h.mem_function)
  have hsafe : ∀ t ∈ i.targets, ∃ m, f.graph.length ≤ m ∧ (f1.room n1).1.graph.Safe m t := by
    intro t hmem
    obtain ⟨m, hm, hs⟩ := ht t hmem
    exact ⟨m, hm, hg ▸ hs.append extra⟩
  have hleave := Function.graph_leave (f := (f1.room n1).1) hi (f1.room n1).2
  have hadvance : f.graph.Advances n (f1.room n1).1.graph (f1.room n1).2 := by
    refine h.graph.trans ?_
    rw [hg]
    exact Graph.advances_append hempty hroom.block
  refine ⟨_, _, h.put (h.placed.put ?_) rfl List.prefix_rfl ?_
    ?_ fun hsame hbar => ?_, fun hne => ?_⟩
  · rw [Function.modifyBlock_blocks_length]
    exact hlt
  · rw [hleave]
    refine hadvance.leave fun t hmem => ?_
    obtain ⟨m, hm, exits, hexits, -⟩ := hsafe t hmem
    exact Graph.not_mem_labels hguarded.labels hadvance.labels hexits hm
  · refine hguarded.leave hleave (Nat.le_refl _) fun t hmem => ?_
    obtain ⟨m, -, exits, hexits, -⟩ := hsafe t hmem
    exact Graph.mem_labels hexits
  · rw [hleave]
    refine Graph.Barred.leave ?_ hguarded.labels (hmark hsame) (fun t hmem => ?_) _
    · rw [hg]
      exact hbar.append hempty
    · obtain ⟨m, -, hs⟩ := hsafe t hmem
      exact ⟨m, hs⟩
  · have hpasses := hroom.passes.trans (Graph.passes_leave _ _ hne)
    rwa [← hleave] at hpasses

/-- A block that nothing leaves and that control does not pass to is marked. -/
theorem mark (hempty : f1.graph[n1]? = some (label, [])) (hn : n1 ≠ 0)
    (hl : ¬ f1.graph.Targeted label) (run : Lower.build .unreachable s1 = .ok (u, s2)) :
    ∃ f2, Onward s index f n s2 f2 n1 := by
  obtain ⟨b, hb, rfl⟩ := build_inv run
  rw [Build.unreachable, Build.emit_run h.placed, Function.room_of_graph hempty] at hb
  cases hb
  have hleave := Function.graph_leave (f := f1) (i := .unreachable) rfl n1
  refine ⟨_, h.put (h.placed.put ?_) rfl List.prefix_rfl ?_ ?_ fun _ hbar => ?_⟩
  · rw [Function.modifyBlock_blocks_length]
    exact h.placed.block
  · rw [hleave]
    exact h.graph.leave fun t hmem => by cases hmem
  · exact (h.guarded _ h.mem_function).leave hleave (Nat.le_refl _) fun t hmem => by cases hmem
  · rw [hleave]
    exact hbar.mark hempty hn hl

omit h in
theorem block_of_safe (h : f.graph.Safe m label) :
    ∃ b, f.blocks[m]? = some b ∧ b.label = label := by
  obtain ⟨exits, hexits, -⟩ := h
  rw [Ir.Function.graph, List.getElem?_map, Option.map_eq_some_iff] at hexits
  obtain ⟨b, hb, heq⟩ := hexits
  exact ⟨b, hb, (Prod.mk.inj heq).1⟩

theorem br (hm : f.graph.length ≤ m) (hsafe : f1.graph.Safe m label)
    (run : Lower.build (.br ⟨index, m⟩) s1 = .ok (u, s2)) :
    ∃ f2 n2, Onward s index f n s2 f2 n2 ∧ f1.graph.Passes n1 [label] f2.graph n2 := by
  obtain ⟨c, hc, rfl⟩ := block_of_safe hsafe
  have run' : Lower.build (.emit (.br c.label)) s1 = .ok (u, s2) := by
    rw [← run, Lower.build, Lower.build, Build.br_run h.placed hc]
  have hne : Instr.br c.label ≠ .unreachable := by simp
  obtain ⟨f2, n2, h2, hpasses⟩ := h.exit rfl (fun _ => hne) (fun t ht => by
    rw [Instr.targets, List.mem_singleton] at ht
    exact ⟨m, hm, ht ▸ hsafe⟩) run'
  exact ⟨f2, n2, h2, hpasses hne⟩

theorem condBr {cond : Value} {y z : Nat} {yes no : String} (hy : f.graph.length ≤ y)
    (hyes : f1.graph.Safe y yes) (hz : f.graph.length ≤ z) (hno : f1.graph.Safe z no)
    (run : Lower.build (.condBr cond ⟨index, y⟩ ⟨index, z⟩) s1 = .ok (u, s2)) :
    ∃ f2 n2, Onward s index f n s2 f2 n2 ∧ f1.graph.Passes n1 [yes, no] f2.graph n2 := by
  obtain ⟨c, hc, rfl⟩ := block_of_safe hyes
  obtain ⟨d, hd, rfl⟩ := block_of_safe hno
  have run' : Lower.build (.emit (.condBr cond c.label d.label)) s1 = .ok (u, s2) := by
    rw [← run, Lower.build, Lower.build, Build.condBr_run h.placed cond hc hd]
  have hne : Instr.condBr cond c.label d.label ≠ .unreachable := by simp
  obtain ⟨f2, n2, h2, hpasses⟩ := h.exit rfl (fun _ => hne) (fun t ht => by
    rw [Instr.targets, List.mem_cons, List.mem_singleton] at ht
    rcases ht with rfl | rfl
    · exact ⟨y, hy, hyes⟩
    · exact ⟨z, hz, hno⟩) run'
  exact ⟨f2, n2, h2, hpasses hne⟩

theorem branchOn {cond : Option Value} {y z w : Nat} {yes no : String} (hy : f.graph.length ≤ y)
    (hyes : f1.graph.Safe y yes) (hz : f.graph.length ≤ z) (hno : f1.graph.Safe z no)
    (hw : w = y ∨ w = z)
    (run : Lower.branchOn cond ⟨index, y⟩ ⟨index, z⟩ ⟨index, w⟩ s1 = .ok (u, s2)) :
    ∃ f2 n2, Onward s index f n s2 f2 n2 ∧ f1.graph.Passes n1 [yes, no] f2.graph n2 := by
  cases cond with
  | some cond => exact h.condBr hy hyes hz hno run
  | none =>
    have hother : ∃ label, f1.graph.Safe w label ∧ [label] ⊆ [yes, no] := by
      rcases hw with rfl | rfl
      · exact ⟨yes, hyes, by simp⟩
      · exact ⟨no, hno, by simp⟩
    obtain ⟨label, hsafe, hsub⟩ := hother
    obtain ⟨f2, n2, h2, hpasses⟩ := h.br (by omega) hsafe run
    exact ⟨f2, n2, h2, { hpasses with
      targeted := fun l hl => (hpasses.targeted l hl).imp id (hsub ·) }⟩

theorem fallThrough {ended : Bool} (hm : f.graph.length ≤ m) (hsafe : f1.graph.Safe m label)
    (run : Lower.fallThrough ⟨index, m⟩ s1 = .ok (ended, s2)) :
    ∃ f2 n2, Onward s index f n s2 f2 n2 ∧
      f1.graph.Passes n1 (if ended then [] else [label]) f2.graph n2 := by
  obtain ⟨ended', s', run1, run2⟩ := run_bind_inv run
  obtain ⟨b, hb, rfl⟩ := build_inv run1
  obtain ⟨-, rfl⟩ := Build.isTerminated_inv hb
  cases ended' with
  | true =>
    cases run2
    have hpasses : f1.graph.Passes n1 [] (f1.graph ++ []) n1 :=
      Graph.passes_append (by simp) (Or.inl rfl)
    rw [List.append_nil] at hpasses
    exact ⟨f1, n1, h, hpasses⟩
  | false =>
    obtain ⟨_, s3, run3, run4⟩ := run_bind_inv run2
    cases run4
    exact h.br hm hsafe run3

theorem returnValue {value : Option Value} (hvalue : s1.errors = s.errors → value.isSome = true)
    (run : Lower.returnValue value s1 = .ok (u, s2)) : ∃ f2 n2, Onward s index f n s2 f2 n2 := by
  have leave : ∀ i : Instr, i.isTerminator = true → i.targets = [] →
      (s1.errors = s.errors → i ≠ .unreachable) → Lower.build (.emit i) s1 = .ok (u, s2) →
      ∃ f2 n2, Onward s index f n s2 f2 n2 := by
    intro i hi htargets hmark run
    obtain ⟨f2, n2, h2, -⟩ := h.exit hi hmark (fun t ht => by rw [htargets] at ht; cases ht) run
    exact ⟨f2, n2, h2⟩
  cases value with
  | some value => exact leave (.ret value) rfl rfl (fun _ => nofun) run
  | none => exact leave .unreachable rfl rfl (fun hsame => absurd (hvalue hsame) nofun) run

theorem asResult {ret ty : Ty} {value : Value}
    (run : (Lower.asResult line ret value ty >>= Lower.returnValue) s1 = .ok (u, s2)) :
    ∃ f2 n2, Onward s index f n s2 f2 n2 := by
  obtain ⟨result, s3, run1, run2⟩ := run_bind_inv run
  obtain ⟨f3, n3, h3, -⟩ := h.plain (asResult_walks line ret value ty) run1
  obtain ⟨herrors, hsome⟩ := tells_asResult line ret value ty s1 s3 result run1
  exact h3.returnValue (fun hsame => hsome (Stage.errors_between h.errors herrors hsame).2) run2

/-- What a procedure returns without a value that can be returned is an error. -/
theorem implicitReturn {name : String} {ret : Ty} {last : Result}
    (run : Lower.implicitReturn line name ret last s1 = .ok (u, s2)) :
    ∃ f2 n2, Onward s index f n s2 f2 n2 := by
  cases last with
  | some last => exact h.asResult run
  | none =>
    obtain ⟨result, s3, run1, run2⟩ := run_bind_inv run
    obtain ⟨f3, n3, h3, -⟩ := h.plain (report_walks line (by trivial)) run1
    have htells : Tells (Lower.report line (.missingReturn name)) fun r : Option Value =>
      r.isSome = true := tells_report _ _
    obtain ⟨herrors, hsome⟩ := htells s1 s3 result run1
    exact h3.returnValue (fun hsame => hsome (Stage.errors_between h.errors herrors hsame).2) run2

/-- The same for a `return`, whose expression has a value unless an error was found. -/
theorem returnFrom {ret : Ty} {value : Result} (hvalue : s1.errors = s.errors → value.isSome = true)
    (run : Lower.returnFrom line ret value s1 = .ok (u, s2)) :
    ∃ f2 n2, Onward s index f n s2 f2 n2 := by
  cases value with
  | some value => exact h.asResult run
  | none =>
    have run' : Lower.returnValue none s1 = .ok (u, s2) := run
    exact h.returnValue (fun hsame => absurd (hvalue hsame) nofun) run'

/-! ## Procedures -/

/-- A function is defined behind the others. -/
theorem define (name : String) (ret : Ir.Ty) (params : List Param) :
    Onward s index f n (s1.withModule { s1.module with
      functions := s1.module.functions ++ [.new name ret params] }) f1 n1 := by
  have old : ∀ j g, s1.module.functions[j]? = some g →
      (s1.module.functions ++ [Function.new name ret params])[j]? = some g := fun j g hg => by
    rw [List.getElem?_append_left (List.getElem?_eq_some_iff.mp hg).1]
    exact hg
  have cases_mem : ∀ {P : Function → Prop}, (∀ g ∈ s1.module.functions, P g) →
      P (Function.new name ret params) →
      ∀ g ∈ s1.module.functions ++ [Function.new name ret params], P g := by
    intro P hold hnew g hg
    rcases List.mem_append.mp hg with hg | hg
    · exact hold g hg
    · exact List.mem_singleton.mp hg ▸ hnew
  exact ⟨⟨h.placed.cursor, old _ _ h.placed.function, h.placed.block⟩, h.graph,
    fun j g hj hg => old j g (h.others j g hj hg),
    cases_mem h.guarded (Function.guarded_new name ret params), h.errors,
    fun hsame hbar => cases_mem (h.barred hsame hbar) (Function.barred_new name ret params)⟩

/-- What happens in another function that is new, to which the cursor goes and from which it comes
back. -/
theorem aside {k m m' : Nat} {g g' : Function} (hk : s.module.functions.length ≤ k)
    (hne : k ≠ index) (hmodule : s2.module = s1.module) (herrors : s2.errors = s1.errors)
    {s3 s4 : Lowering} (h' : Onward s2 k g m s3 g' m')
    (hcursor : s4.builder.cursor = s1.builder.cursor) (hmodule' : s4.module = s3.module)
    (herrors' : s4.errors = s3.errors) : Onward s index f n s4 f1 n1 := by
  have others : ∀ j e, j ≠ k → s1.module.functions[j]? = some e →
      s4.module.functions[j]? = some e := by
    rw [hmodule', ← hmodule]
    exact h'.others
  have hprefix : s1.errors <+: s4.errors := by
    rw [herrors', ← herrors]
    exact h'.errors
  exact
    { placed :=
        ⟨hcursor.trans h.placed.cursor, others _ _ hne.symm h.placed.function, h.placed.block⟩
      graph := h.graph
      others := fun j e hj he => by
        have hlt := (List.getElem?_eq_some_iff.mp he).1
        exact others j e (by omega) (h.others j e hj he)
      guarded := by
        rw [hmodule']
        exact h'.guarded
      errors := h.errors.trans hprefix
      barred := fun hsame hbar => by
        obtain ⟨hsame1, hsame2⟩ := Stage.errors_between h.errors hprefix hsame
        rw [herrors', ← herrors] at hsame2
        have hbar1 := h.barred hsame1 hbar
        rw [← hmodule] at hbar1
        rw [hmodule']
        exact h'.barred hsame2 hbar1 }

/-- A procedure that was declared has a function of its own, which is empty. -/
theorem openProcedure {heading : Heading} {opened : Option Lower.Opened}
    (run : Lower.openProcedure line heading s1 = .ok (opened, s2)) :
    Onward s index f n s2 f1 n1 ∧ ∀ o, opened = some o →
      ∃ k g, s.module.functions.length ≤ k ∧ k ≠ index ∧ o.entry = ⟨k, 0⟩ ∧
        s2.module.functions[k]? = some g ∧ 0 < g.blocks.length := by
  by_cases hwrong : heading.Wrong s1
  · obtain ⟨errors, -, run'⟩ := Lower.openProcedure_wrong line hwrong
    cases run.symm.trans run'
    exact ⟨h.look rfl (List.prefix_append _ _), nofun⟩
  · obtain ⟨ret, params, -, -, run'⟩ := Lower.openProcedure_opened line hwrong
    cases run.symm.trans run'
    refine ⟨(h.define _ ret.ir (Lower.irParams params)).look rfl List.prefix_rfl, ?_⟩
    rintro o ⟨⟩
    exact ⟨s1.module.functions.length, _, h.length_le, (Nat.ne_of_lt h.placed.index_lt).symm, rfl,
      List.getElem?_concat_length, Nat.one_pos⟩

omit h in
theorem closeScope_inv {t t' : Lowering} (run : Lower.closeScope t = .ok (u, t')) :
    t'.builder = t.builder ∧ t'.errors = t.errors := by
  obtain ⟨_, _, ⟨⟩, rest⟩ := run_bind_inv run
  cases hpop : t.symbols.pop? with
  | none =>
    rw [hpop] at rest
    cases rest
  | some symbols =>
    rw [hpop] at rest
    cases rest
    exact ⟨rfl, rfl⟩

/-- What is done unless the block has ended. -/
theorem unlessEnded {x : Lower Unit}
    (hx : ∀ {s2}, x s1 = .ok ((), s2) → ∃ f2 n2, Onward s index f n s2 f2 n2)
    (run : Lower.unlessEnded x s1 = .ok ((), s2)) : ∃ f2 n2, Onward s index f n s2 f2 n2 := by
  obtain ⟨ended, _, run1, rest⟩ := run_bind_inv run
  obtain ⟨b, hb, rfl⟩ := build_inv run1
  obtain ⟨-, rfl⟩ := Build.isTerminated_inv hb
  cases ended with
  | true =>
    cases rest
    exact ⟨f1, n1, h⟩
  | false => exact hx rest

/-- A procedure is lowered in a function of its own. -/
theorem procedure {α : Type} {name : String} {o : Lower.Opened} {body : Lower (Result × α)} {a : α}
    {k : Nat} {g : Function} (hk : s.module.functions.length ≤ k) (hne : k ≠ index)
    (hentry : o.entry = ⟨k, 0⟩) (hg : s1.module.functions[k]? = some g) (hlt : 0 < g.blocks.length)
    (hbody : LeadsOn body) (run : Lower.procedure line name o body s1 = .ok (a, s2)) :
    Onward s index f n s2 f1 n1 := by
  rw [Lower.procedure_eq] at run
  obtain ⟨_, _, ⟨⟩, rest1⟩ := run_bind_inv run
  obtain ⟨_, s5, enter, rest4⟩ := run_bind_inv rest1
  obtain ⟨_, s3, run2, rest2⟩ := run_bind_inv enter
  obtain ⟨_, s4, run3, run4⟩ := run_bind_inv rest2
  obtain ⟨⟨last, b⟩, s6, run5, rest5⟩ := run_bind_inv rest4
  obtain ⟨_, s7, run6, rest6⟩ := run_bind_inv rest5
  obtain ⟨_, s8, leave, ⟨⟩⟩ := run_bind_inv rest6
  obtain ⟨_, s9, run7, ⟨⟩⟩ := run_bind_inv leave
  have hstart : s4.builder = { s1.builder with cursor := some ⟨k, 0⟩ } ∧ s4.errors = s1.errors := by
    rw [hentry] at run2
    cases run2
    cases run3
    exact ⟨rfl, rfl⟩
  have hat : s4.builder.At k g 0 := by
    rw [hstart.1]
    exact ⟨rfl, hg, hlt⟩
  have hmodule : s4.module = s1.module := by rw [Lowering.module, hstart.1]
  obtain ⟨f5, n5, h5, -⟩ :=
    (refl hat (by rw [hmodule]; exact h.guarded)).plain (bindParams_walks _ _) run4
  obtain ⟨f6, n6, h6⟩ := hbody h5.placed h5.guarded run5
  obtain ⟨f7, n7, h7⟩ := (h5.trans h6).unlessEnded (h5.trans h6).implicitReturn run6
  obtain ⟨hb, he⟩ := closeScope_inv run7
  have hm : s9.module = s7.module := congrArg Builder.module hb
  exact h.aside hk hne hmodule hstart.2 h7 rfl hm he

end Onward

end ProcLang
