import ProcLang.Proofs.Steps

/-!
# How blocks hang together

While a function is built, control passes between its blocks by the instructions that end them. The
`Graph` of a function holds the labels of its blocks and these instructions, and nothing else.

* `Function.Guarded`: labels are distinct, were handed out, and control passes to labels that are
  there;
* `Graph.Barred`: control passes to no block that is marked as one that it does not reach;
* `Graph.Advances`: blocks are added, and control passes to no old block that it did not pass to
  before;
* `Graph.Passes`: the same within a statement, where control passes to labels that are known.
-/

namespace ProcLang.Ir

open Naming

/-- The instructions of a block that pass control on. -/
def Block.exits (b : Block) : List Instr :=
  b.instrs.filter Instr.isTerminator

/-- The blocks of a function by their labels and the instructions that pass control on. -/
abbrev Graph := List (String × List Instr)

/-- How the blocks of a function hang together. -/
def Function.graph (f : Function) : Graph :=
  f.blocks.map fun b => (b.label, b.exits)

variable {b : String × List Instr} {extra : Graph}

namespace Graph

/-- The labels of the blocks. -/
def labels (g : Graph) : List String :=
  g.map Prod.fst

/-- Control may pass to the label. -/
def Targeted (g : Graph) (label : String) : Prop :=
  ∃ b ∈ g, ∃ i ∈ b.2, label ∈ i.targets

/-- Block `n` is left by one more instruction. -/
def leave (g : Graph) (n : Nat) (i : Instr) : Graph :=
  g.modify n fun b => (b.1, b.2 ++ [i])

/-- Block `m` has a label, and it is not marked as one that control does not reach. -/
def Safe (g : Graph) (m : Nat) (label : String) : Prop :=
  ∃ exits, g[m]? = some (label, exits) ∧ .unreachable ∉ exits

/-- Control passes to no block that is marked as one that it does not reach, and the entry is not
marked. -/
def Barred (g : Graph) : Prop :=
  ∀ n b, g[n]? = some b → .unreachable ∈ b.2 → n ≠ 0 ∧ ¬ g.Targeted b.1

/-- Blocks are added and old ones other than block `n` stay as they are. Control passes to no old
block that it did not pass to before. The block that is filled is block `n` still, or a new one. -/
structure Advances (g : Graph) (n : Nat) (g' : Graph) (n' : Nat) : Prop where
  labels : g.labels <+: g'.labels
  kept : ∀ m b, m ≠ n → g[m]? = some b → g'[m]? = some b
  inward : ∀ label ∈ g.labels, g'.Targeted label → g.Targeted label
  block : n' = n ∨ g.length ≤ n'

/-- Block `n` is continued, perhaps in a new block, and control passes on from there to the given
labels only. Nothing is marked. -/
structure Passes (g : Graph) (n : Nat) (labels : List String) (g' : Graph) (n' : Nat) : Prop where
  length : g.length ≤ g'.length
  kept : ∀ m b, m ≠ n → g[m]? = some b → g'[m]? = some b
  safe : ∀ m label, g.Safe m label → g'.Safe m label
  targeted : ∀ label, g'.Targeted label → g.Targeted label ∨ label ∈ labels
  block : n' = n ∨ g.length ≤ n'

/-- An empty block is added, which control does not pass to yet. -/
structure Grows (g : Graph) (label : String) (g' : Graph) : Prop where
  length : g'.length = g.length + 1
  last : g'[g.length]? = some (label, [])
  kept : ∀ (m : Nat) b, g[m]? = some b → g'[m]? = some b
  untargeted : ¬ g'.Targeted label

variable {g g' g'' : Graph} {n n' n'' m : Nat} {label : String} {i : Instr}

/-! ## Leaving a block -/

theorem leave_labels (g : Graph) (n : Nat) (i : Instr) : (g.leave n i).labels = g.labels := by
  unfold labels leave
  refine List.ext_getElem? fun m => ?_
  rw [List.getElem?_map, List.getElem?_map, List.getElem?_modify]
  cases g[m]? with
  | none => rfl
  | some b => by_cases h : n = m <;> simp [h]

theorem leave_length (g : Graph) (n : Nat) (i : Instr) : (g.leave n i).length = g.length :=
  List.length_modify _ _ _

theorem leave_ne (h : m ≠ n) (i : Instr) : (g.leave n i)[m]? = g[m]? := by
  rw [leave, List.getElem?_modify]
  simp [Ne.symm h]

theorem leave_self {exits : List Instr} (h : g[n]? = some (label, exits)) (i : Instr) :
    (g.leave n i)[n]? = some (label, exits ++ [i]) := by
  rw [leave, List.getElem?_modify]
  simp [h]

/-- The blocks of a graph in which one block is left once more. -/
theorem leave_cases (h : (g.leave n i)[m]? = some b) :
    ∃ exits, g[m]? = some (b.1, exits) ∧ ∀ j ∈ b.2, j ∈ exits ∨ m = n ∧ j = i := by
  by_cases hm : m = n
  · subst hm
    rw [leave, List.getElem?_modify] at h
    cases hb : g[m]? with
    | none => simp [hb] at h
    | some b0 =>
      obtain rfl : (b0.1, b0.2 ++ [i]) = b := by simpa [hb] using h
      exact ⟨b0.2, rfl, fun j hj => by simpa using hj⟩
  · rw [leave_ne hm] at h
    exact ⟨b.2, h, fun j hj => Or.inl hj⟩

theorem targeted_leave (h : (g.leave n i).Targeted label) :
    g.Targeted label ∨ label ∈ i.targets := by
  obtain ⟨b, hb, j, hj, ht⟩ := h
  obtain ⟨m, hm⟩ := List.getElem?_of_mem hb
  obtain ⟨exits, hexits, hcases⟩ := leave_cases hm
  rcases hcases j hj with hj | ⟨-, rfl⟩
  · exact Or.inl ⟨_, List.mem_of_getElem? hexits, j, hj, ht⟩
  · exact Or.inr ht

theorem Safe.leave (h : g.Safe m label) (hi : i ≠ .unreachable) (n : Nat) :
    (g.leave n i).Safe m label := by
  obtain ⟨exits, hexits, hsafe⟩ := h
  by_cases hm : m = n
  · subst hm
    refine ⟨exits ++ [i], leave_self hexits i, fun hmem => ?_⟩
    rcases List.mem_append.mp hmem with hmem | hmem
    · exact hsafe hmem
    · exact hi (List.mem_singleton.mp hmem).symm
  · exact ⟨exits, (leave_ne hm i).trans hexits, hsafe⟩

/-! ## Adding blocks -/

theorem targeted_append (hempty : ∀ b ∈ extra, b.2 = []) (h : (g ++ extra).Targeted label) :
    g.Targeted label := by
  obtain ⟨b, hb, j, hj, ht⟩ := h
  rcases List.mem_append.mp hb with hb | hb
  · exact ⟨b, hb, j, hj, ht⟩
  · rw [hempty b hb] at hj
    cases hj

theorem append_getElem? (h : g[m]? = some b) (extra : Graph) : (g ++ extra)[m]? = some b := by
  rw [List.getElem?_append_left (List.getElem?_eq_some_iff.mp h).1]
  exact h

theorem Safe.append (h : g.Safe m label) (extra : Graph) : Safe (g ++ extra) m label := by
  obtain ⟨exits, hexits, hsafe⟩ := h
  exact ⟨exits, append_getElem? hexits extra, hsafe⟩

theorem safe_of_empty (h : g[m]? = some (label, [])) : g.Safe m label :=
  ⟨[], h, by simp⟩

theorem grows_append (h : ¬ g.Targeted label) : g.Grows label (g ++ [(label, [])]) where
  length := List.length_append
  last := List.getElem?_concat_length
  kept _ _ hb := append_getElem? hb _
  untargeted ht := h (targeted_append (by simp) ht)

/-! ## Labels -/

theorem mem_labels (h : g[m]? = some b) : b.1 ∈ g.labels :=
  List.mem_map_of_mem (List.mem_of_getElem? h)

/-- Blocks with the same label are the same. -/
theorem index_unique (h : g.labels.Nodup) {b c : String × List Instr} (hb : g[m]? = some b)
    (hc : g[n]? = some c) (hbc : b.1 = c.1) : m = n := by
  have hm : g.labels[m]? = some b.1 := by rw [labels, List.getElem?_map, hb]; rfl
  have hn : g.labels[n]? = some b.1 := by rw [labels, List.getElem?_map, hc, hbc]; rfl
  obtain ⟨hlt, -⟩ := List.getElem?_eq_some_iff.mp hm
  exact (List.getElem?_inj hlt h).mp (hm.trans hn.symm)

/-- A label of a new block is no label of an old one. -/
theorem not_mem_labels (h : g'.labels.Nodup) (hp : g.labels <+: g'.labels) (hb : g'[m]? = some b)
    (hm : g.length ≤ m) : b.1 ∉ g.labels := by
  intro hmem
  obtain ⟨k, hk⟩ := List.getElem?_of_mem hmem
  obtain ⟨hlt, -⟩ := List.getElem?_eq_some_iff.mp hk
  have hm' : g'.labels[m]? = some b.1 := by rw [labels, List.getElem?_map, hb]; rfl
  have hk' : g'.labels[k]? = some b.1 := by
    obtain ⟨more, hmore⟩ := hp
    rw [← hmore, List.getElem?_append_left hlt]
    exact hk
  obtain ⟨hlt', -⟩ := List.getElem?_eq_some_iff.mp hk'
  have hkm : k = m := (List.getElem?_inj hlt' h).mp (hk'.trans hm'.symm)
  rw [labels, List.length_map] at hlt
  omega

/-! ## Advancing -/

theorem Advances.length_le (h : g.Advances n g' n') : g.length ≤ g'.length := by
  simpa [Graph.labels] using h.labels.length_le

theorem Advances.refl (g : Graph) (n : Nat) : g.Advances n g n :=
  ⟨List.prefix_rfl, fun _ _ _ h => h, fun _ _ h => h, Or.inl rfl⟩

theorem Advances.trans (h1 : g.Advances n g' n') (h2 : g'.Advances n' g'' n'') :
    g.Advances n g'' n'' where
  labels := h1.labels.trans h2.labels
  kept m b hm hb := by
    have hlt := (List.getElem?_eq_some_iff.mp hb).1
    have := h1.block
    exact h2.kept m b (by omega) (h1.kept m b hm hb)
  inward label hl ht := h1.inward label hl (h2.inward label (h1.labels.subset hl) ht)
  block := by
    have := h1.length_le
    have := h1.block
    have := h2.block
    omega

/-- The cursor goes to a new block. -/
theorem Advances.move (h : g.Advances n g' n') (hm : g.length ≤ m) : g.Advances n g' m :=
  { h with block := Or.inr hm }

/-- Empty blocks are added. -/
theorem advances_append (hempty : ∀ b ∈ extra, b.2 = []) (hn : n' = n ∨ g.length ≤ n') :
    g.Advances n (g ++ extra) n' where
  labels := by
    rw [Graph.labels, Graph.labels, List.map_append]
    exact List.prefix_append _ _
  kept _ _ _ hb := append_getElem? hb extra
  inward _ _ ht := targeted_append hempty ht
  block := hn

/-- The block that is filled is left, for new blocks. -/
theorem Advances.leave (h : g.Advances n g' n') (hi : ∀ t ∈ i.targets, t ∉ g.labels) :
    g.Advances n (g'.leave n' i) n' where
  labels := by
    rw [leave_labels]
    exact h.labels
  kept m b hm hb := by
    have hlt := (List.getElem?_eq_some_iff.mp hb).1
    have := h.block
    rw [leave_ne (by omega)]
    exact h.kept m b hm hb
  inward label hl ht := by
    rcases targeted_leave ht with ht | ht
    · exact h.inward label hl ht
    · exact absurd hl (hi label ht)
  block := h.block

theorem Advances.safe (h : g.Advances n g' n') (hm : m ≠ n) (hs : g.Safe m label) :
    g'.Safe m label := by
  obtain ⟨exits, hexits, hsafe⟩ := hs
  exact ⟨exits, h.kept m _ hm hexits, hsafe⟩

/-! ## Passing control on -/

theorem Passes.trans {labels labels' : List String} (h1 : g.Passes n labels g' n')
    (h2 : g'.Passes n' labels' g'' n'') : g.Passes n (labels ++ labels') g'' n'' where
  length := Nat.le_trans h1.length h2.length
  kept m b hm hb := by
    have hlt := (List.getElem?_eq_some_iff.mp hb).1
    have := h1.block
    exact h2.kept m b (by omega) (h1.kept m b hm hb)
  safe m label hs := h2.safe m label (h1.safe m label hs)
  targeted label ht := by
    rcases h2.targeted label ht with ht | ht
    · exact (h1.targeted label ht).imp id (List.mem_append_left _)
    · exact Or.inr (List.mem_append_right _ ht)
  block := by
    have := h1.length
    have := h1.block
    have := h2.block
    omega

theorem passes_append (hempty : ∀ b ∈ extra, b.2 = []) (hn : n' = n ∨ g.length ≤ n') :
    g.Passes n [] (g ++ extra) n' where
  length := by
    rw [List.length_append]
    omega
  kept _ _ _ hb := append_getElem? hb extra
  safe _ _ hs := hs.append extra
  targeted _ ht := Or.inl (targeted_append hempty ht)
  block := hn

theorem passes_leave (g : Graph) (n : Nat) (hi : i ≠ .unreachable) :
    g.Passes n i.targets (g.leave n i) n where
  length := Nat.le_of_eq (leave_length g n i).symm
  kept _ _ hm hb := (leave_ne hm i).trans hb
  safe _ _ hs := hs.leave hi n
  targeted _ ht := targeted_leave ht
  block := Or.inl rfl

/-! ## Barred blocks -/

theorem Barred.append (h : g.Barred) (hempty : ∀ b ∈ extra, b.2 = []) : (g ++ extra).Barred := by
  intro n b hb hu
  by_cases hn : n < g.length
  · rw [List.getElem?_append_left hn] at hb
    exact ⟨(h n b hb hu).1, fun ht => (h n b hb hu).2 (targeted_append hempty ht)⟩
  · rw [List.getElem?_append_right (Nat.le_of_not_lt hn)] at hb
    rw [hempty b (List.mem_of_getElem? hb)] at hu
    cases hu

/-- Control is passed on to blocks that are not marked. -/
theorem Barred.leave (h : g.Barred) (hd : g.labels.Nodup) (hi : i ≠ .unreachable)
    (ht : ∀ t ∈ i.targets, ∃ m, g.Safe m t) (n : Nat) : (g.leave n i).Barred := by
  intro m b hb hu
  obtain ⟨exits, hexits, hcases⟩ := leave_cases hb
  have hu' : .unreachable ∈ exits := (hcases _ hu).elim id fun h => absurd h.2.symm hi
  obtain ⟨hm, hnot⟩ := h m _ hexits hu'
  refine ⟨hm, fun htargeted => ?_⟩
  rcases targeted_leave htargeted with hold | hnew
  · exact hnot hold
  · obtain ⟨k, exits', hk, hsafe⟩ := ht _ hnew
    obtain rfl := index_unique hd hexits hk rfl
    rw [hexits] at hk
    cases hk
    exact hsafe hu'

/-- A block that control does not pass to is marked. -/
theorem Barred.mark (h : g.Barred) {exits : List Instr} (hb : g[n]? = some (label, exits))
    (hn : n ≠ 0) (hl : ¬ g.Targeted label) : (g.leave n .unreachable).Barred := by
  have htargeted : ∀ {l}, (g.leave n .unreachable).Targeted l → g.Targeted l := fun ht =>
    (targeted_leave ht).elim id fun ht => by cases ht
  intro m b hm hu
  by_cases hmn : m = n
  · subst hmn
    obtain ⟨exits', hexits, -⟩ := leave_cases hm
    rw [hb] at hexits
    cases hexits
    exact ⟨hn, fun ht => hl (htargeted ht)⟩
  · rw [leave_ne hmn] at hm
    exact ⟨(h m b hm hu).1, fun ht => (h m b hm hu).2 (htargeted ht)⟩

end Graph

/-! ## The graph of a function that is built -/

namespace Function

variable {f : Function} {n : Nat} {i : Instr}

theorem graph_length (f : Function) : f.graph.length = f.blocks.length :=
  List.length_map _

theorem graph_getElem? {b : Block} (h : f.blocks[n]? = some b) :
    f.graph[n]? = some (b.label, b.exits) := by
  rw [graph, List.getElem?_map, h]
  rfl

theorem graph_append (f : Function) (hint : String) :
    (f.append hint).graph = f.graph ++ [(f.freshName hint, [])] := by
  simp [graph, append, Block.exits]

theorem graph_modifyBlock {g : Block → Block} {h : String × List Instr → String × List Instr}
    (hg : ∀ b, ((g b).label, (g b).exits) = h (b.label, b.exits)) (n : Nat) :
    (f.modifyBlock n g).graph = f.graph.modify n h := by
  refine List.ext_getElem? fun m => ?_
  rw [graph, graph, modifyBlock, List.getElem?_map, List.getElem?_modify, List.getElem?_modify,
    List.getElem?_map]
  cases f.blocks[m]? with
  | none => rfl
  | some b => by_cases hm : n = m <;> simp [hm, hg]

theorem graph_modifyBlock_same {g : Block → Block}
    (hg : ∀ b, ((g b).label, (g b).exits) = (b.label, b.exits)) (n : Nat) :
    (f.modifyBlock n g).graph = f.graph := by
  rw [graph_modifyBlock (h := id) hg]
  refine List.ext_getElem? fun m => ?_
  rw [List.getElem?_modify]
  cases f.graph[m]? <;> simp

/-- An instruction that does not pass control on leaves the graph as it is. -/
theorem graph_push (hi : i.isTerminator = false) (n : Nat) :
    (f.modifyBlock n (·.push i)).graph = f.graph :=
  graph_modifyBlock_same (fun b => by simp [Block.exits, hi]) n

theorem graph_reserve (dest : String) (ty : Ty) (n : Nat) :
    (f.modifyBlock n (·.pushAlloca (.alloca dest ty))).graph = f.graph := by
  refine graph_modifyBlock_same (fun b => ?_) n
  have hsplit : b.exits = (b.instrs.takeWhile Instr.isAlloca).filter Instr.isTerminator ++
      (b.instrs.dropWhile Instr.isAlloca).filter Instr.isTerminator := by
    rw [← List.filter_append, List.takeWhile_append_dropWhile, Block.exits]
  rw [Block.exits, Block.pushAlloca_instrs, Block.pushAlloca_label, List.filter_append, hsplit]
  rfl

theorem graph_leave (hi : i.isTerminator = true) (n : Nat) :
    (f.modifyBlock n (·.push i)).graph = f.graph.leave n i :=
  graph_modifyBlock (fun b => by simp [Block.exits, hi]) n

/-- A block that nothing leaves has not ended. -/
theorem isTerminated_of_exits {b : Block} (h : b.exits = []) : b.isTerminated = false := by
  rw [← Bool.not_eq_true, Block.isTerminated_iff]
  rintro ⟨i, hlast, hi⟩
  have hmem : i ∈ b.exits := List.mem_filter.mpr ⟨List.mem_of_getLast? hlast, hi⟩
  rw [h] at hmem
  cases hmem

/-- There is room for an instruction in the block itself, if nothing leaves it. -/
theorem room_of_graph {label : String} (h : f.graph[n]? = some (label, [])) :
    f.room n = (f, n) := by
  rw [graph, List.getElem?_map, Option.map_eq_some_iff] at h
  obtain ⟨b, hb, hexits⟩ := h
  exact room_of_open hb (isTerminated_of_exits (Prod.mk.inj hexits).2)

/-- Otherwise there may have to be a new block. -/
theorem room_cases (hn : n < f.blocks.length) :
    f.room n = (f, n) ∨ f.room n = (f.append "dead", f.blocks.length) := by
  have hb := List.getElem?_eq_getElem hn
  cases h : f.blocks[n].isTerminated with
  | false => exact Or.inl (room_of_open hb h)
  | true => exact Or.inr (room_of_terminated hb h)

/-- Labels are distinct and were handed out, and control passes to labels that are there. -/
structure Guarded (f : Function) : Prop where
  labels : f.graph.labels.Nodup
  issued : ∀ label ∈ f.graph.labels, label = "entry" ∨ Issued f.nextId label
  targets : ∀ label, f.graph.Targeted label → label ∈ f.graph.labels

theorem guarded_new (name : String) (ret : Ty) (params : List Param) :
    (Function.new name ret params).Guarded where
  labels := by simp [new, graph, Graph.labels]
  issued := by simp [new, graph, Graph.labels]
  targets := by simp [new, graph, Graph.Targeted, Block.exits]

theorem barred_new (name : String) (ret : Ty) (params : List Param) :
    (Function.new name ret params).graph.Barred := by
  intro n b hb hu
  obtain rfl : b = ("entry", []) := by
    simpa [new, graph, Block.exits] using List.mem_of_getElem? hb
  cases hu

/-- The name that is handed out next is no label. -/
theorem Guarded.fresh (h : f.Guarded) (hint : String) : f.freshName hint ∉ f.graph.labels := by
  intro hmem
  rcases h.issued _ hmem with hentry | hissued
  · exact entry_ne_numbered hint f.nextId hentry.symm
  · exact not_issued_numbered hint f.nextId hissued

theorem Guarded.append (h : f.Guarded) (hint : String) : (f.append hint).Guarded where
  labels := by
    rw [graph_append, Graph.labels, List.map_append, List.map_singleton, ← List.concat_eq_append]
    exact List.Nodup.concat (h.fresh hint) h.labels
  issued label hl := by
    rw [graph_append, Graph.labels, List.map_append, List.mem_append, List.map_singleton,
      List.mem_singleton] at hl
    rcases hl with hl | rfl
    · exact (h.issued label hl).imp id (·.mono (Nat.le_succ _))
    · exact Or.inr (issued_numbered hint f.nextId)
  targets label ht := by
    rw [graph_append] at ht ⊢
    rw [Graph.labels, List.map_append]
    exact List.mem_append_left _ (h.targets label (Graph.targeted_append (by simp) ht))

/-- What has the same graph and has handed out no less. -/
theorem Guarded.same {f' : Function} (h : f.Guarded) (hg : f'.graph = f.graph)
    (hn : f.nextId ≤ f'.nextId) : f'.Guarded where
  labels := hg ▸ h.labels
  issued label hl := (h.issued label (hg ▸ hl)).imp id (·.mono hn)
  targets := hg ▸ h.targets

theorem Guarded.leave {f' : Function} (h : f.Guarded) (hg : f'.graph = f.graph.leave n i)
    (hn : f.nextId ≤ f'.nextId) (ht : ∀ t ∈ i.targets, t ∈ f.graph.labels) : f'.Guarded where
  labels := by
    rw [hg, Graph.leave_labels]
    exact h.labels
  issued label hl := by
    rw [hg, Graph.leave_labels] at hl
    exact (h.issued label hl).imp id (·.mono hn)
  targets label hl := by
    rw [hg] at hl ⊢
    rw [Graph.leave_labels]
    exact (Graph.targeted_leave hl).elim (h.targets label) (ht label)

end Function

end ProcLang.Ir
