import ProcLang.Ir.Builder

/-!
# Views of functions

What the instructions of a function read, write and pass control to, and how these views change when
the builder adds a block or an instruction:

* `Instr.result?`, `Instr.operands`, `Instr.targets`: the register an instruction writes, with its
  type, the values it reads and the labels it names;
* `Function.instrs`, `Function.names`: all instructions of a function, and all the names that its
  blocks and results have;
* `Function.modifyBlock_instrs_perm`, `Function.modifyBlock_names_perm`: an instruction that is
  added to a block, wherever in it, adds itself and its name, and nothing else.
-/

namespace ProcLang.Ir

namespace Value

/-- The register that a value is kept in, if it is kept in one. -/
def register? (v : Value) : Option String :=
  match v.operand with
  | .register name => some name
  | _ => none

end Value

variable {f : Function} {i : Instr} {b : Block} {g : Block → Block} {n : Nat}

namespace Instr

/-- The register that an instruction writes, with its type. -/
def result? : Instr → Option Param
  | alloca dest _ => some ⟨dest, .ptr⟩
  | load dest ty _ => some ⟨dest, ty⟩
  | binary dest _ lhs _ => some ⟨dest, lhs.ty⟩
  | icmp dest _ _ _ | fcmp dest _ _ _ => some ⟨dest, .i1⟩
  | fneg dest _ | sitofp dest _ => some ⟨dest, .float⟩
  | gep dest _ _ _ => some ⟨dest, .ptr⟩
  | call dest ty _ _ => some ⟨dest, ty⟩
  | store _ _ | br _ | condBr _ _ _ | ret _ | unreachable => none

/-- The name of the register that an instruction writes. -/
def dest? (i : Instr) : Option String :=
  i.result?.map Param.name

/-- The values that an instruction reads. -/
def operands : Instr → List Value
  | alloca _ _ | br _ | unreachable => []
  | load _ _ ptr => [ptr]
  | store value ptr => [value, ptr]
  | binary _ _ lhs rhs | icmp _ _ lhs rhs | fcmp _ _ lhs rhs => [lhs, rhs]
  | fneg _ operand | sitofp _ operand => [operand]
  | gep _ _ ptr index => [ptr, index]
  | call _ _ _ args => args
  | condBr cond _ _ => [cond]
  | ret value => [value]

/-- The registers that an instruction reads. -/
def reads (i : Instr) : List String :=
  i.operands.filterMap Value.register?

/-- The labels of the blocks that an instruction may pass control to. -/
def targets : Instr → List String
  | br target => [target]
  | condBr _ yes no => [yes, no]
  | _ => []

theorem dest?_of_isTerminator (h : i.isTerminator = true) : i.dest? = none := by
  cases i <;> simp_all [isTerminator, dest?, result?]

theorem targets_of_not_isTerminator (h : i.isTerminator = false) : i.targets = [] := by
  cases i <;> simp_all [isTerminator, targets]

theorem reads_of_isAlloca (h : i.isAlloca = true) : i.reads = [] := by
  cases i <;> simp_all [isAlloca, reads, operands]

theorem mem_reads {r : String} : r ∈ i.reads ↔ ∃ v ∈ i.operands, v.operand = .register r := by
  unfold reads
  rw [List.mem_filterMap]
  constructor
  · rintro ⟨v, hv, hr⟩
    refine ⟨v, hv, ?_⟩
    unfold Value.register? at hr
    split at hr
    · rename_i h
      cases hr
      exact h
    · cases hr
  · rintro ⟨v, hv, hr⟩
    exact ⟨v, hv, by rw [Value.register?, hr]⟩

end Instr

namespace Block

/-- The registers that the instructions of a block write. -/
def defs (b : Block) : List String :=
  b.instrs.filterMap Instr.dest?

/-- The label of a block and the registers that it writes. -/
def names (b : Block) : List String :=
  b.label :: b.defs

/-- Nothing follows an instruction that passes control on. -/
def Shaped (b : Block) : Prop :=
  ∀ i ∈ b.instrs.dropLast, i.isTerminator = false

@[simp]
theorem push_label (i : Instr) (b : Block) : (b.push i).label = b.label := rfl

@[simp]
theorem push_instrs (i : Instr) (b : Block) : (b.push i).instrs = b.instrs ++ [i] := rfl

@[simp]
theorem pushAlloca_label (i : Instr) (b : Block) : (b.pushAlloca i).label = b.label := rfl

theorem pushAlloca_instrs (i : Instr) (b : Block) :
    (b.pushAlloca i).instrs =
      b.instrs.takeWhile Instr.isAlloca ++ i :: b.instrs.dropWhile Instr.isAlloca := rfl

theorem push_instrs_perm (i : Instr) (b : Block) : (b.push i).instrs.Perm (i :: b.instrs) :=
  List.perm_append_singleton i b.instrs

theorem pushAlloca_instrs_perm (i : Instr) (b : Block) :
    (b.pushAlloca i).instrs.Perm (i :: b.instrs) := by
  rw [pushAlloca_instrs]
  refine List.perm_middle.trans ?_
  rw [List.takeWhile_append_dropWhile]

theorem isTerminated_iff :
    b.isTerminated = true ↔ ∃ i, b.instrs.getLast? = some i ∧ i.isTerminator = true := by
  unfold isTerminated terminator?
  cases h : b.instrs.getLast? with
  | none => simp
  | some i => cases hi : i.isTerminator <;> simp [Option.filter, hi]

theorem isTerminated_push (i : Instr) (b : Block) : (b.push i).isTerminated = i.isTerminator := by
  unfold isTerminated terminator?
  rw [push_instrs, List.getLast?_append]
  cases hi : i.isTerminator <;> simp [Option.filter, hi]

/-- A block that has not ended holds no instruction that ends a block. -/
theorem Shaped.not_isTerminator (h : b.Shaped) (hb : b.isTerminated = false) (hi : i ∈ b.instrs) :
    i.isTerminator = false := by
  rcases List.eq_nil_or_concat b.instrs with hnil | ⟨init, last, hlast⟩
  · rw [hnil] at hi
    cases hi
  · rw [List.concat_eq_append] at hlast
    rw [hlast, List.mem_append, List.mem_singleton] at hi
    rcases hi with hi | rfl
    · exact h i (by rw [hlast, List.dropLast_concat]; exact hi)
    · cases hterm : i.isTerminator with
      | false => rfl
      | true =>
        have : b.isTerminated = true := isTerminated_iff.mpr ⟨i, by rw [hlast]; simp, hterm⟩
        rw [hb] at this
        cases this

theorem Shaped.push (h : b.Shaped) (hb : b.isTerminated = false) (i : Instr) :
    (b.push i).Shaped := by
  intro j hj
  rw [push_instrs, List.dropLast_concat] at hj
  exact h.not_isTerminator hb hj

end Block

namespace Function

/-- All instructions of a function. -/
def instrs (f : Function) : List Instr :=
  f.blocks.flatMap Block.instrs

/-- The names of all blocks and results of a function. -/
def names (f : Function) : List String :=
  f.blocks.flatMap Block.names

theorem mem_instrs : i ∈ f.instrs ↔ ∃ b ∈ f.blocks, i ∈ b.instrs := List.mem_flatMap

theorem dest_mem_names {r : String} (hi : i ∈ f.instrs) (hr : i.dest? = some r) : r ∈ f.names := by
  obtain ⟨b, hb, hib⟩ := mem_instrs.mp hi
  exact List.mem_flatMap.mpr
    ⟨b, hb, List.mem_cons_of_mem _ (List.mem_filterMap.mpr ⟨i, hib, hr⟩)⟩

theorem mem_instrs_of_getElem? (hb : f.blocks[n]? = some b) (hi : i ∈ b.instrs) : i ∈ f.instrs :=
  mem_instrs.mpr ⟨b, List.mem_of_getElem? hb, hi⟩

/-! ## Adding a block -/

@[simp]
theorem pushBlock_blocks (b : Block) (f : Function) : (f.pushBlock b).blocks = f.blocks ++ [b] :=
  rfl

@[simp]
theorem tick_blocks (f : Function) : f.tick.blocks = f.blocks := rfl

theorem pushBlock_instrs (label : String) (f : Function) :
    (f.pushBlock ⟨label, []⟩).instrs = f.instrs := by
  simp [instrs]

theorem pushBlock_names (label : String) (f : Function) :
    (f.pushBlock ⟨label, []⟩).names = f.names ++ [label] := by
  simp [names, Block.names, Block.defs]

theorem getElem?_pushBlock (c : Block) (h : f.blocks[n]? = some b) :
    (f.pushBlock c).blocks[n]? = some b := by
  rw [pushBlock_blocks, List.getElem?_append_left (List.getElem?_eq_some_iff.mp h).1]
  exact h

theorem pushBlock_getElem? {b c : Block} (h : (f.pushBlock c).blocks[n]? = some b) :
    f.blocks[n]? = some b ∨ (n = f.blocks.length ∧ b = c) := by
  rw [pushBlock_blocks, List.getElem?_append] at h
  by_cases hn : n < f.blocks.length
  · exact Or.inl (by simpa [hn] using h)
  · rw [if_neg hn] at h
    obtain ⟨hlt, hb⟩ := List.getElem?_eq_some_iff.mp h
    simp only [List.length_singleton] at hlt
    exact Or.inr ⟨by omega, by simpa using hb.symm⟩

/-! ## Changing a block -/

@[simp]
theorem modifyBlock_blocks_length (n : Nat) (g : Block → Block) (f : Function) :
    (f.modifyBlock n g).blocks.length = f.blocks.length :=
  List.length_modify g f.blocks n

/-- The blocks of a function in which one block was changed. -/
theorem modifyBlock_getElem? {n m : Nat} (h : (f.modifyBlock n g).blocks[m]? = some b) :
    (m = n ∧ ∃ b0, f.blocks[n]? = some b0 ∧ b = g b0) ∨ (m ≠ n ∧ f.blocks[m]? = some b) := by
  unfold modifyBlock at h
  rw [List.getElem?_modify] at h
  by_cases hmn : n = m
  · subst hmn
    cases hb : f.blocks[n]? with
    | none => simp [hb] at h
    | some b0 =>
      simp [hb] at h
      exact Or.inl ⟨rfl, b0, rfl, h.symm⟩
  · refine Or.inr ⟨fun e => hmn e.symm, ?_⟩
    cases hb : f.blocks[m]? with
    | none => simp [hb] at h
    | some b0 => simpa [hb, hmn] using h

theorem modifyBlock_getElem?_self (g : Block → Block) (h : f.blocks[n]? = some b) :
    (f.modifyBlock n g).blocks[n]? = some (g b) := by
  simp [modifyBlock, h]

theorem modifyBlock_getElem?_ne {n m : Nat} (g : Block → Block) (h : m ≠ n) :
    (f.modifyBlock n g).blocks[m]? = f.blocks[m]? := by
  have hne : ¬ n = m := fun e => h e.symm
  simp [modifyBlock, hne]

/-- What is gathered from the blocks of a list grows by what one block gains. -/
theorem modify_flatMap_perm {α : Type} {view : Block → List α} (gain : List α) :
    ∀ (blocks : List Block) {n : Nat} {b : Block}, blocks[n]? = some b →
      (view (g b)).Perm (gain ++ view b) →
      ((blocks.modify n g).flatMap view).Perm (gain ++ blocks.flatMap view)
  | [], n, _, h, _ => by simp at h
  | c :: blocks, 0, b, h, hview => by
    obtain rfl : c = b := by simpa using h
    rw [List.modify_zero_cons, List.flatMap_cons, List.flatMap_cons, ← List.append_assoc]
    exact hview.append_right _
  | c :: blocks, n + 1, b, h, hview => by
    have ih := modify_flatMap_perm gain blocks (n := n) (by simpa using h) hview
    rw [List.modify_succ_cons, List.flatMap_cons, List.flatMap_cons]
    refine (ih.append_left _).trans ?_
    rw [← List.append_assoc, ← List.append_assoc]
    exact List.perm_append_comm.append_right _

theorem modifyBlock_instrs_perm (hb : f.blocks[n]? = some b)
    (hg : (g b).instrs.Perm (i :: b.instrs)) : (f.modifyBlock n g).instrs.Perm (i :: f.instrs) :=
  modify_flatMap_perm [i] f.blocks hb hg

theorem modifyBlock_names_perm (hb : f.blocks[n]? = some b) (hl : (g b).label = b.label)
    (hg : (g b).instrs.Perm (i :: b.instrs)) :
    (f.modifyBlock n g).names.Perm (i.dest?.toList ++ f.names) := by
  refine modify_flatMap_perm i.dest?.toList f.blocks hb ?_
  have hdefs : (g b).defs.Perm (i.dest?.toList ++ b.defs) := by
    refine (hg.filterMap Instr.dest?).trans ?_
    rw [List.filterMap_cons]
    cases i.dest? <;> exact List.Perm.refl _
  unfold Block.names
  rw [hl]
  exact (hdefs.cons _).trans List.perm_middle.symm

end Function

end ProcLang.Ir
