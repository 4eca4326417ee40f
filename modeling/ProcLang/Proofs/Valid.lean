import Mathlib.Data.List.Nodup
import ProcLang.Proofs.Compiled

/-!
# Compiled modules are valid

What holds of every function of a compiled module, whatever is wrong with the text that it was
compiled from:

* `compile_blocks_end_once`: every block ends with the only instruction in it that passes control
  on, and control passes to blocks that are there, other than the entry;
* `compile_written_before_read`: names are used once, and on every way through a function
  (`Function.Reaches`) a register is written before it is read;
* `compile_well_typed`: every instruction is typed.
-/

namespace ProcLang

open Ir

variable {r : String} {n k : Nat} {b : Block} {i : Instr}

namespace Ir

/-- Block `n` of the function is entered where control passes to the label. -/
def Function.HasTarget (f : Function) (label : String) (n : Nat) : Prop :=
  ∃ b, f.blocks[n]? = some b ∧ b.label = label

/-- The ways through a function: control may come to instruction `k` of block `n` after the
instructions in `passed`, in that order. -/
inductive Function.Reaches (f : Function) : List Instr → Nat → Nat → Prop
  | entry : f.Reaches [] 0 0
  | next {passed : List Instr} {n k : Nat} {b : Block} {i : Instr} : f.Reaches passed n k →
      f.blocks[n]? = some b → b.instrs[k]? = some i → i.isTerminator = false →
      f.Reaches (passed ++ [i]) n (k + 1)
  | jump {passed : List Instr} {n k m : Nat} {b : Block} {i : Instr} {label : String} :
      f.Reaches passed n k → f.blocks[n]? = some b → b.instrs[k]? = some i →
      label ∈ i.targets → f.HasTarget label m → f.Reaches (passed ++ [i]) m 0

theorem Function.Reaches.passed_subset {f : Function} {passed : List Instr}
    (h : f.Reaches passed n k) : passed ⊆ f.instrs := by
  induction h with
  | entry => exact List.nil_subset _
  | next _ hb hi _ ih | jump _ hb hi _ _ ih =>
    refine List.append_subset.mpr ⟨ih, List.cons_subset.mpr ⟨?_, List.nil_subset _⟩⟩
    exact mem_instrs_of_getElem? hb (List.mem_of_getElem? hi)

theorem sublist_flatMap {α β : Type} {g g' : α → List β} (h : ∀ a, (g a).Sublist (g' a)) :
    ∀ l : List α, (l.flatMap g).Sublist (l.flatMap g')
  | [] => List.Sublist.refl _
  | a :: l => (h a).append (sublist_flatMap h l)

theorem inj_of_nodup_filterMap {α β : Type} {g : α → Option β} {r : β} {i j : α} :
    ∀ {l : List α}, (l.filterMap g).Nodup → i ∈ l → j ∈ l → g i = some r → g j = some r → i = j
  | a :: l, hd, hi, hj, hir, hjr => by
    have only : ∀ {x y : α}, x = a → y ∈ l → g x = some r → g y = some r → False := by
      rintro x y rfl hy hx hyr
      rw [List.filterMap_cons_some hx, List.nodup_cons] at hd
      exact hd.1 (List.mem_filterMap.mpr ⟨y, hy, hyr⟩)
    rcases List.mem_cons.mp hi with hia | hi
    · rcases List.mem_cons.mp hj with hja | hj
      · rw [hia, hja]
      · exact (only hia hj hir hjr).elim
    · rcases List.mem_cons.mp hj with hja | hj
      · exact (only hja hi hjr hir).elim
      · refine inj_of_nodup_filterMap (hd.sublist ?_) hi hj hir hjr
        exact (List.sublist_cons_self a l).filterMap g

/-- A block that has ended consists of instructions that do not end it and one that does. -/
theorem Block.Shaped.ends (h : b.Shaped) (hb : b.isTerminated = true) :
    ∃ before last, b.instrs = before ++ [last] ∧ last.isTerminator = true ∧
      ∀ i ∈ before, i.isTerminator = false := by
  obtain ⟨last, hlast, hterm⟩ := isTerminated_iff.mp hb
  have hsplit := List.dropLast_append_getLast? last hlast
  exact ⟨b.instrs.dropLast, last, hsplit.symm, hterm, h⟩

/-- An instruction that passes control on has all the others of its block in front of it. -/
theorem Block.Shaped.length_of_isTerminator (h : b.Shaped) {k : Nat} (hi : b.instrs[k]? = some i)
    (ht : i.isTerminator = true) : b.instrs.length = k + 1 := by
  have hk := (List.getElem?_eq_some_iff.mp hi).1
  by_contra hne
  have hmem : i ∈ b.instrs.dropLast := by
    have hlt : k < b.instrs.length - 1 := by omega
    rw [List.dropLast_eq_take]
    exact List.mem_of_getElem? ((List.getElem?_take_of_lt hlt).trans hi)
  rw [h i hmem] at ht
  cases ht

namespace Function.Sound

variable {env : Interface} {arrays : List Param} {avail : Nat → String → Prop} {f : Function}
  (h : f.Sound env arrays avail)

include h

/-- No two blocks have the same label. -/
theorem target_unique {label : String} {m n : Nat} (hm : f.HasTarget label m)
    (hn : f.HasTarget label n) : m = n := by
  obtain ⟨b, hb, rfl⟩ := hm
  obtain ⟨c, hc, hlabel⟩ := hn
  have apart := List.pairwise_iff_getElem.mp (List.nodup_flatMap.mp h.names).2
  obtain ⟨hm, rfl⟩ := List.getElem?_eq_some_iff.mp hb
  obtain ⟨hn, rfl⟩ := List.getElem?_eq_some_iff.mp hc
  have shared : ∀ {i j : Nat} (hi : i < f.blocks.length) (hj : j < f.blocks.length), i < j →
      f.blocks[i].label ≠ f.blocks[j].label := fun hi hj hij heq =>
    apart _ _ hi hj hij (List.mem_cons_self) (by rw [heq]; exact List.mem_cons_self)
  rcases Nat.lt_trichotomy m n with hlt | heq | hgt
  · exact absurd hlabel.symm (shared hm hn hlt)
  · exact heq
  · exact absurd hlabel (shared hn hm hgt)

/-- Reserved storage is reserved at the start of the entry. -/
theorem alloca_mem_entry {ty : Ty} (hi : .alloca r ty ∈ f.instrs) :
    ∃ b, f.blocks[0]? = some b ∧ .alloca r ty ∈ b.instrs.takeWhile Instr.isAlloca := by
  obtain ⟨b, hb, hi⟩ := mem_instrs.mp hi
  obtain ⟨n, hn⟩ := List.getElem?_of_mem hb
  obtain ⟨hbody, hall⟩ := h.reserved n b hn
  have hnot : .alloca r ty ∉ b.body := fun hmem => absurd (hbody _ hmem) (by simp [Instr.isAlloca])
  have hzero : n = 0 := by
    by_contra hne
    exact hnot (by rw [hall hne]; exact hi)
  subst hzero
  refine ⟨b, hn, ?_⟩
  rw [← List.takeWhile_append_dropWhile (p := Instr.isAlloca) (l := b.instrs)] at hi
  exact (List.mem_append.mp hi).resolve_right hnot

/-! ## Ways through a function -/

/-- What was passed on the way to a place: the instructions in front of it in its block, what writes
the registers that the block relies on, and the whole entry if the block is another one. -/
structure Passed (avail : Nat → String → Prop) (f : Function) (passed : List Instr) (n k : Nat) :
    Prop where
  here : ∀ b, f.blocks[n]? = some b → b.instrs.take k ⊆ passed
  relied : ∀ r, avail n r → ∃ i ∈ passed, i.dest? = some r
  entry : n ≠ 0 → ∀ b, f.blocks[0]? = some b → b.instrs ⊆ passed

/-- **On every way to a place** the instructions are passed that the place relies on. -/
theorem passed_of_reaches {passed : List Instr} (hr : f.Reaches passed n k) :
    Passed avail f passed n k := by
  induction hr with
  | entry => exact ⟨by simp, fun r hr => absurd hr (h.start r), fun hne => absurd rfl hne⟩
  | @next passed n k b i _ hb hi _ ih =>
    refine ⟨fun c hc => ?_, fun r hr => ?_, fun hne c hc => ?_⟩
    · have : c = b := Option.some.inj (hc.symm.trans hb)
      subst this
      rw [List.take_add_one, hi]
      exact List.append_subset.mpr
        ⟨List.subset_append_of_subset_left _ (ih.here c hc),
          List.subset_append_of_subset_right _ (List.Subset.refl _)⟩
    · obtain ⟨j, hj, hd⟩ := ih.relied r hr
      exact ⟨j, List.mem_append_left _ hj, hd⟩
    · exact List.subset_append_of_subset_left _ (ih.entry hne c hc)
  | @jump passed n k m b i label _ hb hi ht hm ih =>
    have hterm : i.isTerminator = true := by
      cases hterm : i.isTerminator with
      | true => rfl
      | false =>
        rw [Instr.targets_of_not_isTerminator hterm] at ht
        cases ht
    -- all instructions of the block that is left were passed
    have hall : b.instrs ⊆ passed ++ [i] := by
      have hlen := (h.shaped b (List.mem_of_getElem? hb)).length_of_isTerminator hi hterm
      rw [← List.take_length (l := b.instrs), hlen, List.take_add_one, hi]
      exact List.append_subset.mpr
        ⟨List.subset_append_of_subset_left _ (ih.here b hb),
          List.subset_append_of_subset_right _ (List.Subset.refl _)⟩
    obtain ⟨m', c, hne, hc, hlabel, hrely⟩ :=
      h.targets n b hb i (List.mem_of_getElem? hi) label ht
    have : m' = m := h.target_unique ⟨c, hc, hlabel⟩ hm
    subst this
    refine ⟨by simp, fun r hr => ?_, fun _ e he => ?_⟩
    · rcases hrely r hr with hrel | hdef
      · obtain ⟨j, hj, hd⟩ := ih.relied r hrel
        exact ⟨j, List.mem_append_left _ hj, hd⟩
      · obtain ⟨j, hj, hd⟩ := List.mem_filterMap.mp hdef
        exact ⟨j, hall hj, hd⟩
    · by_cases hn : n = 0
      · subst hn
        have : e = b := Option.some.inj (he.symm.trans hb)
        subst this
        exact hall
      · exact List.subset_append_of_subset_left _ (ih.entry hn e he)

/-- What an instruction reads is a parameter, or reserved storage, or relied on, or written by an
instruction in front of it. -/
theorem read_cases (hb : f.blocks[n]? = some b) (hi : b.instrs[k]? = some i) (hr : r ∈ i.reads) :
    f.Everywhere r ∨ avail n r ∨ ∃ d ∈ b.instrs.take k, d.dest? = some r := by
  obtain ⟨hk, hik⟩ := List.getElem?_eq_some_iff.mp hi
  have hsplit : b.instrs = b.instrs.take k ++ i :: b.instrs.drop (k + 1) := by
    rw [← hik, List.getElem_cons_drop, List.take_append_drop]
  have hscoped := h.reads n b hb
  rw [hsplit, scoped_append] at hscoped
  rcases hscoped.2.1 r hr with (he | ha) | hd
  · exact Or.inl he
  · exact Or.inr (Or.inl ha)
  · exact Or.inr (Or.inr (List.mem_filterMap.mp hd))

/-- **What an instruction reads** is a parameter, or on every way to the instruction it is written
before. -/
theorem written_before (hb : f.blocks[n]? = some b) (hi : b.instrs[k]? = some i)
    (hr : r ∈ i.reads) : (∃ p ∈ f.params, p.name = r) ∨
      ∀ passed, f.Reaches passed n k → ∃ d ∈ passed, d.dest? = some r := by
  rcases h.read_cases hb hi hr with (hp | ⟨ty, hi'⟩) | ha | ⟨d, hd, hdest⟩
  · exact Or.inl hp
  · refine Or.inr fun passed hreach => ⟨.alloca r ty, ?_, rfl⟩
    have hpassed := h.passed_of_reaches hreach
    obtain ⟨e, he, hmem⟩ := h.alloca_mem_entry hi'
    by_cases hn : n = 0
    · subst hn
      have : e = b := Option.some.inj (he.symm.trans hb)
      subst this
      refine hpassed.here e he ?_
      -- the instruction reads something, so it comes behind all that reserve storage
      have hk : (e.instrs.takeWhile Instr.isAlloca).length ≤ k := by
        by_contra hlt
        have hik : (e.instrs.takeWhile Instr.isAlloca)[k]? = some i := by
          have hsplit := List.takeWhile_append_dropWhile (p := Instr.isAlloca) (l := e.instrs)
          rw [← hsplit, List.getElem?_append_left (Nat.lt_of_not_le hlt)] at hi
          exact hi
        have := List.all_eq_true.mp List.all_takeWhile i (List.mem_of_getElem? hik)
        rw [Instr.reads_of_isAlloca this] at hr
        cases hr
      rw [List.prefix_iff_eq_take.mp (List.takeWhile_prefix Instr.isAlloca)] at hmem
      exact List.take_subset_take_left _ hk hmem
    · exact hpassed.entry hn e he (List.takeWhile_subset _ hmem)
  · exact Or.inr fun passed hreach => (h.passed_of_reaches hreach).relied r ha
  · exact Or.inr fun passed hreach =>
      ⟨d, (h.passed_of_reaches hreach).here b hb hd, hdest⟩

/-- What an instruction reads is a parameter or the result of an instruction. -/
theorem read_defined (hi : i ∈ f.instrs) (hr : r ∈ i.reads) :
    (∃ p ∈ f.params, p.name = r) ∨ ∃ d ∈ f.instrs, d.dest? = some r := by
  obtain ⟨v, hv, hreg⟩ := Instr.mem_reads.mp hr
  have htyped := (h.typed i hi).2 v hv
  rw [Value.Typed, hreg] at htyped
  rcases htyped with hp | ⟨d, hd, hres⟩
  · exact Or.inl ⟨_, hp, rfl⟩
  · exact Or.inr ⟨d, hd, by rw [Instr.dest?, hres]; rfl⟩

/-- No two instructions write the same register. -/
theorem dest_unique {i j : Instr} (hi : i ∈ f.instrs) (hj : j ∈ f.instrs) (hir : i.dest? = some r)
    (hjr : j.dest? = some r) : i = j := by
  have hsub : (f.instrs.filterMap Instr.dest?).Sublist f.names := by
    rw [instrs, List.filterMap_flatMap]
    exact sublist_flatMap (fun b => List.sublist_cons_self b.label b.defs) f.blocks
  exact inj_of_nodup_filterMap (h.names.sublist hsub) hi hj hir hjr

/-- An operand that names a result has the type of that result. -/
theorem operand_ty {i d : Instr} {v : Value} {ty : Ty} (hi : i ∈ f.instrs) (hv : v ∈ i.operands)
    (hr : v.operand = .register r) (hd : d ∈ f.instrs) (hres : d.result? = some ⟨r, ty⟩) :
    v.ty = ty := by
  have hdest : d.dest? = some r := by rw [Instr.dest?, hres]; rfl
  have htyped := (h.typed i hi).2 v hv
  rw [Value.Typed, hr] at htyped
  rcases htyped with hp | ⟨e, he, hres'⟩
  · -- a parameter does not have the name of a result
    exact absurd (dest_mem_names hd hdest) (h.args_not_mem_names hp)
  · have hdest' : e.dest? = some r := by rw [Instr.dest?, hres']; rfl
    rw [h.dest_unique he hd hdest' hdest, hres] at hres'
    cases hres'
    rfl

end Function.Sound

end Ir

/-! ## Compiled modules -/

/-- **Every block ends once, at its end.** In the module of every text, whatever is wrong with it,
a block consists of instructions that do not pass control on and a last one that does, and control
passes to exactly one block of the function, which is not its entry. -/
theorem compile_blocks_end_once (source : String) (options : Options) :
    compile source options = .error .overflow ∨
      ∃ c, compile source options = .ok c ∧ ∀ f ∈ c.module.functions,
        (∀ b ∈ f.blocks, ∃ before last, b.instrs = before ++ [last] ∧ last.isTerminator = true ∧
          ∀ i ∈ before, i.isTerminator = false) ∧
        ∀ i ∈ f.instrs, ∀ label ∈ i.targets,
          ∃ n, n ≠ 0 ∧ ∀ m, f.HasTarget label m ↔ m = n := by
  rcases compile_finished source options with hcut | ⟨c, hc, hfunctions⟩
  · exact Or.inl hcut
  · refine Or.inr ⟨c, hc, fun f hf => ?_⟩
    obtain ⟨⟨arrays, avail, hs, hended, -⟩, -⟩ := hfunctions f hf
    refine ⟨fun b hb => (hs.shaped b hb).ends (hended b hb), fun i hi label ht => ?_⟩
    obtain ⟨b, hb, hib⟩ := Function.mem_instrs.mp hi
    obtain ⟨n, hn⟩ := List.getElem?_of_mem hb
    obtain ⟨m, d, hm, hd, hlabel, -⟩ := hs.targets n b hn i hib label ht
    refine ⟨m, hm, fun m' => ⟨fun h => hs.target_unique h ⟨d, hd, hlabel⟩, ?_⟩⟩
    rintro rfl
    exact ⟨d, hd, hlabel⟩

/-- **Names are used once, and registers are written before they are read.** In the module of every
text, whatever is wrong with it, no two blocks or results of a function have the same name, and none
has the name of a parameter. What an instruction reads is a parameter, or the result of an
instruction that is passed on every way from the entry to the place where it is read. -/
theorem compile_written_before_read (source : String) (options : Options) :
    compile source options = .error .overflow ∨
      ∃ c, compile source options = .ok c ∧ ∀ f ∈ c.module.functions,
        f.names.Nodup ∧ (∀ p ∈ f.params, p.name ∉ f.names) ∧
        (c.hasErrors = false → (f.params.map Param.name).Nodup) ∧
        ∀ (n k : Nat) (b : Block) (i : Instr), f.blocks[n]? = some b → b.instrs[k]? = some i →
          ∀ r ∈ i.reads, (∃ p ∈ f.params, p.name = r) ∨
            ∃ d ∈ f.instrs, d.dest? = some r ∧
              ∀ passed, f.Reaches passed n k → d ∈ passed := by
  rcases compile_finished source options with hcut | ⟨c, hc, hfunctions⟩
  · exact Or.inl hcut
  · refine Or.inr ⟨c, hc, fun f hf => ?_⟩
    obtain ⟨⟨arrays, avail, hs, -, -⟩, hparams⟩ := hfunctions f hf
    refine ⟨hs.names, fun p hp => hs.args_not_mem_names hp, hparams, ?_⟩
    intro n k b i hb hi r hr
    have hmem := Function.mem_instrs_of_getElem? hb (List.mem_of_getElem? hi)
    rcases hs.read_defined hmem hr with hp | ⟨d, hd, hdest⟩
    · exact Or.inl hp
    · rcases hs.written_before hb hi hr with hp | hway
      · exact Or.inl hp
      · refine Or.inr ⟨d, hd, hdest, fun passed hreach => ?_⟩
        obtain ⟨d', hd', hdest'⟩ := hway passed hreach
        rwa [hs.dest_unique hd (hreach.passed_subset hd') hdest hdest']

/-- **Every instruction is typed.** In the module of every text, whatever is wrong with it, the
instructions of a function keep the rules of `Instr.Typed`, where the arrays that the function was
passed are those of the heading that declared it. An operand that names a result has the type of
that result. -/
theorem compile_well_typed (source : String) (options : Options) :
    compile source options = .error .overflow ∨
      ∃ c, compile source options = .ok c ∧ ∀ f ∈ c.module.functions, ∃ arrays,
        sourceHeadings source options f.name f.ret f.params arrays ∧
        ∀ i ∈ f.instrs, i.Typed c.module.interface f arrays ∧
          ∀ v ∈ i.operands, v.Typed f ∧ ∀ r, v.operand = .register r →
            ∀ d ∈ f.instrs, ∀ ty, d.result? = some ⟨r, ty⟩ → v.ty = ty := by
  rcases compile_finished source options with hcut | ⟨c, hc, hfunctions⟩
  · exact Or.inl hcut
  · refine Or.inr ⟨c, hc, fun f hf => ?_⟩
    obtain ⟨⟨arrays, avail, hs, -, hheading⟩, -⟩ := hfunctions f hf
    refine ⟨arrays, hheading, fun i hi => ⟨(hs.typed i hi).1, fun v hv => ?_⟩⟩
    exact ⟨(hs.typed i hi).2 v hv, fun r hr d hd ty hres => hs.operand_ty hi hv hr hd hres⟩

end ProcLang
