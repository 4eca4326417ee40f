import Mathlib.Algebra.GroupWithZero.Nat
import ProcLang.Proofs.FunctionSound
import ProcLang.Proofs.Stage.Build

/-!
# Numbers handed out

Every name that lowering makes up has a number, drawn from a counter of the function or from that of
the symbol table (`Lowering.drawn`).

An instruction behind the end of a block draws a number for a block of its own. That number is
counted already when the block before it ends (`Builder.drawn`), so that each instruction has a
fixed price.
-/

namespace ProcLang

open Ir

/-! ## The measure -/

namespace Ir

/-- Whether block `n` has ended. -/
def Function.hasEnded (f : Function) (n : Nat) : Bool :=
  f.blocks[n]?.any Block.isTerminated

/-- Whether the block at the cursor has ended. -/
def Builder.hasEnded (b : Builder) : Bool :=
  b.cursor.any fun c => b.module.functions[c.function]?.any (·.hasEnded c.block)

/-- The numbers that the functions have drawn, and the one that the next instruction will draw if
the block at the cursor has ended. -/
def Builder.drawn (b : Builder) : Nat :=
  (b.module.functions.map Function.nextId).sum + b.hasEnded.toNat

end Ir

/-- The numbers that were drawn so far. -/
def Lowering.drawn (s : Lowering) : Nat :=
  s.builder.drawn + s.symbols.nextUnique

/-! ## Changes of a function -/

namespace Ir

theorem sum_map_set {α : Type} (g : α → Nat) : ∀ {l : List α} {i : Nat} {a : α} (b : α),
    l[i]? = some a → ((l.set i b).map g).sum + g a = (l.map g).sum + g b
  | [], _, _, _, h => by simp at h
  | c :: l, 0, a, b, h => by
    obtain rfl : c = a := by simpa using h
    simp only [List.set_cons_zero, List.map_cons, List.sum_cons]
    omega
  | c :: l, i + 1, a, b, h => by
    have ih := sum_map_set g b (show l[i]? = some a by simpa using h)
    simp only [List.set_cons_succ, List.map_cons, List.sum_cons]
    omega

/-- Changing the function at the cursor changes the measure by what it changes in that function. -/
theorem Builder.drawn_put {b : Builder} {index block block' n : Nat} {f f' : Function}
    (hc : b.cursor = some ⟨index, block⟩) (hf : b.module.functions[index]? = some f)
    (h : f'.nextId + (f'.hasEnded block').toNat ≤ f.nextId + (f.hasEnded block).toNat + n) :
    (b.put index f' block').drawn ≤ b.drawn + n := by
  have hbefore : b.hasEnded = f.hasEnded block := by
    rw [hasEnded, hc, Option.any_some, hf, Option.any_some]
  have hafter : (b.put index f' block').hasEnded = f'.hasEnded block' := by
    have hput := Build.put_function hf f' block'
    change (b.put index f' block').module.functions[index]?.any (·.hasEnded block') = _
    rw [hput, Option.any_some]
  have hsum := sum_map_set Function.nextId f' hf
  rw [drawn, drawn, hbefore, hafter]
  change ((b.module.functions.set index f').map Function.nextId).sum + _ ≤ _
  omega

/-- The block that the cursor is moved to may have ended. -/
theorem Builder.drawn_move (b : Builder) (cursor : Option Cursor) :
    ({ b with cursor } : Builder).drawn ≤ b.drawn + 1 := by
  have hended := Bool.toNat_le ({ b with cursor } : Builder).hasEnded
  unfold drawn
  dsimp only
  omega

/-- A new function has drawn no number, and its block has not ended. -/
theorem Builder.drawn_define (b : Builder) (name : String) (ret : Ty) (params : List Param) :
    ({ b with module := { b.module with
        functions := b.module.functions ++ [.new name ret params] } } :
      Builder).drawn = b.drawn := by
  have hnew : ∀ n, (Function.new name ret params).hasEnded n = false := by
    intro n
    cases n <;> rfl
  have hended : ∀ c : Cursor, ((b.module.functions ++ [.new name ret params])[c.function]?.any
      (·.hasEnded c.block)) = (b.module.functions[c.function]?.any (·.hasEnded c.block)) := by
    intro c
    by_cases hlt : c.function < b.module.functions.length
    · rw [List.getElem?_append_left hlt]
    · rw [List.getElem?_append_right (Nat.le_of_not_lt hlt),
        List.getElem?_eq_none (Nat.le_of_not_lt hlt)]
      cases c.function - b.module.functions.length with
      | zero => exact hnew c.block
      | succ => rfl
  simp only [drawn, hasEnded, hended, List.map_append, List.sum_append]
  rfl

namespace Function

variable (f : Function) (n : Nat)

theorem hasEnded_tick : f.tick.hasEnded n = f.hasEnded n := rfl

/-- A new block has not ended. -/
theorem hasEnded_append (hint : String) : (f.append hint).hasEnded n = f.hasEnded n := by
  rw [hasEnded, hasEnded, append, pushBlock_blocks, tick_blocks]
  by_cases hn : n < f.blocks.length
  · rw [List.getElem?_append_left hn]
  · rw [List.getElem?_append_right (Nat.le_of_not_lt hn),
      List.getElem?_eq_none (Nat.le_of_not_lt hn)]
    cases n - f.blocks.length <;> rfl

theorem hasEnded_push {n : Nat} (hn : n < f.blocks.length) (i : Instr) :
    (f.modifyBlock n (·.push i)).hasEnded n = i.isTerminator := by
  rw [hasEnded, modifyBlock_getElem?_self _ (List.getElem?_eq_getElem hn), Option.any_some,
    Block.isTerminated_push]

theorem hasEnded_reserve {i : Instr} (hi : i.isAlloca = true) :
    (f.modifyBlock 0 (·.pushAlloca i)).hasEnded n = f.hasEnded n := by
  rw [hasEnded, hasEnded, modifyBlock, List.getElem?_modify]
  cases f.blocks[n]? with
  | none => rfl
  | some b => by_cases hn : 0 = n <;> simp [hn, Block.isTerminated_pushAlloca hi b]

/-- An instruction draws a number for a block of its own only where this was counted before. -/
theorem drawn_emit {n : Nat} (hn : n < f.blocks.length) (i : Instr) :
    let g := (f.room n).1.modifyBlock (f.room n).2 (·.push i)
    g.nextId + (g.hasEnded (f.room n).2).toNat =
      f.nextId + (f.hasEnded n).toNat + i.isTerminator.toNat := by
  have hroom : f.room n = if f.hasEnded n then (f.append "dead", f.blocks.length) else (f, n) :=
    rfl
  cases hended : f.hasEnded n with
  | false =>
    rw [hended] at hroom
    rw [hroom]
    dsimp only
    rw [if_neg Bool.false_ne_true, hasEnded_push f hn]
    rfl
  | true =>
    rw [hended] at hroom
    have hlast : f.blocks.length < (f.append "dead").blocks.length := by
      rw [append_length]
      exact Nat.lt_succ_self _
    rw [hroom]
    dsimp only
    rw [if_pos rfl, hasEnded_push _ hlast]
    rfl

end Function

end Ir

/-- Another symbol table with the same counter makes no difference. -/
theorem Lowering.drawn_symbols {s : Lowering} {symbols : SymbolTable}
    (h : symbols.nextUnique = s.symbols.nextUnique) :
    ({ s with symbols } : Lowering).drawn = s.drawn := by
  simp only [drawn, h]

end ProcLang
