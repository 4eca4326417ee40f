import Mathlib.Logic.Relation
import ProcLang.Proofs.Numbers

/-!
# Lowering in small steps

Lowering changes its state in a few ways only. `Lowering.Plain` lists the changes that expressions,
assignments and declarations of variables make: none of them passes control on, and none leaves the
function that the cursor is in. `Lowering.Step` adds the changes that statements and procedures
make.

* `expr_walks`, `assign_walks`, `declareVariable_walks`: plain steps are enough for them;
* `stmt_walks`: every statement is lowered by steps.

What is to hold of every state of lowering has to be shown of these steps only. They know where
names in the module come from: a text declares them, or they are handed out. And they know where a
name can turn out to be taken: when it was just handed out, or when a procedure is declared.

How many numbers are drawn on the way is bounded by the size of the text: a statement draws at most
two for each of its tokens.
-/

namespace ProcLang

open Ir Naming Relation

namespace Ir

/-- A call was made for a call in the text, or it compares strings by the routine for that, whose
name the module has. The names of the results tell the two apart. -/
def Instr.Linked (m : Module) : Instr → Prop
  | .call dest ty callee _ =>
    (∃ n, dest = numbered "call" n) ∨
      (∃ n, dest = numbered "streq" n) ∧ callee = Routine.stringEquals.name ∧ ty = .i1 ∧
        (callee ∈ m.functions.map Function.name ∨ callee ∈ m.declarations.map Declaration.name)
  | _ => True

/-- What can happen to a function whose block `n` is being filled, and which block is filled then.
-/
inductive Function.Gains (allowed : Instr → Prop) (f : Function) (n : Nat) :
    Function → Nat → Prop
  | tick : Gains allowed f n f.tick n
  | reserve (dest : String) (ty : Ty) :
    Gains allowed f n (f.modifyBlock 0 (·.pushAlloca (.alloca dest ty))) n
  | emit {i : Instr} (block : n < f.blocks.length) (ok : allowed i) :
    Gains allowed f n ((f.room n).1.modifyBlock (f.room n).2 (·.push i)) (f.room n).2

end Ir

/-- The cause is another one than that a name is taken. -/
def LowerCause.Free : LowerCause → Prop
  | .nameTaken _ => False
  | _ => True

namespace Lowering

/-- The module under construction. -/
abbrev module (s : Lowering) : Module := s.builder.module

/-- The state with another module. -/
def withModule (s : Lowering) (m : Module) : Lowering :=
  { s with builder := { s.builder with module := m } }

/-- The changes that pass no control on and stay in the function at the cursor. Names of global data
are handed out, or they are among those that may be declared. -/
inductive Plain (declared : String → Prop) : Lowering → Lowering → Prop
  | warn (s : Lowering) (warnings : List Diagnostic) : Plain declared s { s with warnings }
  | report {s : Lowering} {new : List LowerError} (free : ∀ e ∈ new, e.cause.Free) :
    Plain declared s { s with errors := s.errors ++ new }
  /-- A name is handed out that is taken. -/
  | clash {s : Lowering} {hint : String}
    (taken : s.module.hasSymbol (s.symbols.uniqueName hint) = true) (line : Nat) :
    Plain declared s { s with
      symbols := s.symbols.tick
      errors := s.errors ++ [⟨line, .nameTaken ⟨s.symbols.uniqueName hint⟩⟩] }
  | tick (s : Lowering) : Plain declared s { s with symbols := s.symbols.tick }
  | rebind {s : Lowering} {symbol : Symbol} {symbols : SymbolTable}
    (updated : s.symbols.update symbol = .ok symbols) : Plain declared s { s with symbols }
  | declare {s : Lowering} {symbol : Symbol} {isGlobal : Bool} {symbols : SymbolTable}
    (added : s.symbols.add symbol isGlobal = .ok symbols) : Plain declared s { s with symbols }
  | global {s : Lowering} {g : Global} (new : s.module.hasSymbol g.name = false)
    (name : Issued s.symbols.nextUnique g.name ∨
      declared g.name ∧ s.symbols.containsGlobal g.name = false) :
    Plain declared s (s.withModule { s.module with globals := s.module.globals ++ [g] })
  | routine {s : Lowering} {r : Routine} (known : r ∈ Routine.callable ++ [Routine.stringEquals])
    (undefined : (s.module.function? r.name).isSome = false)
    (new : (s.module.declaration? r.name).isSome = false) :
    Plain declared s (s.withModule { s.module with
      declarations := s.module.declarations ++ [r.declaration] })
  | code {s : Lowering} {index block block' : Nat} {f f' : Function}
    (cursor : s.builder.cursor = some ⟨index, block⟩)
    (function : s.module.functions[index]? = some f)
    (gains : f.Gains (fun i => i.isTerminator = false ∧ i.Linked s.module) block f' block') :
    Plain declared s { s with builder := s.builder.put index f' block' }

/-- The changes that lowering makes. Functions are named after procedures that may be declared. -/
inductive Step (declared : String → Prop) : Lowering → Lowering → Prop
  | plain {s s' : Lowering} (h : Plain declared s s') : Step declared s s'
  | terminator {s : Lowering} {index block block' : Nat} {f f' : Function}
    (cursor : s.builder.cursor = some ⟨index, block⟩)
    (function : s.module.functions[index]? = some f)
    (gains : f.Gains (fun i => i.isTerminator = true) block f' block') :
    Step declared s { s with builder := s.builder.put index f' block' }
  | append {s : Lowering} {index block : Nat} {f : Function} (hint : String)
    (cursor : s.builder.cursor = some ⟨index, block⟩)
    (function : s.module.functions[index]? = some f) :
    Step declared s { s with builder := s.builder.put index (f.append hint) block }
  | move (s : Lowering) (cursor : Option Ir.Cursor) :
    Step declared s { s with builder := { s.builder with cursor } }
  | scopes (s : Lowering) (locals : List Scope) (frames : List Frame) :
    Step declared s { s with symbols := { s.symbols with locals }, frames }
  | define {s : Lowering} {name : String} (known : declared name)
    (new : s.module.hasSymbol (s.symbols.qualifiedName name) = false) (ret : Ir.Ty)
    (params : List Param) :
    Step declared s (s.withModule { s.module with
      functions := s.module.functions ++ [.new (s.symbols.qualifiedName name) ret params] })
  /-- A procedure is declared whose name is taken. -/
  | refuse {s : Lowering} {name : String} (known : declared name)
    (taken : s.module.hasSymbol (s.symbols.qualifiedName name) = true) (line : Nat) :
    Step declared s { s with
      errors := s.errors ++ [⟨line, .nameTaken ⟨s.symbols.qualifiedName name⟩⟩] }

variable {declared : String → Prop} {s s' : Lowering}

/-- Steps do not change the name of the module. -/
theorem Step.name (h : Step declared s s') : s'.module.name = s.module.name := by
  cases h with
  | plain h => cases h <;> rfl
  | _ => rfl

theorem steps_name (steps : ReflTransGen (Step declared) s s') :
    s'.module.name = s.module.name := by
  induction steps with
  | refl => rfl
  | tail _ step ih => exact step.name.trans ih

/-- More names may be declared. -/
theorem Plain.mono {more : String → Prop} (hmore : ∀ {name}, declared name → more name)
    (h : Plain declared s s') : Plain more s s' := by
  cases h with
  | warn warnings => exact .warn s warnings
  | report free => exact .report free
  | clash taken line => exact .clash taken line
  | tick => exact .tick s
  | rebind updated => exact .rebind updated
  | declare added => exact .declare added
  | global new name => exact .global new (name.imp id (And.imp_left hmore))
  | routine known undefined new => exact .routine known undefined new
  | code cursor function gains => exact .code cursor function gains

theorem Step.mono {more : String → Prop} (hmore : ∀ {name}, declared name → more name)
    (h : Step declared s s') : Step more s s' := by
  cases h with
  | plain step => exact .plain (step.mono hmore)
  | terminator cursor function gains => exact .terminator cursor function gains
  | append hint cursor function => exact .append hint cursor function
  | move cursor => exact .move s cursor
  | scopes locals frames => exact .scopes s locals frames
  | define known new ret params => exact .define (hmore known) new ret params
  | refuse known taken line => exact .refuse (hmore known) taken line

theorem Plain.errors (h : Plain declared s s') : s.errors <+: s'.errors := by
  cases h with
  | report | clash => exact List.prefix_append _ _
  | _ => exact List.prefix_rfl

theorem Step.errors (h : Step declared s s') : s.errors <+: s'.errors := by
  cases h with
  | plain h => exact h.errors
  | refuse => exact List.prefix_append _ _
  | _ => exact List.prefix_rfl

/-- Errors are never taken back. -/
theorem errors_of_steps (h : ReflTransGen (Step declared) s s') : s.errors <+: s'.errors := by
  induction h with
  | refl => exact List.prefix_rfl
  | tail _ step ih => exact ih.trans step.errors

theorem errors_of_plain (h : ReflTransGen (Plain declared) s s') : s.errors <+: s'.errors :=
  errors_of_steps (ReflTransGen.mono (fun _ _ => .plain) _ _ h)

end Lowering

/-! ## Runs -/

open Lowering (Plain)

/-- Every run from the state is made of steps of a kind. -/
def Goes {α : Type} (step : Lowering → Lowering → Prop) (s : Lowering) (x : Lower α) : Prop :=
  ∀ a s', x s = .ok (a, s') → ReflTransGen step s s'

/-- Every run from the state draws at most `n` numbers. -/
def Draws {α : Type} (n : Nat) (s : Lowering) (x : Lower α) : Prop :=
  ∀ a s', x s = .ok (a, s') → s'.drawn ≤ s.drawn + n

/-- Every run from the state is made of steps of a kind, and draws at most `n` numbers. -/
structure Walks {α : Type} (step : Lowering → Lowering → Prop) (n : Nat) (s : Lowering)
    (x : Lower α) : Prop where
  goes : Goes step s x
  draws : Draws n s x

section Walks

variable {α β : Type} {step : Lowering → Lowering → Prop} {m n : Nat} {s : Lowering} {x : Lower α}

theorem walks_of (h : ∀ a s', x s = .ok (a, s') →
      ReflTransGen step s s' ∧ s'.drawn ≤ s.drawn + n) : Walks step n s x :=
  ⟨fun a s' run => (h a s' run).1, fun a s' run => (h a s' run).2⟩

theorem Walks.mono (hx : Walks step m s x) (h : m ≤ n) : Walks step n s x :=
  ⟨hx.goes, fun a s' run => Nat.le_trans (hx.draws a s' run) (Nat.add_le_add_left h _)⟩

/-- What draws nothing may stand where numbers could be drawn. -/
theorem Walks.free (hx : Walks step 0 s x) : Walks step n s x :=
  hx.mono (Nat.zero_le n)

/-- The outcome of a run is known. -/
theorem walks_run {s' : Lowering} {a : α} (run : x s = .ok (a, s'))
    (steps : ReflTransGen step s s') (hdrawn : s'.drawn ≤ s.drawn + n) : Walks step n s x := by
  refine walks_of fun b s'' run' => ?_
  cases run.symm.trans run'
  exact ⟨steps, hdrawn⟩

/-- A single step. -/
theorem walks_one {s' : Lowering} {a : α} (run : x s = .ok (a, s')) (h : step s s')
    (hdrawn : s'.drawn ≤ s.drawn + n) : Walks step n s x :=
  walks_run run (.single h) hdrawn

theorem walks_pure (a : α) : Walks step 0 s (pure a) :=
  walks_run rfl .refl (Nat.le_refl _)

theorem Walks.bind {f : α → Lower β} (hx : Walks step m s x)
    (hf : ∀ a s', x s = .ok (a, s') → Walks step n s' (f a)) : Walks step (m + n) s (x >>= f) := by
  refine walks_of fun b s'' run => ?_
  obtain ⟨a, s', run1, run2⟩ := run_bind_inv run
  have hrest := hf a s' run1
  have hdrawn := hx.draws a s' run1
  have hdrawn' := hrest.draws b s'' run2
  exact ⟨(hx.goes a s' run1).trans (hrest.goes b s'' run2), by omega⟩

/-- A step in front of another one that can be taken anywhere. -/
theorem Walks.next {f : α → Lower β} (hx : Walks step m s x) (hf : ∀ a s', Walks step n s' (f a)) :
    Walks step (m + n) s (x >>= f) :=
  hx.bind fun a s' _ => hf a s'

/-- What is given back behind a part. -/
theorem Walks.giving (hx : Walks step n s x) (g : α → β) :
    Walks step n s (x >>= fun a => pure (g a)) :=
  hx.next fun _ _ => walks_pure _

theorem Walks.map (hx : Walks step n s x) (g : α → β) : Walks step n s (g <$> x) := by
  refine walks_of fun b s' run => ?_
  obtain ⟨a, run1, -⟩ := run_map_inv run
  exact ⟨hx.goes a s' run1, hx.draws a s' run1⟩

theorem walks_get {f : Lowering → Lower β} (h : Walks step n s (f s)) :
    Walks step n s (get >>= f) :=
  ⟨fun b s' run => h.goes b s' run, fun b s' run => h.draws b s' run⟩

theorem Walks.toStep {declared : String → Prop} (hx : Walks (Plain declared) n s x) :
    Walks (Lowering.Step declared) n s x :=
  ⟨fun a s' run => ReflTransGen.mono (fun _ _ => .plain) _ _ (hx.goes a s' run), hx.draws⟩

/-- A building step draws what it adds to the builder. -/
theorem walks_build {y : Build α} (h : ∀ a b, y s.builder = .ok (a, b) →
      ReflTransGen step s { s with builder := b } ∧ b.drawn ≤ s.builder.drawn + n) :
    Walks step n s (Lower.build y) := by
  refine walks_of fun a s' run => ?_
  obtain ⟨b, hb, rfl⟩ := build_inv run
  obtain ⟨steps, hdrawn⟩ := h a b hb
  refine ⟨steps, ?_⟩
  simp only [Lowering.drawn]
  omega

/-- A building step that changes nothing. -/
theorem walks_look {y : Build α} (h : ∀ {b a b'}, y b = .ok (a, b') → b' = b) :
    Walks step 0 s (Lower.build y) := by
  refine walks_build fun a b run => ?_
  rw [h run]
  exact ⟨.refl, Nat.le_refl _⟩

end Walks

/-! ## Building steps -/

section Build

variable {s : Lowering} {α : Type} {declared : String → Prop}

theorem names_put {functions : List Function} {index : Nat} {f f' : Function}
    (hf : functions[index]? = some f) (hname : f'.name = f.name) :
    (functions.set index f').map Function.name = functions.map Function.name := by
  obtain ⟨hlt, rfl⟩ := List.getElem?_eq_some_iff.mp hf
  rw [List.map_set, hname, ← List.getElem_map Function.name (h := by simpa using hlt),
    List.set_getElem_self]

theorem fresh_walks (hint : String) : Walks (Plain declared) 1 s (Lower.build (.fresh hint)) := by
  refine walks_build fun a b run => ?_
  obtain ⟨index, block, f, hc, hf, -, rfl⟩ := Build.fresh_inv run
  refine ⟨.single (.code hc hf .tick), Builder.drawn_put hc hf ?_⟩
  rw [Function.hasEnded_tick, Function.tick]
  dsimp only
  omega

/-- Only an instruction that ends a block has a price of its own. -/
theorem emit_walks {i : Instr} (hi : i.isTerminator = false) (hl : i.Linked s.module) :
    Walks (Plain declared) 0 s (Lower.build (.emit i)) := by
  refine walks_build fun a b run => ?_
  obtain ⟨index, f, block, hat, rfl⟩ := Build.emit_inv run
  have hdrawn := f.drawn_emit hat.block i
  rw [hi] at hdrawn
  exact ⟨.single (.code hat.cursor hat.function (.emit hat.block ⟨hi, hl⟩)),
    Builder.drawn_put hat.cursor hat.function (Nat.le_of_eq hdrawn)⟩

/-- An instruction that gives a value. -/
theorem emitValue_walks {hint : String} {ty : Ir.Ty} {i : String → Instr}
    (hi : ∀ d, (i d).isTerminator = false)
    (hl : ∀ n (m : Module), m.functions.map Function.name = s.module.functions.map Function.name →
      m.declarations = s.module.declarations → (i (numbered hint n)).Linked m) :
    Walks (Plain declared) 1 s (Lower.build (.emitValue hint ty i)) := by
  rw [Build.emitValue, Stage.build_bind]
  refine (fresh_walks hint).bind (n := 0) fun name s1 run => ?_
  obtain ⟨b, hb, rfl⟩ := build_inv run
  obtain ⟨index, block, f, hc, hf, rfl, rfl⟩ := Build.fresh_inv hb
  rw [Stage.build_bind]
  refine Walks.giving (emit_walks (hi _) ?_) _
  exact hl _ _ (names_put hf rfl) rfl

theorem emitPlain_walks {hint : String} {ty : Ir.Ty} {i : String → Instr}
    (hi : ∀ d, (i d).isTerminator = false) (hl : ∀ d m, (i d).Linked m) :
    Walks (Plain declared) 1 s (Lower.build (.emitValue hint ty i)) :=
  emitValue_walks hi fun _ m _ _ => hl _ m

theorem alloca_walks (ty : Ir.Ty) (hint : String) :
    Walks (Plain declared) 1 s (Lower.build (.alloca ty hint)) := by
  refine walks_build fun a b run => ?_
  obtain ⟨index, block, f, hc, hf, -, rfl⟩ := Build.alloca_inv run
  have first : Plain declared s { s with builder := s.builder.put index f.tick block } :=
    .code hc hf .tick
  refine ⟨.tail (.single first) (.code rfl (Build.put_function hf _ _) (.reserve _ _)), ?_⟩
  rw [Builder.put_put]
  refine Builder.drawn_put hc hf ?_
  rw [Function.hasEnded_reserve _ _ rfl, Function.hasEnded_tick, Function.modifyBlock,
    Function.tick]
  dsimp only
  omega

/-- Global data are added, unless the module has the name. -/
theorem addGlobal_walks {g : Global} (hname : Issued s.symbols.nextUnique g.name ∨
      declared g.name ∧ s.symbols.containsGlobal g.name = false) :
    Walks (Plain declared) 0 s (Lower.build (.addGlobal g)) := by
  refine walks_build fun a b run => ?_
  cases htaken : s.module.hasSymbol g.name with
  | true =>
    rw [Build.addGlobal_taken htaken] at run
    cases run
    exact ⟨.refl, Nat.le_refl _⟩
  | false =>
    rw [Build.addGlobal_new htaken] at run
    cases run
    exact ⟨.single (.global htaken hname), Nat.le_refl _⟩

theorem function?_isSome {m : Module} {name : String} :
    (m.function? name).isSome = true ↔ name ∈ m.functions.map Function.name := by
  rw [Module.function?, List.find?_isSome]
  simp

theorem declaration?_isSome {m : Module} {name : String} :
    (m.declaration? name).isSome = true ↔ name ∈ m.declarations.map Declaration.name := by
  rw [Module.declaration?, List.find?_isSome]
  simp

theorem global?_isSome {m : Module} {name : String} :
    (m.global? name).isSome = true ↔ name ∈ m.globals.map Global.name := by
  rw [Module.global?, List.find?_isSome]
  simp

/-- What asking for a routine does: it is declared, unless the module has a function of its name or
declares it already. -/
theorem declareRoutine_cases {name : String} {u : Unit} {b b' : Builder}
    (h : Build.declareRoutine name b = .ok (u, b')) :
    (b' = b ∧ (name ∈ b.module.functions.map Function.name ∨
      name ∈ b.module.declarations.map Declaration.name ∨ Routine.find? name = none)) ∨
    ∃ r ∈ Routine.callable ++ [Routine.stringEquals], r.name = name ∧
      (b.module.function? r.name).isSome = false ∧
      (b.module.declaration? r.name).isSome = false ∧
      b' = { b with module := { b.module with
        declarations := b.module.declarations ++ [r.declaration] } } := by
  cases hfun : (b.module.function? name).isSome with
  | true =>
    rw [Build.declareRoutine_defined hfun] at h
    cases h
    exact Or.inl ⟨rfl, Or.inl (function?_isSome.mp hfun)⟩
  | false =>
    cases hfind : Routine.find? name with
    | none =>
      rw [Build.declareRoutine_unknown hfun hfind] at h
      cases h
      exact Or.inl ⟨rfl, Or.inr (Or.inr rfl)⟩
    | some r =>
      obtain rfl : r.name = name := by simpa using List.find?_some hfind
      rw [Build.declareRoutine_known hfun hfind] at h
      cases hdecl : (b.module.declaration? r.name).isSome with
      | true =>
        rw [Build.declareFunction_old hdecl] at h
        cases h
        exact Or.inl ⟨rfl, Or.inr (Or.inl (declaration?_isSome.mp hdecl))⟩
      | false =>
        rw [Build.declareFunction_new hdecl] at h
        cases h
        exact Or.inr ⟨r, List.mem_of_find?_eq_some hfind, rfl, hfun, hdecl, rfl⟩

theorem declareRoutine_walks (name : String) :
    Walks (Plain declared) 0 s (Lower.build (.declareRoutine name)) := by
  refine walks_build fun a b run => ?_
  rcases declareRoutine_cases run with ⟨rfl, -⟩ | ⟨r, hr, -, hfun, hdecl, rfl⟩
  · exact ⟨.refl, Nat.le_refl _⟩
  · exact ⟨.single (.routine hr hfun hdecl), Nat.le_refl _⟩

/-- A routine that was asked for is one that the module has. -/
theorem declareRoutine_has {r : Routine} (hr : Routine.find? r.name = some r) {u : Unit}
    {b b' : Builder} (h : Build.declareRoutine r.name b = .ok (u, b')) :
    r.name ∈ b'.module.functions.map Function.name ∨
      r.name ∈ b'.module.declarations.map Declaration.name := by
  rcases declareRoutine_cases h with ⟨rfl, hfun | hdecl | hnone⟩ | ⟨r', -, hname, -, -, rfl⟩
  · exact Or.inl hfun
  · exact Or.inr hdecl
  · rw [hr] at hnone
    cases hnone
  · refine Or.inr (List.mem_map.mpr ⟨r'.declaration, ?_, hname⟩)
    exact List.mem_append_right _ (List.mem_singleton.mpr rfl)

end Build

end ProcLang
