import ProcLang.Proofs.Meaning.Match

/-!
# Runs through several blocks

`Final` is what comes out in the end: the module, the storage of the variables, and the finished
function. A spot of lowering is a place in that function, and a run of the function that stands
there goes on with `Final.rest`. `Final.Reaches` says that such a run does what a part of the
program does; if the part needs more rounds of a loop than allowed, the run is at least that long.

* `Final.Reaches.bind`: parts in order; `Final.Reaches.code`: code without jumps;
* `Final.Does.jump`, `Final.Forks.branch`: instructions that pass control on;
* `Final.Forks.rounds`: loops.
-/

namespace ProcLang

open Ir Naming

/-- What comes out in the end. -/
structure Final (W : World) extends Target W where
  fn : Function
  labels : ∀ {n m : Nat} {b c : Block}, fn.blocks[n]? = some b → fn.blocks[m]? = some c →
    b.label = c.label → n = m
  plain : ∀ {n : Nat} {b : Block}, n ≠ 0 → fn.blocks[n]? = some b → b.body = b.instrs
  spared : ∀ b ∈ fn.blocks, toTarget.Spares b.body
  apart : toTarget.Apart

namespace Final

variable {W : World} (E : Final W)

/-- The instructions behind a spot. -/
def rest (w : Spot) : List Instr :=
  E.fn.blocks[w.number]?.elim [] fun b => b.body.drop w.block.body.length

/-- The run stands at the spot, in agreement with the run of the program. -/
def Stands (w : Spot) (store : Store W) (state : State W) : Prop :=
  ∃ act, state = .running (E.rest w) act ∧ E.Agrees act store

/-- The spot is a place in the function. -/
structure Has (w : Spot) : Prop where
  block : w.fn.blocks[w.number]? = some w.block
  fn : w.fn.GrowsTo E.fn

/-- The spot is at the start of a block, which is not the entry. -/
structure Starts (w : Spot) : Prop extends E.Has w where
  number : w.number ≠ 0
  body : w.block.body = []

/-- The run does what a part of the program does. If that takes too many rounds, the run takes at
least `n` steps. -/
def Reaches {α : Type} (n : Nat) (state : State W) (outcome : Except W.Stop (α × Store W))
    (post : α → Store W → State W → Prop) : Prop :=
  match outcome with
  | .ok (a, store) => ∃ k, post a store (State.run E.module E.fn k state)
  | .error (.fault trace) => ∃ k, State.run E.module E.fn k state = .stopped (.fault trace)
  | .error .timeout => ∃ k, n ≤ k ∧ ∃ code act, State.run E.module E.fn k state = .running code act
  | .error .stuck => False

/-- Between the spots the run does what a part of the program does. -/
def Does (n : Nat) (w w' : Spot) (x : Exec W Unit) : Prop :=
  ∀ (store : Store W) (state : State W), E.Stands w store state →
    E.Reaches n state (x store) fun _ => E.Stands w'

/-- From the spot on the run evaluates a condition and goes to the block with the one label or the
other. -/
def Forks (w : Spot) (test : Exec W Bool) (yes no : String) : Prop :=
  ∀ (n : Nat) (store : Store W) (state : State W), E.Stands w store state →
    E.Reaches n state (test store) fun b store' state' => ∃ act, E.Agrees act store' ∧
      State.run E.module E.fn 1 state' = State.enter E.fn (if b then yes else no) act

variable {E} {α β : Type} {n : Nat} {state : State W} {store : Store W}
  {outcome : Except W.Stop (α × Store W)} {post : α → Store W → State W → Prop}
  {w w1 w2 w' yes no : Spot} {x : Exec W Unit} {test : Exec W Bool}

/-! ## Parts in order -/

/-- Steps in front. -/
theorem Reaches.after (k : Nat) (h : E.Reaches n (State.run E.module E.fn k state) outcome post) :
    E.Reaches (n + k) state outcome post := by
  unfold Reaches at h ⊢
  split at h
  · obtain ⟨j, hj⟩ := h
    exact ⟨k + j, by rw [State.run_add]; exact hj⟩
  · obtain ⟨j, hj⟩ := h
    exact ⟨k + j, by rw [State.run_add]; exact hj⟩
  · obtain ⟨j, hle, code, act, hj⟩ := h
    exact ⟨k + j, by omega, code, act, by rw [State.run_add]; exact hj⟩
  · exact h

theorem Reaches.weaken {m : Nat} {post' : α → Store W → State W → Prop}
    (h : E.Reaches n state outcome post) (hm : m ≤ n)
    (hp : ∀ a store state, post a store state → post' a store state) :
    E.Reaches m state outcome post' := by
  unfold Reaches at h ⊢
  split at h
  · obtain ⟨k, hk⟩ := h
    exact ⟨k, hp _ _ _ hk⟩
  · exact h
  · obtain ⟨k, hle, hrun⟩ := h
    exact ⟨k, Nat.le_trans hm hle, hrun⟩
  · exact h

theorem Reaches.pure {a : α} (h : post a store state) : E.Reaches n state (.ok (a, store)) post :=
  ⟨0, h⟩

/-- **Parts in order.** -/
theorem Reaches.bind {x : Exec W α} {f : α → Exec W β} {mid : α → Store W → State W → Prop}
    {post : β → Store W → State W → Prop} (hx : E.Reaches n state (x store) mid)
    (hf : ∀ a store' state', mid a store' state' → E.Reaches n state' (f a store') post) :
    E.Reaches n state ((x >>= f) store) post := by
  cases hrun : x store with
  | error stop =>
    rw [hrun] at hx
    rw [run_bind_error hrun]
    cases stop <;> exact hx
  | ok r =>
    obtain ⟨a, store'⟩ := r
    rw [hrun] at hx
    obtain ⟨k, hmid⟩ := hx
    rw [run_bind hrun]
    exact ((hf a store' _ hmid).after k).weaken (Nat.le_add_right n k) fun _ _ _ h => h

theorem does_refl (n : Nat) (w : Spot) : E.Does n w w (Pure.pure ()) :=
  fun _ _ hstands => .pure hstands

theorem Does.seq {y : Exec W Unit} (hx : E.Does n w w1 x) (hy : E.Does n w1 w2 y) :
    E.Does n w w2 (do x; y) :=
  fun store state hstands => (hx store state hstands).bind fun _ => hy

/-! ## Code without jumps -/

/-- **Code in a row** does what it matches. -/
theorem Reaches.code {code rest : List Instr} {act : Activation W}
    {post : α → Store W → Activation W → Prop} (h : E.Matches code act outcome post) :
    E.Reaches n (.running (code ++ rest) act) outcome fun a store state =>
      ∃ act', state = .running rest act' ∧ post a store act' := by
  cases outcome with
  | ok r =>
    obtain ⟨act', hcode, hpost⟩ := h
    exact ⟨code.length, act', State.run_code hcode, hpost⟩
  | error stop =>
    cases stop with
    | fault trace => exact State.run_code_fault h
    | timeout => exact h.elim
    | stuck => exact h

theorem Has.rest_eq (h : E.Has w) :
    ∃ b, E.fn.blocks[w.number]? = some b ∧ b.label = w.block.label ∧
      b.body = w.block.body ++ E.rest w := by
  obtain ⟨b, hb, hlabel, more, hmore⟩ := h.fn.blocks w.number w.block h.block
  refine ⟨b, hb, hlabel, ?_⟩
  rw [rest, hb, Option.elim_some, ← hmore, List.drop_left]

theorem rest_adds {code : List Instr} (h : w.Adds code w') (hw : E.Has w') :
    E.rest w = code ++ E.rest w' := by
  obtain ⟨b, hb, -, hbody⟩ := hw.rest_eq
  rw [h.number] at hb
  rw [h.body, List.append_assoc] at hbody
  rw [rest, hb, Option.elim_some, hbody, List.drop_left]

/-- No instruction behind a spot writes a register that holds the address of a variable. -/
theorem spared_rest (w : Spot) : E.Spares (E.rest w) := by
  intro i hi
  unfold rest at hi
  cases hb : E.fn.blocks[w.number]? with
  | none =>
    rw [hb] at hi
    cases hi
  | some b =>
    rw [hb] at hi
    exact E.spared b (List.mem_of_getElem? hb) i (List.mem_of_mem_drop hi)

theorem spared_adds {code : List Instr} (h : w.Adds code w') (hw : E.Has w') : E.Spares code := by
  have hspared := E.spared_rest w
  rw [rest_adds h hw] at hspared
  exact hspared.left

/-- **Code between spots** does what it matches. -/
theorem Stands.code {code : List Instr} {x : Exec W α} {post : α → Store W → Activation W → Prop}
    (hstands : E.Stands w store state) (h : w.Adds code w') (hw : E.Has w')
    (hx : ∀ {act : Activation W}, E.Agrees act store → E.Matches code act (x store) post) :
    E.Reaches n state (x store) fun a store' state' =>
      ∃ act', state' = .running (E.rest w') act' ∧ post a store' act' := by
  obtain ⟨act, rfl, hagree⟩ := hstands
  rw [rest_adds h hw]
  exact Reaches.code (hx hagree)

/-! ## Jumps -/

/-- A block is entered at its start. -/
theorem Starts.enter (h : E.Starts w) (act : Activation W) :
    State.enter E.fn w.block.label act = .running (E.rest w) act := by
  obtain ⟨b, hb, hlabel, hbody⟩ := h.rest_eq
  have hfind : E.fn.block? w.block.label = some b := by
    have hsome : (E.fn.block? w.block.label).isSome = true := by
      rw [Function.block?, List.find?_isSome]
      exact ⟨b, List.mem_of_getElem? hb, by simp [hlabel]⟩
    obtain ⟨c, hc⟩ := Option.isSome_iff_exists.mp hsome
    have hc' : c.label = w.block.label := by simpa using List.find?_some hc
    obtain ⟨m, hm⟩ := List.mem_iff_getElem?.mp (List.mem_of_find?_eq_some hc)
    have heq : m = w.number := E.labels hm hb (hc'.trans hlabel.symm)
    rw [heq, hb] at hm
    cases hm
    exact hc
  rw [h.body, List.nil_append, E.plain h.number hb] at hbody
  rw [State.enter, hfind, ← hbody]

/-- **A jump** to the start of a block, behind a part of the program. -/
theorem Does.jump (hx : E.Does n w w1 x) (h : w1.Adds [.br w'.block.label] w2) (hw : E.Has w2)
    (hw' : E.Starts w') : E.Does n w w' x := by
  have hjump : E.Does n w1 w' (pure ()) := by
    rintro store state ⟨act, rfl, hagree⟩
    refine ⟨1, act, ?_, hagree⟩
    rw [rest_adds h hw, State.run_one]
    exact hw'.enter act
  have hseq := hx.seq hjump
  rwa [bind_pure_unit] at hseq

/-- **A fork**: code that evaluates a condition, which says where the run goes on. -/
theorem forks_of {code : List Instr} {cond : Value} {yes no : String} (hcode : w.Adds code w1)
    (hw1 : E.Has w1) (h : w1.Adds [.condBr cond yes no] w2) (hw : E.Has w2)
    (hx : ∀ {act : Activation W} {store : Store W}, E.Agrees act store →
      E.Matches code act (test store) fun b store' act' =>
        E.Agrees act' store' ∧ cond.eval E.module act'.regs = some (.data (.bool b))) :
    E.Forks w test yes no := by
  intro n store state hstands
  refine (hstands.code hcode hw1 hx).weaken (Nat.le_refl n) ?_
  rintro b store' _ ⟨act, rfl, hagree, hcond⟩
  refine ⟨act, hagree, ?_⟩
  rw [rest_adds h hw, State.run_one, List.singleton_append, State.step, hcond]

/-- Behind a fork the run stands at the start of a block. -/
theorem Starts.stands (hyes : E.Starts yes) (hno : E.Starts no) {b : Bool} {act : Activation W}
    (hagree : E.Agrees act store)
    (h : state = State.enter E.fn (if b then yes.block.label else no.block.label) act) :
    E.Stands (if b then yes else no) store state := by
  refine ⟨act, ?_, hagree⟩
  cases b with
  | true => exact h.trans (hyes.enter act)
  | false => exact h.trans (hno.enter act)

/-- **A branch**: of two parts of the program the condition chooses one. -/
theorem Forks.branch {y : Exec W Unit} (h : E.Forks w test yes.block.label no.block.label)
    (hyes : E.Starts yes) (hno : E.Starts no) (hx : E.Does n yes w' x) (hy : E.Does n no w' y) :
    E.Does n w w' (do if ← test then x else y) := by
  intro store state hstands
  refine (h _ store state hstands).bind ?_
  rintro b store' state' ⟨act, hagree, hrun⟩
  have hfork := hyes.stands hno hagree hrun
  refine (Reaches.after 1 ?_).weaken (Nat.le_add_right n 1) fun _ _ _ h => h
  cases b with
  | true => exact hx _ _ hfork
  | false => exact hy _ _ hfork

/-- **A loop**: every round takes a step at least, so a run with too many rounds is long. -/
theorem Forks.rounds {body : Exec W Unit} (h : E.Forks w test yes.block.label no.block.label)
    (hyes : E.Starts yes) (hno : E.Starts no) (hbody : E.Does n yes w body) :
    ∀ m ≤ n, E.Does m w no (Exec.rounds test body m)
  | 0, _ => by
    rintro store state ⟨act, rfl, -⟩
    exact ⟨0, Nat.le_refl 0, E.rest w, act, rfl⟩
  | m + 1, hm => by
    intro store state hstands
    rw [Exec.rounds]
    refine (h _ store state hstands).bind ?_
    rintro b store1 state1 ⟨act, hagree, hrun⟩
    have hfork := hyes.stands hno hagree hrun
    refine Reaches.after 1 ?_
    cases b with
    | true =>
      have hround := (hbody _ _ hfork).weaken (m := m) (by omega) fun _ _ _ h => h
      refine hround.bind fun _ store2 state2 hstands2 => ?_
      exact h.rounds hyes hno hbody m (by omega) _ _ hstands2
    | false => exact .pure hfork

end Final

end ProcLang
