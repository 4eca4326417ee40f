import Mathlib.Data.List.DropRight
import ProcLang.Proofs.Typing

/-!
# Sound functions

A function under construction is *sound* if it could be finished to a valid one: names are used
once, blocks end at most once, storage is reserved at the start of the entry, every instruction is
typed, and every register is written before it is read.

The last point is about all ways through the function, and blocks get their predecessors one by one.
So every block is given, when it is added, a set of registers (`avail`) on which it may rely.
Control passes to a block only from places where all of these were written; a block that nothing
passes control to may rely on anything.

* `Function.Orderly`: the part of this that does not depend on what the code means;
* `Function.Sound`: the invariant. Control passes only to labels that are admitted
  (`Function.Admits`);
* `Function.Sound.push`, `Function.Sound.pushAlloca`, `Function.Sound.pushBlock`: what the builder
  may add.
-/

namespace ProcLang.Ir

open Naming

theorem Function.Extends.pushBlock {f : Function} (label : String) :
    f.Extends (f.pushBlock ⟨label, []⟩) :=
  ⟨rfl, rfl, rfl, fun i hi => by rw [pushBlock_instrs]; exact hi⟩

variable {i : Instr} {g : Block → Block} {b c : Block} {n : Nat} {f : Function}

theorem Function.Extends.modifyBlock (hb : f.blocks[n]? = some b)
    (hg : (g b).instrs.Perm (i :: b.instrs)) : f.Extends (f.modifyBlock n g) :=
  ⟨rfl, rfl, rfl, fun j hj => by
    rw [(modifyBlock_instrs_perm hb hg).mem_iff]
    exact List.mem_cons_of_mem i hj⟩

/-- Every register that the instructions read is known before them or written in front of the
instruction that reads it. -/
def Scoped (known : String → Prop) : List Instr → Prop
  | [] => True
  | i :: rest => (∀ r ∈ i.reads, known r) ∧ Scoped (fun r => known r ∨ i.dest? = some r) rest

theorem Scoped.mono {known known' : String → Prop} :
    ∀ {code : List Instr}, Scoped known code → (∀ r, known r → known' r) → Scoped known' code
  | [], _, _ => trivial
  | _ :: _, ⟨reads, rest⟩, h =>
    ⟨fun r hr => h r (reads r hr), rest.mono fun r hr => hr.imp (h r) id⟩

theorem scoped_append {known : String → Prop} {code code' : List Instr} :
    Scoped known (code ++ code') ↔
      Scoped known code ∧
        Scoped (fun r => known r ∨ r ∈ code.filterMap Instr.dest?) code' := by
  induction code generalizing known with
  | nil => simp [Scoped]
  | cons i code ih =>
    have same : (fun r => (known r ∨ i.dest? = some r) ∨ r ∈ code.filterMap Instr.dest?) =
        fun r => known r ∨ r ∈ (i :: code).filterMap Instr.dest? := by
      funext r
      cases hd : i.dest? with
      | none => simp [hd]
      | some d => simp [hd, or_assoc, eq_comm]
    rw [List.cons_append, Scoped, Scoped, ih, same, and_assoc]

/-- The registers that can be read wherever something is read: parameters and reserved storage. -/
def Function.Everywhere (f : Function) (r : String) : Prop :=
  (∃ p ∈ f.params, p.name = r) ∨ ∃ ty, .alloca r ty ∈ f.instrs

theorem Function.Everywhere.mono {g : Function} {r : String} (h : f.Everywhere r)
    (hfg : f.Extends g) : g.Everywhere r := by
  rcases h with ⟨p, hp, hr⟩ | ⟨ty, hi⟩
  · exact Or.inl ⟨p, hfg.params ▸ hp, hr⟩
  · exact Or.inr ⟨ty, hfg.instrs hi⟩

theorem Instr.isTerminator_of_isAlloca (h : i.isAlloca = true) : i.isTerminator = false := by
  cases i <;> simp_all [isAlloca, isTerminator]

namespace Block

/-- The instructions of a block behind those that reserve storage. -/
def body (b : Block) : List Instr :=
  b.instrs.dropWhile Instr.isAlloca

theorem body_append {b : Block} {code : List Instr} (hcode : ∀ i ∈ code, i.isAlloca = false)
    (h : c.instrs = b.instrs ++ code) : c.body = b.body ++ code := by
  have hsame : code.dropWhile Instr.isAlloca = code := by
    cases code with
    | nil => rfl
    | cons i code => exact List.dropWhile_cons_of_neg (by simp [hcode i List.mem_cons_self])
  unfold body
  rw [h, List.dropWhile_append, hsame]
  cases hempty : (b.instrs.dropWhile Instr.isAlloca).isEmpty with
  | false => rfl
  | true => simp [List.isEmpty_iff.mp hempty]

theorem body_push (hi : i.isAlloca = false) (b : Block) : (b.push i).body = b.body ++ [i] :=
  body_append (by simpa using hi) (push_instrs i b)

theorem body_pushAlloca (hi : i.isAlloca = true) (b : Block) : (b.pushAlloca i).body = b.body := by
  have first : ∀ j ∈ b.instrs.takeWhile Instr.isAlloca, j.isAlloca = true :=
    fun j hj => List.all_eq_true.mp List.all_takeWhile j hj
  unfold body
  rw [pushAlloca_instrs, List.dropWhile_append_of_pos first, List.dropWhile_cons_of_pos hi]
  exact List.dropWhile_idempotent Instr.isAlloca b.instrs

/-- Whether a block has ended can be seen behind the instructions that reserve storage. -/
theorem terminator?_eq_body (b : Block) :
    b.terminator? = b.body.getLast?.filter Instr.isTerminator := by
  have split : b.instrs.getLast? =
      b.body.getLast?.or (b.instrs.takeWhile Instr.isAlloca).getLast? := by
    rw [body, ← List.getLast?_append, List.takeWhile_append_dropWhile]
  unfold terminator?
  rw [split]
  cases b.body.getLast? with
  | some i => rfl
  | none =>
    cases hlast : (b.instrs.takeWhile Instr.isAlloca).getLast? with
    | none => rfl
    | some i =>
      have ha : i.isTerminator = false := Instr.isTerminator_of_isAlloca
        (List.all_eq_true.mp List.all_takeWhile i (List.mem_of_getLast? hlast))
      simp [Option.filter, ha]

theorem isTerminated_congr {b : Block} (h : b.body = c.body) : b.isTerminated = c.isTerminated := by
  rw [isTerminated, isTerminated, terminator?_eq_body, terminator?_eq_body, h]

theorem isTerminated_pushAlloca (hi : i.isAlloca = true) (b : Block) :
    (b.pushAlloca i).isTerminated = b.isTerminated :=
  isTerminated_congr (body_pushAlloca hi b)

theorem Shaped.pushAlloca (h : b.Shaped) (hi : i.isAlloca = true) : (b.pushAlloca i).Shaped := by
  intro j hj
  -- all but the last instruction: those in front are allocas, the others stood there before
  rw [pushAlloca_instrs] at hj
  by_cases hrest : b.instrs.dropWhile Instr.isAlloca = []
  · rw [hrest, List.dropLast_concat] at hj
    exact Instr.isTerminator_of_isAlloca (List.all_eq_true.mp List.all_takeWhile j hj)
  · rw [List.dropLast_append_of_ne_nil (by simp), List.dropLast_cons_of_ne_nil hrest,
      List.mem_append, List.mem_cons] at hj
    have split : b.instrs.dropLast = b.instrs.takeWhile Instr.isAlloca ++
        (b.instrs.dropWhile Instr.isAlloca).dropLast := by
      rw [← List.dropLast_append_of_ne_nil hrest, List.takeWhile_append_dropWhile]
    rcases hj with hj | rfl | hj
    · exact h j (by rw [split]; exact List.mem_append_left _ hj)
    · exact Instr.isTerminator_of_isAlloca hi
    · exact h j (by rw [split]; exact List.mem_append_right _ hj)

end Block

/-- Code in order: every name is used once, and the numbered ones were handed out; nothing follows
an instruction that ends a block; storage is reserved at the start of the entry. -/
structure Function.Orderly (f : Function) : Prop where
  entry : ∃ b, f.blocks[0]? = some b ∧ b.label = "entry"
  /-- No two blocks or results have the same name. -/
  names : f.names.Nodup
  issued : ∀ x ∈ f.names, x = "entry" ∨ Issued f.nextId x
  shaped : ∀ b ∈ f.blocks, b.Shaped
  /-- Storage is reserved at the start of the entry and nowhere else. -/
  reserved : ∀ n b, f.blocks[n]? = some b →
    (∀ i ∈ b.body, i.isAlloca = false) ∧ (n ≠ 0 → b.body = b.instrs)

namespace Function

/-- A block with an instruction more still has its number and its label. -/
theorem getElem?_modifyBlock (hl : ∀ b, (g b).label = b.label) {m : Nat}
    (hc : f.blocks[m]? = some c) :
    ∃ c', (f.modifyBlock n g).blocks[m]? = some c' ∧ c'.label = c.label := by
  by_cases hm : m = n
  · subst hm
    exact ⟨g c, modifyBlock_getElem?_self g hc, hl c⟩
  · exact ⟨c, by rw [modifyBlock_getElem?_ne g hm]; exact hc, rfl⟩

/-- Every block is the one that was changed, or an old one. -/
theorem modifyBlock_blocks_cases (hb : f.blocks[n]? = some b) {m : Nat}
    (hc : (f.modifyBlock n g).blocks[m]? = some c) : (m = n ∧ c = g b) ∨ f.blocks[m]? = some c := by
  rcases modifyBlock_getElem? hc with ⟨hm, b0, hb0, rfl⟩ | ⟨_, hc⟩
  · rw [hb] at hb0
    cases hb0
    exact Or.inl ⟨hm, rfl⟩
  · exact Or.inr hc

end Function

namespace Function.Orderly

/-- A new function has an empty entry. -/
theorem new (name : String) (ret : Ty) (params : List Param) :
    (Function.new name ret params).Orderly where
  entry := ⟨_, rfl, rfl⟩
  names := by simp [Function.new, Function.names, Block.names, Block.defs]
  issued := by simp [Function.new, Function.names, Block.names, Block.defs]
  shaped := by simp [Function.new, Block.Shaped]
  reserved n b hb := by
    cases n with
    | zero =>
      obtain rfl : _ = b := Option.some.inj hb
      exact ⟨by simp [Block.body], fun h => absurd rfl h⟩
    | succ n => simp [Function.new] at hb

variable (h : f.Orderly)

include h

theorem tick : f.tick.Orderly :=
  { h with issued := fun x hx => (h.issued x hx).imp id (·.mono (Nat.le_succ _)) }

/-- The name that comes next is not in use. -/
theorem fresh (hint : String) : f.freshName hint ∉ f.names := by
  intro hx
  rw [freshName_eq] at hx
  rcases h.issued _ hx with he | hi
  · exact entry_ne_numbered hint f.nextId he.symm
  · exact not_issued_numbered hint f.nextId hi

theorem pushBlock {label : String} (hi : Issued f.nextId label) (hl : label ∉ f.names) :
    (f.pushBlock ⟨label, []⟩).Orderly := by
  constructor
  case entry =>
    obtain ⟨b, hb, hlabel⟩ := h.entry
    exact ⟨b, getElem?_pushBlock _ hb, hlabel⟩
  case names =>
    rw [pushBlock_names, List.nodup_append]
    refine ⟨h.names, by simp, fun x hx y hy => ?_⟩
    rw [List.mem_singleton] at hy
    rintro rfl
    exact hl (hy ▸ hx)
  case issued =>
    intro x hx
    rw [pushBlock_names, List.mem_append, List.mem_singleton] at hx
    rcases hx with hx | rfl
    · exact h.issued x hx
    · exact Or.inr hi
  case shaped =>
    intro b hb
    rw [pushBlock_blocks, List.mem_append, List.mem_singleton] at hb
    rcases hb with hb | rfl
    · exact h.shaped b hb
    · simp [Block.Shaped]
  case reserved =>
    intro n b hb
    rcases pushBlock_getElem? hb with hb | ⟨_, rfl⟩
    · exact h.reserved n b hb
    · simp [Block.body]

/-- Adds an instruction somewhere in block `n`. What depends on the order of the instructions is
left to be shown for that block. -/
theorem insert (hb : f.blocks[n]? = some b) (hl : ∀ b, (g b).label = b.label)
    (hg : (g b).instrs.Perm (i :: b.instrs))
    (hd : ∀ d, i.dest? = some d → Issued f.nextId d ∧ d ∉ f.names) (hshaped : (g b).Shaped)
    (hreserved : (∀ i ∈ (g b).body, i.isAlloca = false) ∧ (n ≠ 0 → (g b).body = (g b).instrs)) :
    (f.modifyBlock n g).Orderly := by
  have names_perm := modifyBlock_names_perm hb (hl b) hg
  constructor
  case entry =>
    obtain ⟨c, hc, hlabel⟩ := h.entry
    obtain ⟨c', hc', hlabel'⟩ := getElem?_modifyBlock hl hc
    exact ⟨c', hc', hlabel'.trans hlabel⟩
  case names =>
    rw [names_perm.nodup_iff, List.nodup_append]
    refine ⟨by cases i.dest? <;> simp, h.names, fun x hx y hy => ?_⟩
    rintro rfl
    exact (hd x (Option.mem_toList.mp hx)).2 hy
  case issued =>
    intro x hx
    rw [names_perm.mem_iff, List.mem_append, Option.mem_toList] at hx
    rcases hx with hx | hx
    · exact Or.inr (hd x hx).1
    · exact h.issued x hx
  case shaped =>
    intro c hc
    obtain ⟨m, hm⟩ := List.getElem?_of_mem hc
    rcases modifyBlock_blocks_cases hb hm with ⟨_, rfl⟩ | hm
    · exact hshaped
    · exact h.shaped c (List.mem_of_getElem? hm)
  case reserved =>
    intro m c hc
    rcases modifyBlock_blocks_cases hb hc with ⟨rfl, rfl⟩ | hc
    · exact hreserved
    · exact h.reserved m c hc

/-- What is reserved where, after an instruction was added at the end of a block. -/
theorem reserved_push (hb : f.blocks[n]? = some b) (ha : i.isAlloca = false) :
    (∀ j ∈ (b.push i).body, j.isAlloca = false) ∧
    (n ≠ 0 → (b.push i).body = (b.push i).instrs) := by
  obtain ⟨hbody, hall⟩ := h.reserved n b hb
  rw [Block.body_push ha]
  refine ⟨fun j hj => ?_, fun hn => by rw [hall hn, Block.push_instrs]⟩
  rcases List.mem_append.mp hj with hj | hj
  · exact hbody j hj
  · rw [List.mem_singleton.mp hj]
    exact ha

/-- Adds an instruction at the end of block `n`, which has not ended. -/
theorem push (hb : f.blocks[n]? = some b) (hopen : b.isTerminated = false) (ha : i.isAlloca = false)
    (hd : ∀ d, i.dest? = some d → Issued f.nextId d ∧ d ∉ f.names) :
    (f.modifyBlock n (·.push i)).Orderly :=
  h.insert hb (fun _ => rfl) (b.push_instrs_perm i) hd
    ((h.shaped b (List.mem_of_getElem? hb)).push hopen i) (h.reserved_push hb ha)

/-- Reserves storage at the start of the entry. -/
theorem pushAlloca {dest : String} (ty : Ty) (hd : Issued f.nextId dest ∧ dest ∉ f.names) :
    (f.modifyBlock 0 (·.pushAlloca (.alloca dest ty))).Orderly := by
  obtain ⟨b, hb, -⟩ := h.entry
  refine h.insert hb (fun _ => rfl) (b.pushAlloca_instrs_perm _) (fun d hd' => ?_)
    ((h.shaped b (List.mem_of_getElem? hb)).pushAlloca rfl) ?_
  · cases hd'
    exact hd
  · rw [Block.body_pushAlloca rfl]
    exact ⟨(h.reserved 0 b hb).1, fun hn => absurd rfl hn⟩

end Function.Orderly

/-- Control may pass to the label where some registers are known: it is that of a block other than
the entry, which relies on known registers only. -/
def Function.Admits (avail : Nat → String → Prop) (f : Function) (known : String → Prop)
    (label : String) : Prop :=
  ∃ m c, m ≠ 0 ∧ f.blocks[m]? = some c ∧ c.label = label ∧ ∀ r, avail m r → known r

/-- A function that could be finished to a valid one. Block `n` relies on the registers in
`avail n`. -/
structure Function.Sound (env : Interface) (arrays : List Param) (avail : Nat → String → Prop)
    (f : Function) : Prop extends f.Orderly where
  args : ∀ p ∈ f.params, ∃ x, p.name = Lower.argName x
  typed : ∀ i ∈ f.instrs, i.Typed env f arrays ∧ ∀ v ∈ i.operands, v.Typed f
  targets : ∀ n b, f.blocks[n]? = some b → ∀ i ∈ b.instrs, ∀ t ∈ i.targets,
    f.Admits avail (fun r => avail n r ∨ r ∈ b.defs) t
  /-- What is read was written before, or can be relied on. -/
  reads : ∀ n b, f.blocks[n]? = some b → Scoped (fun r => f.Everywhere r ∨ avail n r) b.instrs
  start : ∀ r, ¬ avail 0 r

namespace Function.Sound

variable {env env' : Interface} {arrays : List Param} {avail : Nat → String → Prop}
  (h : f.Sound env arrays avail)

include h

theorem mono (he : env.Extends env') : f.Sound env' arrays avail :=
  { h with typed := fun i hi => ⟨(h.typed i hi).1.mono he (.refl f), (h.typed i hi).2⟩ }

omit h in
/-- A new function has an empty entry. -/
theorem new (env : Interface) (arrays : List Param) (name : String) (ret : Ty)
    {params : List Param} (hp : ∀ p ∈ params, ∃ x, p.name = Lower.argName x) :
    (Function.new name ret params).Sound env arrays (fun _ _ => False) where
  toOrderly := .new name ret params
  args := hp
  typed := by simp [Function.new, instrs]
  targets n b hb i hi := by
    have : b ∈ (Function.new name ret params).blocks := List.mem_of_getElem? hb
    simp only [Function.new, List.mem_singleton] at this
    subst this
    cases hi
  reads n b hb := by
    have : b ∈ (Function.new name ret params).blocks := List.mem_of_getElem? hb
    simp only [Function.new, List.mem_singleton] at this
    subst this
    trivial
  start _ := id

theorem tick : f.tick.Sound env arrays avail :=
  { h with toOrderly := h.toOrderly.tick }

/-- No parameter has the name of a block or a result. -/
theorem args_not_mem_names {p : Param} (hp : p ∈ f.params) : p.name ∉ f.names := by
  intro hx
  obtain ⟨x, hname⟩ := h.args p hp
  rw [hname] at hx
  rcases h.issued _ hx with he | ⟨hint, k, _, he⟩
  · exact argName_ne_entry x he
  · exact argName_ne_numbered x hint k he

/-! ## Adding a block -/

/-- Adds a block that may rely on the registers of a set. -/
theorem pushBlock {label : String} (hi : Issued f.nextId label) (hl : label ∉ f.names)
    (known : String → Prop) :
    (f.pushBlock ⟨label, []⟩).Sound env arrays
      (fun n => if n = f.blocks.length then known else avail n) := by
  have old : ∀ {n : Nat} {b : Block}, f.blocks[n]? = some b → n ≠ f.blocks.length :=
    fun hb => Nat.ne_of_lt (List.getElem?_eq_some_iff.mp hb).1
  have grown : f.Extends (f.pushBlock ⟨label, []⟩) := .pushBlock label
  refine { h.toOrderly.pushBlock hi hl with
    args := h.args, typed := ?typed, targets := ?targets, reads := ?reads, start := ?start }
  case typed =>
    intro i hi'
    rw [pushBlock_instrs] at hi'
    obtain ⟨ht, hv⟩ := h.typed i hi'
    exact ⟨ht.mono (.refl env) grown, fun v hv' => (hv v hv').mono grown⟩
  case targets =>
    intro n b hb i hi' t ht
    rcases pushBlock_getElem? hb with hb | ⟨_, rfl⟩
    · obtain ⟨m, c, hm, hc, hlabel, hr⟩ := h.targets n b hb i hi' t ht
      refine ⟨m, c, hm, getElem?_pushBlock _ hc, hlabel, fun r => ?_⟩
      simp only [if_neg (old hc), if_neg (old hb)]
      exact hr r
    · cases hi'
  case reads =>
    intro n b hb
    rcases pushBlock_getElem? hb with hb | ⟨_, rfl⟩
    · refine (h.reads n b hb).mono fun r => ?_
      simp only [if_neg (old hb)]
      exact Or.imp (·.mono grown) id
    · trivial
  case start =>
    obtain ⟨b, hb, _⟩ := h.entry
    intro r
    simp only [if_neg (old hb)]
    exact h.start r

/-! ## Adding an instruction -/

/-- Adds an instruction somewhere in block `n`. What depends on the order of the instructions is
left to be shown for that block. -/
theorem insert (hb : f.blocks[n]? = some b) (hl : ∀ b, (g b).label = b.label)
    (hg : (g b).instrs.Perm (i :: b.instrs)) (ht : i.Typed env f arrays)
    (hv : ∀ v ∈ i.operands, v.Typed f)
    (hto : ∀ t ∈ i.targets, f.Admits avail (fun r => avail n r ∨ r ∈ b.defs) t)
    (horderly : (f.modifyBlock n g).Orderly)
    (hreads : Scoped (fun r => (f.modifyBlock n g).Everywhere r ∨ avail n r) (g b).instrs) :
    (f.modifyBlock n g).Sound env arrays avail := by
  have grown : f.Extends (f.modifyBlock n g) := .modifyBlock hb hg
  have instrs_perm := modifyBlock_instrs_perm hb hg
  have retarget : ∀ {known : String → Prop} {t : String}, f.Admits avail known t →
      (f.modifyBlock n g).Admits avail known t := by
    rintro known t ⟨m, c, hm, hc, hlabel, hknown⟩
    obtain ⟨c', hc', hlabel'⟩ := getElem?_modifyBlock hl hc
    exact ⟨m, c', hm, hc', hlabel'.trans hlabel, hknown⟩
  refine { horderly with
    args := h.args, typed := ?typed, targets := ?targets, reads := ?reads, start := h.start }
  case typed =>
    intro j hj
    rw [instrs_perm.mem_iff, List.mem_cons] at hj
    rcases hj with rfl | hj
    · exact ⟨ht.mono (.refl env) grown, fun v hv' => (hv v hv').mono grown⟩
    · obtain ⟨ht', hv'⟩ := h.typed j hj
      exact ⟨ht'.mono (.refl env) grown, fun v hv'' => (hv' v hv'').mono grown⟩
  case targets =>
    intro m c hc j hj t ht'
    rcases modifyBlock_blocks_cases hb hc with ⟨rfl, rfl⟩ | hc
    · have known : f.Admits avail (fun r => avail m r ∨ r ∈ b.defs) t := by
        rw [hg.mem_iff, List.mem_cons] at hj
        rcases hj with rfl | hj
        · exact hto t ht'
        · exact h.targets m b hb j hj t ht'
      obtain ⟨m', c', hm', hc', hlabel, hknown⟩ := retarget known
      refine ⟨m', c', hm', hc', hlabel, fun r hr => (hknown r hr).imp id fun hdef => ?_⟩
      obtain ⟨k, hk, hkr⟩ := List.mem_filterMap.mp hdef
      exact List.mem_filterMap.mpr ⟨k, hg.mem_iff.mpr (List.mem_cons_of_mem i hk), hkr⟩
    · exact retarget (h.targets m c hc j hj t ht')
  case reads =>
    intro m c hc
    rcases modifyBlock_blocks_cases hb hc with ⟨rfl, rfl⟩ | hc
    · exact hreads
    · exact (h.reads m c hc).mono fun r => Or.imp (·.mono grown) id

/-- **Adding an instruction** at the end of block `n`, which has not ended. -/
theorem push (hb : f.blocks[n]? = some b) (hopen : b.isTerminated = false) (ha : i.isAlloca = false)
    (ht : i.Typed env f arrays) (hv : ∀ v ∈ i.operands, v.Typed f)
    (hr : ∀ r ∈ i.reads, f.Everywhere r ∨ avail n r ∨ r ∈ b.defs)
    (hd : ∀ d, i.dest? = some d → Issued f.nextId d ∧ d ∉ f.names)
    (hto : ∀ t ∈ i.targets, f.Admits avail (fun r => avail n r ∨ r ∈ b.defs) t) :
    (f.modifyBlock n (·.push i)).Sound env arrays avail := by
  have grown : f.Extends (f.modifyBlock n (·.push i)) := .modifyBlock hb (b.push_instrs_perm i)
  refine h.insert hb (fun _ => rfl) (b.push_instrs_perm i) ht hv hto
    (h.toOrderly.push hb hopen ha hd) ?_
  rw [Block.push_instrs, scoped_append]
  refine ⟨(h.reads n b hb).mono fun r => Or.imp (·.mono grown) id, fun r hr' => ?_, trivial⟩
  rcases hr r hr' with he | hr'' | hdef
  · exact Or.inl (Or.inl (he.mono grown))
  · exact Or.inl (Or.inr hr'')
  · exact Or.inr hdef

/-- **Reserving storage** at the start of the entry. -/
theorem pushAlloca {dest : String} (ty : Ty) (hd : Issued f.nextId dest ∧ dest ∉ f.names) :
    (f.modifyBlock 0 (·.pushAlloca (.alloca dest ty))).Sound env arrays avail := by
  obtain ⟨b, hb, -⟩ := h.entry
  have hperm := b.pushAlloca_instrs_perm (.alloca dest ty)
  have grown : f.Extends (f.modifyBlock 0 (·.pushAlloca (.alloca dest ty))) :=
    .modifyBlock hb hperm
  refine h.insert hb (fun _ => rfl) hperm trivial (by simp [Instr.operands])
    (by simp [Instr.targets]) (h.toOrderly.pushAlloca ty hd) ?_
  have hreads := h.reads 0 b hb
  rw [← List.takeWhile_append_dropWhile (p := Instr.isAlloca) (l := b.instrs),
    scoped_append] at hreads
  rw [Block.pushAlloca_instrs, scoped_append]
  refine ⟨hreads.1.mono fun r => Or.imp (·.mono grown) id, by simp [Instr.reads, Instr.operands],
    hreads.2.mono fun r hr => Or.inl (hr.imp (Or.imp (·.mono grown) id) id)⟩

end Function.Sound

end ProcLang.Ir
