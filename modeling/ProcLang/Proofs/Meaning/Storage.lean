import ProcLang.Proofs.Meaning.Control
import ProcLang.Proofs.Meaning.Layout
import ProcLang.Proofs.Valid

/-!
# The storage of variables

Where the variables of a program are kept once it is lowered: a local variable in storage that the
function reserves at its start, a global one in the module. The symbols say which storage that is.

* `Scene.houses`: every variable has storage of its own;
* `Houses.final`: a sound function with the storage of variables is what comes out in the end;
* `Houses.start`: a run of the function first takes the addresses of local variables.
-/

namespace ProcLang

open Ir Naming

/-- The storage of variables in a module and a function of it: every variable has storage of its
own, with room for its values. -/
structure Houses (m : Module) (f : Function) (vars : List Variable) (home : Variable → Operand) :
    Prop where
  apart : ∀ u ∈ vars, ∀ v ∈ vars, home u = home v → u = v
  locals : ∀ v ∈ vars, v.isGlobal = false → ∃ r, home v = .register r ∧
    .alloca r (Lower.storageType v.ty v.len) ∈ f.instrs
  globals : ∀ v ∈ vars, v.isGlobal = true → ∃ name, home v = .symbol name ∧
    m.global? name = some ⟨name, Lower.storageType v.ty v.len, .variable⟩

/-! ## Symbols and storage -/

theorem variableKind_injective {a b : Option Nat}
    (h : Lower.variableKind a = Lower.variableKind b) : a = b := by
  cases a <;> cases b <;> cases h <;> rfl

theorem Denotes.unique {u v : Variable} {symbol : Symbol} (hu : Denotes u symbol)
    (hv : Denotes v symbol) (h : u.isGlobal = v.isGlobal) : u = v := by
  obtain ⟨isGlobal, name, ty, len⟩ := u
  obtain ⟨isGlobal', name', ty', len'⟩ := v
  cases h
  cases hu.name.symm.trans hv.name
  cases hu.ty.symm.trans hv.ty
  cases variableKind_injective (hu.kind.symm.trans hv.kind)
  rfl

variable {v : Variable}

theorem Denotes.stored {symbol : Symbol} (hd : Denotes v symbol) {env : Interface} {f : Function}
    {arrays : List Param} (h : symbol.Located env f arrays) :
    Stored env f arrays symbol.binding (Lower.storageType v.ty v.len) := by
  have hkind := hd.kind
  rw [← hd.ty]
  unfold Symbol.Located at h
  cases hlen : v.len with
  | none | some len =>
    rw [hlen] at hkind
    rw [hkind] at h
    exact h

theorem forall₂_denotes {vs : List Variable} {symbols : Symbols}
    (h : List.Forall₂ Denotes vs symbols) (hv : v ∈ vs) : ∃ symbol ∈ symbols, Denotes v symbol := by
  induction h with
  | nil => cases hv
  | @cons u symbol vs symbols hd _ ih =>
    rcases List.mem_cons.mp hv with rfl | hv
    · exact ⟨symbol, List.mem_cons_self, hd⟩
    · obtain ⟨t, ht, hd'⟩ := ih hv
      exact ⟨t, List.mem_cons_of_mem _ ht, hd'⟩

namespace Scene

variable {env : Env} {s : Lowering} {w : Spot}

/-- **The storage of the variables** is what their symbols are bound to. -/
theorem homes (h : Scene env s) (ha : Apart s w) : Homes s.symbols.home s.symbols := by
  refine SymbolTable.homes h.regular (fun symbol hsymbol _ => ?_) fun symbol hsymbol hproc => ?_
  · obtain ⟨label, symbols, hlocals, -⟩ := h.locals
    rw [SymbolTable.innermost, hlocals] at hsymbol
    obtain ⟨r, hr, -⟩ := (ha.locals ⟨label, symbols⟩ (by simp [hlocals])).2 symbol hsymbol
    rw [hr]
    rfl
  · obtain ⟨symbols, hglobals, -, hglobal⟩ := ha.globals
    rw [hglobals, List.mem_append] at hsymbol
    rcases hsymbol with hsymbol | hsymbol
    · obtain ⟨r, -, rfl⟩ := List.mem_map.mp hsymbol
      cases hproc
    · obtain ⟨name, len, -, hbinding, -⟩ := hglobal symbol hsymbol
      rw [hbinding]
      rfl

/-- A local variable, with its symbol and its register. -/
theorem local_home (h : Scene env s) (ha : Apart s w) (hv : v ∈ env.locals) :
    ∃ scope ∈ s.symbols.locals.head?, ∃ symbol ∈ scope.symbols, Denotes v symbol ∧
      symbol.binding = ⟨.ptr, s.symbols.home v⟩ ∧ ∃ r, s.symbols.home v = .register r := by
  obtain ⟨label, symbols, hlocals, hvs⟩ := h.locals
  obtain ⟨symbol, hsymbol, hd⟩ := forall₂_denotes hvs hv
  have hmem : (⟨label, symbols⟩ : Scope) ∈ s.symbols.locals := by simp [hlocals]
  have hinner : symbol ∈ s.symbols.innermost := by
    rw [SymbolTable.innermost, hlocals]
    exact hsymbol
  have hbinding := (h.homes ha).locals symbol hinner v hd (h.isLocal v hv)
  obtain ⟨r, hr, -⟩ := (ha.locals _ hmem).2 symbol hsymbol
  refine ⟨_, by rw [hlocals]; rfl, symbol, hsymbol, hd, hbinding, r, ?_⟩
  exact congrArg Value.operand (hbinding.symm.trans hr)

/-- A global variable, with its symbol and its name in the module. -/
theorem global_home (h : Scene env s) (ha : Apart s w) {symbols : Symbols}
    (hglobals : s.symbols.globals = Routine.callable.map Routine.symbol ++ symbols)
    (hv : v ∈ env.globals) :
    ∃ symbol ∈ symbols, Denotes v symbol ∧
      symbol.binding = ⟨.ptr, s.symbols.home v⟩ ∧ ∃ name, s.symbols.home v = .symbol name ∧
        s.builder.module.global? name =
          some ⟨name, Lower.storageType v.ty v.len, .variable⟩ := by
  obtain ⟨symbols1, hglobals1, hvs⟩ := h.globals
  cases List.append_cancel_left (hglobals1.symm.trans hglobals)
  obtain ⟨symbol, hsymbol, hd⟩ := forall₂_denotes hvs hv
  have hmem : symbol ∈ s.symbols.globals := by
    rw [hglobals]
    exact List.mem_append_right _ hsymbol
  have hbinding := (h.homes ha).globals symbol hmem v hd (h.isGlobal v hv)
  obtain ⟨symbols2, hglobals2, -, hglobal⟩ := ha.globals
  cases List.append_cancel_left (hglobals2.symm.trans hglobals)
  obtain ⟨name, len, hkind, haddress, hstored⟩ := hglobal symbol hsymbol
  cases variableKind_injective (hkind.symm.trans hd.kind)
  refine ⟨symbol, hsymbol, hd, hbinding, name, ?_, by rw [← hd.ty]; exact hstored⟩
  exact congrArg Value.operand (hbinding.symm.trans haddress)

theorem isGlobal_cases (h : Scene env s) (hv : v ∈ env.vars) :
    (v.isGlobal = false ∧ v ∈ env.locals) ∨ (v.isGlobal = true ∧ v ∈ env.globals) := by
  rcases List.mem_append.mp hv with hv | hv
  · exact Or.inl ⟨h.isLocal v hv, hv⟩
  · exact Or.inr ⟨h.isGlobal v hv, hv⟩

/-- **Every variable has storage of its own.** -/
theorem houses (h : Scene env s) (ha : Apart s w) {f : Function}
    (hs : s.symbols.Sound s.builder.module f []) :
    Houses s.builder.module f env.vars s.symbols.home where
  apart u hu v hv heq := by
    rcases h.isGlobal_cases hu with ⟨hlu, hu⟩ | ⟨hgu, hu⟩ <;>
      rcases h.isGlobal_cases hv with ⟨hlv, hv⟩ | ⟨hgv, hv⟩
    · obtain ⟨scope, hscope, symbol, hsymbol, hd, hbinding, -⟩ := h.local_home ha hu
      obtain ⟨scope', hscope', symbol', hsymbol', hd', hbinding', -⟩ := h.local_home ha hv
      cases Option.mem_unique hscope hscope'
      rw [heq, ← hbinding'] at hbinding
      have hnodup := (ha.locals scope (List.mem_of_mem_head? hscope)).1
      cases List.inj_on_of_nodup_map hnodup hsymbol hsymbol' hbinding
      exact hd.unique hd' (hlu.trans hlv.symm)
    · obtain ⟨symbols, hglobals, -⟩ := ha.globals
      obtain ⟨_, _, _, _, _, _, r, hr⟩ := h.local_home ha hu
      obtain ⟨_, _, _, _, name, hname, -⟩ := h.global_home ha hglobals hv
      rw [hr, hname] at heq
      cases heq
    · obtain ⟨symbols, hglobals, -⟩ := ha.globals
      obtain ⟨_, _, _, _, name, hname, -⟩ := h.global_home ha hglobals hu
      obtain ⟨_, _, _, _, _, _, r, hr⟩ := h.local_home ha hv
      rw [hr, hname] at heq
      cases heq
    · obtain ⟨symbols, hglobals, hnodup, -⟩ := ha.globals
      obtain ⟨symbol, hsymbol, hd, hbinding, -⟩ := h.global_home ha hglobals hu
      obtain ⟨symbol', hsymbol', hd', hbinding', -⟩ := h.global_home ha hglobals hv
      rw [heq, ← hbinding'] at hbinding
      cases List.inj_on_of_nodup_map hnodup hsymbol hsymbol' hbinding
      exact hd.unique hd' (hgu.trans hgv.symm)
  locals v hv hlocal := by
    rcases h.isGlobal_cases hv with ⟨-, hv⟩ | ⟨hglobal, -⟩
    · obtain ⟨scope, hscope, symbol, hsymbol, hd, hbinding, r, hr⟩ := h.local_home ha hv
      refine ⟨r, hr, ?_⟩
      have hstored := hd.stored (hs.locals scope hscope symbol hsymbol)
      rw [hbinding, hr] at hstored
      exact hstored.2.resolve_right List.not_mem_nil
    · rw [hglobal] at hlocal
      cases hlocal
  globals v hv hglobal := by
    rcases h.isGlobal_cases hv with ⟨hlocal, -⟩ | ⟨-, hv⟩
    · rw [hlocal] at hglobal
      cases hglobal
    · obtain ⟨symbols, hglobals, -⟩ := ha.globals
      obtain ⟨symbol, -, -, -, hname⟩ := h.global_home ha hglobals hv
      exact hname

end Scene

/-! ## Reserving storage -/

theorem storageType_cells (v : Variable) : (Lower.storageType v.ty v.len).cells = v.cells := by
  unfold Variable.cells
  cases v.len with
  | none => cases v.ty <;> rfl
  | some len => rfl

/-- Instructions that reserve storage give its address to their registers, and do nothing else. A
register that is written more than once is so for storage of one type. -/
theorem execCode_allocas {W : World} (m : Module) :
    ∀ (code : List Instr) (act : Activation W), (∀ i ∈ code, i.isAlloca = true) →
      ∃ act', execCode m code act = .ok ((), act') ∧ act'.mem = act.mem ∧ act'.trace = act.trace ∧
        ∀ (r : String) (ty : Ir.Ty), (∀ ty', .alloca r ty' ∈ code → ty' = ty) →
          (.alloca r ty ∈ code ∨ act.regs r = some (.address (.register r) ty.cells 0)) →
          act'.regs r = some (.address (.register r) ty.cells 0)
  | [], act, _ => ⟨act, rfl, rfl, rfl, fun _ _ _ h => h.resolve_left List.not_mem_nil⟩
  | i :: code, act, hall => by
    cases i with
    | alloca dest ty0 =>
      obtain ⟨act', hcode, hmem, htrace, hregs⟩ :=
        execCode_allocas m code (act.set dest (.address (.register dest) ty0.cells 0))
          fun i hi => hall i (List.mem_cons_of_mem _ hi)
      refine ⟨act', hcode, hmem, htrace, fun r ty hsame h => ?_⟩
      refine hregs r ty (fun ty' hty' => hsame ty' (List.mem_cons_of_mem _ hty')) ?_
      by_cases hr : r = dest
      · subst hr
        cases hsame ty0 List.mem_cons_self
        exact Or.inr (if_pos rfl)
      · refine h.imp (fun hmem => ?_) fun hreg => ?_
        · rcases List.mem_cons.mp hmem with heq | hmem
          · cases heq
            exact absurd rfl hr
          · exact hmem
        · exact (if_neg hr).trans hreg
    | _ => cases hall _ List.mem_cons_self

namespace Houses

variable {m : Module} {f : Function} {vars : List Variable} {home : Variable → Operand}
  {env : Interface} {arrays : List Param} {avail : Nat → String → Prop}

/-- Behind the reserved storage no instruction writes the register of a variable. -/
theorem spared (h : Houses m f vars home) (hf : f.Sound env arrays avail) {b : Block}
    (hb : b ∈ f.blocks) {i : Instr} (hi : i ∈ b.body) {r : String} (hr : i.dest? = some r)
    (hv : v ∈ vars) : home v ≠ .register r := by
  intro hhome
  cases hglobal : v.isGlobal with
  | true =>
    obtain ⟨name, hname, -⟩ := h.globals v hv hglobal
    rw [hname] at hhome
    cases hhome
  | false =>
    obtain ⟨r', hr', halloca⟩ := h.locals v hv hglobal
    rw [hr'] at hhome
    cases hhome
    have hmem : i ∈ f.instrs :=
      Function.mem_instrs.mpr ⟨b, hb, (List.dropWhile_sublist _).subset hi⟩
    obtain ⟨n, hn⟩ := List.getElem?_of_mem hb
    have hplain := (hf.reserved n b hn).1 i hi
    rw [hf.dest_unique hmem halloca hr rfl] at hplain
    cases hplain

/-- **A sound function with the storage of variables** is what comes out in the end. -/
def final (h : Houses m f vars home) (hf : f.Sound env arrays avail) (W : World) : Final W where
  module := m
  vars := vars
  home := home
  base := home
  fn := f
  labels {_ _ b c} hb hc hlabel := hf.target_unique ⟨b, hb, rfl⟩ ⟨c, hc, hlabel.symm⟩
  plain {n b} hn hb := (hf.reserved n b hb).2 hn
  spared _ hb _ hi _ hr _ hv := h.spared hf hb hi hr hv
  apart := h.apart

/-- The address of a variable, once its storage is reserved. -/
theorem eval (h : Houses m f vars home) {W : World} {regs : String → Option (Word W)}
    (hv : v ∈ vars)
    (hregs : ∀ r ty, .alloca r ty ∈ f.instrs → regs r = some (.address (.register r) ty.cells 0)) :
    Value.eval m regs ⟨.ptr, home v⟩ = some (.address (home v) v.cells 0) := by
  cases hglobal : v.isGlobal with
  | true =>
    obtain ⟨name, hname, hstored⟩ := h.globals v hv hglobal
    rw [hname, ← storageType_cells]
    simp only [Value.eval, hstored]
  | false =>
    obtain ⟨r, hr, halloca⟩ := h.locals v hv hglobal
    rw [hr, ← storageType_cells]
    exact hregs r _ halloca

/-- **The start of a run**: once storage is reserved, the run stands at the start of the program. -/
theorem start (h : Houses m f vars home) (hf : f.Sound env arrays avail) {W : World} {w : Spot}
    (hnumber : w.number = 0) (hbody : w.block.body = []) {contents : Variable → Nat → W.Val}
    {mem : Operand → Nat → W.Val} (hty : ∀ v ∈ vars, ∀ k < v.cells, (contents v k).ty = v.ty)
    (hmem : ∀ v ∈ vars, ∀ k < v.cells, mem (home v) k = contents v k) :
    ∃ k, (h.final hf W).Stands w ⟨contents, []⟩ (State.run m f k (.start f mem)) := by
  obtain ⟨b, hb, -⟩ := hf.entry
  have hall : ∀ i ∈ b.instrs.takeWhile Instr.isAlloca, i.isAlloca = true :=
    fun i hi => List.all_eq_true.mp List.all_takeWhile i hi
  obtain ⟨act, hcode, hkept, htrace, hregs⟩ :=
    execCode_allocas (W := W) m _ ⟨fun _ => none, mem, []⟩ hall
  refine ⟨(b.instrs.takeWhile Instr.isAlloca).length, act, ?_, ?_⟩
  · have hrest : (h.final hf W).rest w = b.body := by
      rw [Final.rest, hnumber, hbody, show (h.final hf W).fn.blocks[0]? = some b from hb]
      rfl
    have hinstrs : b.instrs.takeWhile Instr.isAlloca ++ b.body = b.instrs :=
      List.takeWhile_append_dropWhile
    have hrun : State.run m f (b.instrs.takeWhile Instr.isAlloca).length
        (.running (b.instrs.takeWhile Instr.isAlloca ++ b.body) ⟨fun _ => none, mem, []⟩) =
          .running b.body act := State.run_code hcode
    rw [hinstrs] at hrun
    rw [hrest, State.start, List.head?_eq_getElem?, hb]
    exact hrun
  · refine ⟨htrace, fun v hv k hk => ?_, hty, fun v hv => ?_⟩
    · rw [hkept]
      exact hmem v hv k hk
    · refine h.eval hv fun r ty halloca => ?_
      obtain ⟨b', hb', hfirst⟩ := hf.alloca_mem_entry halloca
      rw [hb] at hb'
      cases hb'
      refine hregs r ty (fun ty' hty' => ?_) (Or.inl hfirst)
      have hmem' : .alloca r ty' ∈ f.instrs :=
        Function.mem_instrs_of_getElem? hb ((List.takeWhile_sublist _).subset hty')
      cases hf.dest_unique hmem' halloca rfl rfl
      rfl

end Houses

end ProcLang
