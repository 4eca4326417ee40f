import ProcLang.Proofs.Meaning.Expr
import ProcLang.Proofs.Meaning.Layout
import ProcLang.Proofs.Meaning.Report

/-!
# Declarations

A declaration without errors adds no code: storage is reserved at the start of the function or in
the module, and a symbol that stands for the variable comes to the table.

* `declareVariable_leads`: the symbols again stand for the variables, and no two share storage.
-/

namespace ProcLang

open Ir Naming

variable {env : Env} {s s' : Lowering} {w : Spot}

/-! ## Storage -/

/-- **Storage of a local variable** is reserved at the start of the function, under a new name. -/
theorem alloca_adds (hs : s.At w) {ty : Ir.Ty} {hint : String} {v : Value}
    (run : Lower.build (.alloca ty hint) s = .ok (v, s')) :
    v = .register .ptr (numbered hint w.fn.nextId) ∧ ∃ w', s.Adds w [] s' w' ∧
      w'.fn.nextId = w.fn.nextId + 1 := by
  obtain ⟨b, hb, rfl⟩ := build_inv run
  rw [Build.alloca_run hs.placed] at hb
  cases hb
  generalize hi : Instr.alloca (w.fn.freshName hint) ty = i
  have ha : i.isAlloca = true := by
    rw [← hi]
    rfl
  have grown : w.fn.GrowsTo (w.fn.tick.modifyBlock 0 (·.pushAlloca i)) :=
    (Function.GrowsTo.tick w.fn).trans (.pushAlloca _ 0 ha)
  have kept : ∀ (n : Nat) (b b' : Block), w.fn.blocks[n]? = some b →
      (w.fn.tick.modifyBlock 0 (·.pushAlloca i)).blocks[n]? = some b' → b'.body = b.body := by
    intro n b b' hb hb'
    rcases Function.modifyBlock_getElem? hb' with ⟨rfl, b0, hb0, rfl⟩ | ⟨-, hb''⟩
    · rw [Function.tick_blocks, hb] at hb0
      cases hb0
      exact Block.body_pushAlloca ha b
    · rw [Function.tick_blocks, hb] at hb''
      cases hb''
      rfl
  obtain ⟨b', hb', -⟩ := grown.blocks w.number w.block hs.block
  have hbody : b'.body = w.block.body := kept w.number w.block b' hs.block hb'
  have hlt : w.number < (w.fn.tick.modifyBlock 0 (·.pushAlloca i)).blocks.length :=
    (List.getElem?_eq_some_iff.mp hb').1
  refine ⟨rfl, ⟨w.index, _, w.number, b'⟩, ⟨⟨?_, rfl, rfl, rfl⟩, ⟨⟨hs.placed.put hlt, hb'⟩, ?_⟩,
    ⟨rfl, rfl, ?_, grown, fun n b b' _ => kept n b b'⟩⟩, rfl⟩
  · exact hs.placed.put_growsTo (g := w.fn.tick.modifyBlock 0 _) rfl _
  · rw [Block.isTerminated_congr hbody]
    exact hs.isOpen
  · rw [hbody, List.append_nil]

/-- **Storage of a global variable** has a name that was not taken. -/
theorem globalStorage_adds (hs : s.At w) {line : Nat} {name : String} {storage : Ir.Ty} {ty : Ty}
    {kind : SymbolKind} {symbol : Symbol}
    (run : Lower.globalStorage line name storage ty kind s = .ok (some symbol, s')) :
    symbol.name = name ∧ symbol.ty = ty ∧ symbol.kind = kind ∧ s.Adds w [] s' w ∧
      ∃ x, symbol.binding = .address x ∧ s.builder.module.global? x = none ∧
        s'.builder.module.global? x = some ⟨x, storage, .variable⟩ := by
  obtain ⟨outcome, s1, run1, rest1⟩ := run_bind_inv run
  cases outcome with
  | ok binding =>
    cases rest1
    obtain ⟨rfl, hputs, hnone, hsome⟩ := addGlobal_puts hs.toIn run1
    exact ⟨rfl, rfl, rfl, hputs.adds hs, name, rfl, hnone, hsome⟩
  | error e =>
    -- the name is taken, and a unique one stands in for it
    have hs1 : s1 = s := by
      obtain ⟨b, hb, rfl⟩ := build_inv run1
      cases htaken : s.builder.module.hasSymbol name with
      | true =>
        rw [Build.globalVariable, Build.addGlobal_taken htaken] at hb
        cases hb
        rfl
      | false =>
        rw [Build.globalVariable, Build.addGlobal_new htaken] at hb
        cases hb
    subst hs1
    obtain ⟨unique, s2, run2, rest2⟩ := run_bind_inv rest1
    cases run2
    obtain ⟨outcome, s3, run3, rest3⟩ := run_bind_inv rest2
    cases outcome with
    | error e => cases rest3
    | ok binding =>
      cases rest3
      have htick : s1.Puts w [] { s1 with symbols := s1.symbols.tick } w :=
        outside_puts hs.toIn ⟨.refl _, rfl, rfl, rfl⟩ rfl rfl
      obtain ⟨rfl, hputs, hnone, hsome⟩ := addGlobal_puts htick.placed run3
      exact ⟨rfl, rfl, rfl, (htick.trans hputs).adds hs, _, rfl, hnone, hsome⟩

/-! ## Symbols -/

theorem lengthOf_eq {name : String} {bound : Option Int} {len : Option Nat}
    (h : Lower.lengthOf name bound = .ok len) : len = bound.map Int.toNat := by
  cases bound with
  | none =>
    cases h
    rfl
  | some bound =>
    by_cases hb : 0 < bound ∧ bound ≤ 0xFFFFFFFF
    · rw [Lower.lengthOf, Lower.arrayLength, if_pos hb] at h
      cases h
      rfl
    · rw [Lower.lengthOf, Lower.arrayLength, if_neg hb] at h
      cases h

theorem declared?_eq {decl : VariableDecl} {ty : Ty} (h : Lower.resolveType decl.mark = .ok ty) :
    decl.declared? = some ⟨decl.isGlobal, decl.name, ty, decl.bound.map Int.toNat⟩ := by
  unfold VariableDecl.declared?
  cases hmark : decl.mark with
  | builtin ty' =>
    rw [hmark] at h
    cases h
    rfl
  | _ =>
    rw [hmark] at h
    cases h

/-- What a declaration without errors went through. -/
theorem declareVariable_inv {decl : VariableDecl}
    (run : Lower.declareVariable decl s = .ok (some (), s')) :
    ∃ ty len symbol s1 symbols, decl.declared? = some ⟨decl.isGlobal, decl.name, ty, len⟩ ∧
      Lower.storage decl ty len s = .ok (some symbol, s1) ∧
      s1.symbols.add symbol decl.isGlobal = .ok symbols ∧ s' = { s1 with symbols } := by
  obtain ⟨ty, _, run1, rest1⟩ := run_bind_inv run
  cases ty with
  | none => cases rest1
  | some ty =>
    obtain ⟨hty, hs1⟩ := orReport_inv run1
    rw [hs1] at rest1
    obtain ⟨_, _, hget, rest2⟩ := run_bind_inv rest1
    cases hget
    by_cases hdeclared : s.symbols.isDeclared decl.name decl.isGlobal = true
    · rw [if_pos hdeclared] at rest2
      cases rest2
    · rw [if_neg hdeclared] at rest2
      obtain ⟨len, _, run2, rest3⟩ := run_bind_inv rest2
      cases len with
      | none => cases rest3
      | some len =>
        obtain ⟨hlen, hs2⟩ := orReport_inv run2
        rw [hs2] at rest3
        obtain ⟨symbol, s1, run3, rest4⟩ := run_bind_inv rest3
        cases symbol with
        | none => cases rest4
        | some symbol =>
          obtain ⟨_, _, hget, rest5⟩ := run_bind_inv rest4
          cases hget
          cases hadd : s1.symbols.add symbol decl.isGlobal with
          | error e =>
            rw [hadd] at rest5
            cases rest5
          | ok symbols =>
            rw [hadd] at rest5
            cases rest5
            exact ⟨ty, len, symbol, s1, symbols, by rw [lengthOf_eq hlen]; exact declared?_eq hty,
              run3, hadd, rfl⟩

theorem Env.vars_subset_add (env : Env) (v : Variable) : env.vars ⊆ (env.add v).vars := by
  intro u hu
  unfold Env.vars at hu ⊢
  unfold Env.add
  split
  · rw [← List.append_assoc]
    exact List.mem_append_left _ hu
  · rcases List.mem_append.mp hu with hu | hu
    · exact List.mem_append_left _ (List.mem_append_left _ hu)
    · exact List.mem_append_right _ hu

variable {s1 : Lowering} {w' : Spot} {v : Variable} {symbol : Symbol} {symbols : SymbolTable}

/-- **A local variable** comes to the symbols. -/
theorem insert_local_leads (hscene : Scene env s) (hstill : s.Still s1) (hv : v.isGlobal = false)
    (hd : Denotes v symbol) (hadd : s1.symbols.add symbol false = .ok symbols) (hw : w.Roams w')
    {hint : String} (hbinding : symbol.binding = .register .ptr (numbered hint w.fn.nextId))
    (hid : w'.fn.nextId = w.fn.nextId + 1) : Leads env s w (env.add v) { s1 with symbols } w' := by
  obtain ⟨hdeclared, rfl⟩ := SymbolTable.add_inv hadd
  obtain ⟨label, old, hlocals, hvs⟩ := hscene.locals
  have hscene1 := hstill.scene hscene
  have hlocals1 : s1.symbols.locals = [⟨label, old⟩] := hstill.locals.trans hlocals
  have hregular := hscene1.regular.insert (by simp [hlocals1]) hdeclared
  rw [SymbolTable.insert_local hlocals1] at hregular ⊢
  have henv : env.add v = { env with locals := env.locals ++ [v] } := by
    rw [Env.add, hv]
    rfl
  refine ⟨hw, hstill.module, ⟨?_, ?_⟩, env.vars_subset_add v, ?_, ?_⟩
  · rw [SymbolTable.innermost, hlocals]
    exact List.subset_append_left _ _
  · change s.symbols.globals ⊆ s1.symbols.globals
    rw [hstill.globals]
    exact List.Subset.refl _
  · rw [henv]
    refine ⟨⟨label, _, rfl, ?_⟩, hscene1.globals, ?_, hscene.isGlobal, hregular, hscene1.functions,
      hscene1.frames⟩
    · exact List.rel_append hvs (.cons ⟨hd.name, hd.ty, hd.kind⟩ .nil)
    · intro u hu
      rcases List.mem_append.mp hu with hu | hu
      · exact hscene.isLocal u hu
      · rw [List.mem_singleton.mp hu]
        exact hv
  · intro hapart
    refine ⟨fun scope hscope => ?_, (hstill.apart hw.fn hapart).globals⟩
    rw [List.mem_singleton.mp hscope]
    obtain ⟨hnodup, hissued⟩ := hapart.locals ⟨label, old⟩ (by simp [hlocals])
    constructor
    · -- the register is new, so no symbol has it
      rw [List.map_append, List.map_singleton]
      refine List.nodup_append.mpr ⟨hnodup, List.nodup_singleton _, ?_⟩
      intro a ha b hb
      obtain ⟨t, ht, rfl⟩ := List.mem_map.mp ha
      obtain ⟨r, hr, hr'⟩ := hissued t ht
      rw [List.mem_singleton.mp hb, hr, hbinding]
      intro heq
      cases heq
      exact not_issued_numbered _ _ hr'
    · intro t ht
      rcases List.mem_append.mp ht with ht | ht
      · obtain ⟨r, hr, hr'⟩ := hissued t ht
        exact ⟨r, hr, hr'.mono (by omega)⟩
      · rw [List.mem_singleton.mp ht, hid]
        exact ⟨_, hbinding, issued_numbered _ _⟩

/-- **A global variable** comes to the symbols. -/
theorem insert_global_leads (hscene : Scene env s) (hstill : s.Still s1) (hv : v.isGlobal = true)
    (hd : Denotes v symbol) (hadd : s1.symbols.add symbol true = .ok symbols) (hw : w.Roams w')
    {x : String} (hbinding : symbol.binding = .address x) (hnew : s.builder.module.global? x = none)
    (hx : s1.builder.module.global? x = some ⟨x, Lower.storageType v.ty v.len, .variable⟩) :
    Leads env s w (env.add v) { s1 with symbols } w' := by
  obtain ⟨hdeclared, rfl⟩ := SymbolTable.add_inv hadd
  obtain ⟨old, hglobals, hvs⟩ := hscene.globals
  have hscene1 := hstill.scene hscene
  have hglobals1 : s1.symbols.globals = Routine.callable.map Routine.symbol ++ old :=
    hstill.globals.trans hglobals
  obtain ⟨label, locals, hlocals1, -⟩ := hscene1.locals
  have hregular := hscene1.regular.insert (by simp [hlocals1]) hdeclared
  rw [SymbolTable.insert_global, hglobals1, List.append_assoc] at hregular ⊢
  have henv : env.add v = { env with globals := env.globals ++ [v] } := by
    rw [Env.add, hv]
    rfl
  refine ⟨hw, hstill.module, ⟨?_, ?_⟩, env.vars_subset_add v, ?_, ?_⟩
  · exact hstill.symbols.locals
  · rw [hglobals, ← List.append_assoc]
    exact List.subset_append_left _ _
  · rw [henv]
    refine ⟨hscene1.locals, ⟨_, rfl, ?_⟩, hscene.isLocal, ?_, hregular, hscene1.functions,
      hscene1.frames⟩
    · exact List.rel_append hvs (.cons ⟨hd.name, hd.ty, hd.kind⟩ .nil)
    · intro u hu
      rcases List.mem_append.mp hu with hu | hu
      · exact hscene.isGlobal u hu
      · rw [List.mem_singleton.mp hu]
        exact hv
  · intro hapart
    refine ⟨(hstill.apart hw.fn hapart).locals, _, rfl, ?_⟩
    obtain ⟨symbols, hsymbols, hnodup, hnamed⟩ := hapart.globals
    rw [hglobals] at hsymbols
    cases List.append_cancel_left hsymbols
    constructor
    · -- the name was free, so no symbol has it
      rw [List.map_append, List.map_singleton]
      refine List.nodup_append.mpr ⟨hnodup, List.nodup_singleton _, ?_⟩
      intro a ha b hb
      obtain ⟨t, ht, rfl⟩ := List.mem_map.mp ha
      obtain ⟨name, len, -, hname, hglobal⟩ := hnamed t ht
      rw [List.mem_singleton.mp hb, hname, hbinding]
      intro heq
      cases heq
      rw [hnew] at hglobal
      cases hglobal
    · intro t ht
      rcases List.mem_append.mp ht with ht | ht
      · exact (hnamed t ht).mono hstill.module
      · rw [List.mem_singleton.mp ht]
        exact ⟨x, v.len, hd.kind, hbinding, by rw [hd.ty]; exact hx⟩

/-- **A declaration** without errors adds the variable and no code. -/
theorem declareVariable_leads (hs : s.At w) (hscene : Scene env s) {decl : VariableDecl}
    {r : Option Unit} (run : Lower.declareVariable decl s = .ok (r, s'))
    (herrors : s'.errors = s.errors) :
    ∃ v w', decl.declared? = some v ∧ s'.At w' ∧ w.Adds [] w' ∧
      Leads env s w (env.add v) s' w' := by
  obtain ⟨⟨⟩, rfl⟩ :=
    Option.isSome_iff_exists.mp ((tells_declareVariable decl s s' r run).2 herrors)
  obtain ⟨ty, len, symbol, s1, symbols, hv, hstorage, hadd, rfl⟩ := declareVariable_inv run
  cases hglobal : decl.isGlobal with
  | true =>
    rw [Lower.storage, hglobal] at hstorage
    obtain ⟨hname, hty, hkind, hadds, x, hbinding, hnew, hsome⟩ := globalStorage_adds hs hstorage
    refine ⟨_, w, hv, ⟨⟨hadds.placed.placed, hadds.placed.block⟩, hadds.placed.isOpen⟩,
      hadds.spot, ?_⟩
    exact insert_global_leads hscene hadds.toStill hglobal ⟨hname, hty, hkind⟩ (hglobal ▸ hadd)
      hadds.spot.roams hbinding hnew hsome
  | false =>
    rw [Lower.storage, hglobal] at hstorage
    obtain ⟨binding, s2, run1, run2⟩ := run_bind_inv hstorage
    cases run2
    obtain ⟨rfl, w', hadds, hid⟩ := alloca_adds hs run1
    refine ⟨_, w', hv, ⟨⟨hadds.placed.placed, hadds.placed.block⟩, hadds.placed.isOpen⟩, hadds.spot,
      ?_⟩
    exact insert_local_leads hscene hadds.toStill hglobal ⟨rfl, rfl, rfl⟩ (hglobal ▸ hadd)
      hadds.spot.roams rfl hid

end ProcLang
