import Mathlib.Data.List.Forall2
import ProcLang.Proofs.Scopes

/-!
# Symbol tables and their history

A symbol table is told by the operations that were done on it: symbols were added and given other
bindings, scopes were opened and closed. A `History` lists them, and says without a table what a
name stands for. A scope is known by the time at which it was opened, and an `Addition` by the time
at which it took place.

* `History.openScopes`: the scopes that are open;
* `History.added?`: the addition of a name to a scope that took place, which is the first one;
* `History.resolve?`: the addition that a name refers to: that of the innermost open scope that has
  one, or that of the global scope;
* `History.bindingOf`: the binding of the last update that took place and referred to an addition.

`table_reflects_history` says that the table agrees with its history, and which operations it
refuses.
-/

namespace ProcLang

/-- An operation that changes a symbol table. -/
inductive TableOp where
  | add (symbol : Symbol) (isGlobal : Bool)
  | update (symbol : Symbol)
  | push (label : String)
  | pop
deriving DecidableEq

/-- The operations on a table that was empty at first, the last one first. The time of an operation
is the number of operations before it. -/
abbrev History := List TableOp

/-- An addition of a symbol that took place. -/
structure Addition where
  /-- The time at which the scope was opened, none for the global scope. -/
  scope : Option Nat
  time : Nat
  symbol : Symbol
deriving DecidableEq

namespace History

/-- The times at which the scopes were opened that are open now, the innermost first. -/
def openScopes : History → List Nat
  | [] => []
  | .push _ :: past => past.length :: openScopes past
  | .pop :: past => (openScopes past).tail
  | .add _ _ :: past | .update _ :: past => openScopes past

/-- Scopes are closed only where one is open. -/
def Balanced : History → Prop
  | [] => True
  | .pop :: past => openScopes past ≠ [] ∧ Balanced past
  | .add _ _ :: past | .update _ :: past | .push _ :: past => Balanced past

/-- The scope to which a symbol is added next. -/
def selected (h : History) (isGlobal : Bool) : Option Nat :=
  if isGlobal then none else (openScopes h).head?

/-- The addition of a name to a scope that an operation asks for. -/
def asked? (scope : Option Nat) (name : String) (past : History) : TableOp → Option Addition
  | .add symbol isGlobal =>
    if symbol.name = name ∧ selected past isGlobal = scope then
      some ⟨scope, past.length, symbol⟩
    else
      none
  | .update _ | .push _ | .pop => none

/-- The addition of a name to a scope that took place: the first that was asked for. -/
def added? (scope : Option Nat) (name : String) : History → Option Addition
  | [] => none
  | op :: past => (added? scope name past).or (asked? scope name past op)

/-- The addition that a name refers to. -/
def resolve? (h : History) (name : String) : Option Addition :=
  ((openScopes h).map some ++ [none]).findSome? fun scope => added? scope name h

/-- The binding of what was added: that of the last update which referred to it and had its type and
kind, or the one that it was added with. -/
def bindingOf (a : Addition) : History → Ir.Value
  | [] => a.symbol.binding
  | .update symbol :: past =>
    if resolve? past symbol.name = some a ∧ a.symbol.ty = symbol.ty ∧
        a.symbol.kind = symbol.kind then
      symbol.binding
    else
      bindingOf a past
  | .add _ _ :: past | .push _ :: past | .pop :: past => bindingOf a past

/-- The number of open scopes from the one that was opened at a time outwards. -/
def depthOf (h : History) (time : Nat) : Nat :=
  ((openScopes h).dropWhile (· ≠ time)).length

/-- What was added, as it stands now. -/
def standing (h : History) (a : Addition) : Symbol :=
  { a.symbol with binding := bindingOf a h, frame := a.scope.map (depthOf h) }

/-- What a name stands for. -/
def lookup? (h : History) (name : String) : Option Symbol :=
  (resolve? h name).map (standing h)

/-! ## Times -/

variable {h : History} {a : Addition} {scope : Option Nat} {name : String}

theorem openScopes_lt : ∀ {h : History} {time : Nat}, time ∈ openScopes h → time < h.length
  | .push _ :: past, time, hmem => by
    rcases List.mem_cons.mp hmem with rfl | hmem
    · exact Nat.lt_succ_self _
    · exact Nat.lt_succ_of_lt (openScopes_lt hmem)
  | .pop :: past, time, hmem =>
    Nat.lt_succ_of_lt (openScopes_lt (List.mem_of_mem_tail hmem))
  | .add _ _ :: past, time, hmem | .update _ :: past, time, hmem =>
    Nat.lt_succ_of_lt (openScopes_lt (h := past) hmem)

theorem openScopes_nodup : ∀ h : History, (openScopes h).Nodup
  | [] => List.nodup_nil
  | .push _ :: past =>
    List.nodup_cons.mpr ⟨fun hmem => Nat.lt_irrefl _ (openScopes_lt hmem), openScopes_nodup past⟩
  | .pop :: past => (openScopes_nodup past).tail
  | .add _ _ :: past | .update _ :: past => openScopes_nodup past

/-- What is asked for is an addition of the name to the scope, now. -/
theorem asked?_eq_some {past : History} {op : TableOp} (ha : asked? scope name past op = some a) :
    a.scope = scope ∧ a.symbol.name = name ∧ a.time = past.length ∧
      ∀ time ∈ scope, time ∈ openScopes past := by
  cases op with
  | add symbol isGlobal =>
    rw [asked?] at ha
    split at ha
    · rename_i hop
      cases ha
      refine ⟨rfl, hop.1, rfl, fun time hscope => ?_⟩
      rw [← hop.2, selected] at hscope
      split at hscope
      · cases hscope
      · exact List.mem_of_mem_head? hscope
    · cases ha
  | _ => cases ha

theorem added?_eq_some : ∀ {h : History}, added? scope name h = some a →
    a.scope = scope ∧ a.symbol.name = name ∧ a.time < h.length ∧ ∀ time ∈ scope, time < h.length
  | op :: past, ha => by
    rw [added?] at ha
    rcases Option.or_eq_some_iff.mp ha with hold | ⟨-, hnew⟩
    · obtain ⟨hscope, hname, htime, hopened⟩ := added?_eq_some hold
      exact ⟨hscope, hname, Nat.lt_succ_of_lt htime,
        fun time ht => Nat.lt_succ_of_lt (hopened time ht)⟩
    · obtain ⟨hscope, hname, htime, hopened⟩ := asked?_eq_some hnew
      exact ⟨hscope, hname, htime ▸ Nat.lt_succ_self _,
        fun time ht => Nat.lt_succ_of_lt (openScopes_lt (hopened time ht))⟩

theorem resolve?_eq_some (ha : resolve? h name = some a) : added? a.scope name h = some a := by
  obtain ⟨scope, -, hadded⟩ := List.exists_of_findSome?_eq_some ha
  rw [(added?_eq_some hadded).1]
  exact hadded

/-- Nothing can refer to an addition before it took place. -/
theorem bindingOf_of_le : ∀ {h : History}, h.length ≤ a.time → bindingOf a h = a.symbol.binding
  | [], _ => rfl
  | .update symbol :: past, hle => by
    have hpast : past.length ≤ a.time := Nat.le_of_succ_le hle
    rw [bindingOf, if_neg, bindingOf_of_le hpast]
    rintro ⟨hresolve, -⟩
    have htime := (added?_eq_some (resolve?_eq_some hresolve)).2.2.1
    omega
  | .add _ _ :: past, hle | .push _ :: past, hle | .pop :: past, hle =>
    bindingOf_of_le (h := past) (Nat.le_of_succ_le hle)

/-! ## What stands after an operation -/

theorem standing_update (symbol : Symbol) (h : History) (a : Addition) :
    standing (.update symbol :: h) a =
      if resolve? h symbol.name = some a ∧ a.symbol.ty = symbol.ty ∧
          a.symbol.kind = symbol.kind then
        { standing h a with binding := symbol.binding }
      else standing h a := by
  unfold standing
  rw [bindingOf]
  split <;> rfl

/-- The scope that is opened is none of those that were open before. -/
theorem standing_push {label : String} (ha : added? scope name h = some a) :
    standing (.push label :: h) a = standing h a := by
  obtain ⟨rfl, -, -, hopened⟩ := added?_eq_some ha
  have hdepth : a.scope.map (depthOf (.push label :: h)) = a.scope.map (depthOf h) := by
    refine Option.map_congr fun time ht => ?_
    have hne : h.length ≠ time := Nat.ne_of_gt (hopened time ht)
    simp [depthOf, openScopes, hne]
  unfold standing
  rw [hdepth]
  rfl

/-- Closing the innermost scope leaves what was added outside of it. -/
theorem standing_pop (ha : added? scope name h = some a)
    (hinner : ∀ time ∈ scope, time ∈ (openScopes h).tail) :
    standing (.pop :: h) a = standing h a := by
  obtain ⟨rfl, -, -, -⟩ := added?_eq_some ha
  have hdepth : a.scope.map (depthOf (.pop :: h)) = a.scope.map (depthOf h) := by
    refine Option.map_congr fun time ht => ?_
    have hnodup := openScopes_nodup h
    have hmem := hinner time ht
    unfold depthOf
    rw [openScopes]
    cases hopen : openScopes h with
    | nil => rfl
    | cons innermost outer =>
      rw [hopen] at hmem hnodup
      have hne : innermost ≠ time := by
        rintro rfl
        exact (List.nodup_cons.mp hnodup).1 hmem
      simp [hne]
  unfold standing
  rw [hdepth]
  rfl

end History

/-! ## Scopes of a table -/

namespace Symbols

theorem get?_concat (symbols : Symbols) (symbol : Symbol) (name : String) :
    get? (symbols ++ [symbol]) name =
      (symbols.get? name).or (if symbol.name = name then some symbol else none) := by
  unfold get?
  rw [List.find?_append]
  congr 1
  by_cases hname : symbol.name = name <;> simp [hname]

theorem get?_rebind (symbols : Symbols) (name name' : String) (binding : Ir.Value) :
    (symbols.rebind name binding).get? name' =
      (symbols.get? name').map fun s => if name' = name then { s with binding } else s := by
  unfold rebind get?
  rw [List.find?_map]
  have hname : ((fun s : Symbol => s.name == name') ∘
      fun s => if s.name = name then { s with binding } else s) = fun s => s.name == name' := by
    funext s
    dsimp only [Function.comp]
    split <;> rfl
  rw [hname]
  refine Option.map_congr fun s hs => ?_
  have : s.name = name' := by simpa using List.find?_some hs
  rw [this]

end Symbols

/-! ## Scopes that hold what was added -/

open History

/-- The symbols are those that were added to a scope. -/
def Holds (h : History) (scope : Option Nat) (symbols : Symbols) : Prop :=
  ∀ name, symbols.get? name = (added? scope name h).map (standing h)

namespace Holds

variable {h h' : History} {scope : Option Nat} {symbols : Symbols} {symbol : Symbol}
  {isGlobal : Bool} {a : Addition} (hs : Holds h scope symbols)

include hs

theorem contains (name : String) : symbols.contains name = (added? scope name h).isSome := by
  rw [Symbols.contains, hs name, Option.isSome_map]

/-- A scope holds what it held where nothing was added to it and everything stands as before. -/
theorem same (hadded : ∀ name, added? scope name h' = added? scope name h)
    (hstanding : ∀ {name a}, added? scope name h = some a → standing h' a = standing h a) :
    Holds h' scope symbols := by
  intro name
  rw [hs name, hadded name]
  exact (Option.map_congr fun a ha => hstanding ha).symm

theorem push (label : String) : Holds (.push label :: h) scope symbols :=
  hs.same (fun _ => Option.or_none) standing_push

theorem pop (hinner : ∀ time ∈ scope, time ∈ (openScopes h).tail) :
    Holds (.pop :: h) scope symbols :=
  hs.same (fun _ => Option.or_none) fun ha => standing_pop ha hinner

/-- A scope that is not selected holds what it held. -/
theorem unselected (hne : selected h isGlobal ≠ scope) :
    Holds (.add symbol isGlobal :: h) scope symbols := by
  refine hs.same (fun name => ?_) fun _ => rfl
  rw [added?, asked?, if_neg fun hop => hne hop.2, Option.or_none]

/-- A scope that has the name holds what it held. -/
theorem declared (hdeclared : (added? (selected h isGlobal) symbol.name h).isSome) :
    Holds (.add symbol isGlobal :: h) scope symbols := by
  refine hs.same (fun name => ?_) fun _ => rfl
  rw [added?, asked?]
  split
  · rename_i hop
    rw [hop.1, hop.2] at hdeclared
    exact Option.or_of_isSome hdeclared
  · rw [Option.or_none]

/-- The scope that is selected gains the symbol. -/
theorem concat (hsel : selected h isGlobal = scope) :
    Holds (.add symbol isGlobal :: h) scope
      (symbols ++ [{ symbol with frame := scope.map (depthOf h) }]) := by
  intro name
  rw [Symbols.get?_concat, hs name, added?, asked?, Option.map_or]
  congr 1
  by_cases hname : symbol.name = name
  · rw [if_pos hname, if_pos ⟨hname, hsel⟩, Option.map_some, standing, bindingOf,
      bindingOf_of_le (Nat.le_refl _)]
    rfl
  · rw [if_neg hname, if_neg fun hop => hname hop.1]
    rfl

/-- A scope holds what it held where an update refers to nothing in it. -/
theorem unresolved (hne : ∀ a, resolve? h symbol.name = some a → a.symbol.ty = symbol.ty →
      a.symbol.kind = symbol.kind → a.scope ≠ scope) :
    Holds (.update symbol :: h) scope symbols := by
  refine hs.same (fun _ => Option.or_none) fun {_ a} ha => ?_
  rw [standing_update, if_neg]
  rintro ⟨hres, hty, hkind⟩
  exact hne a hres hty hkind (added?_eq_some ha).1

/-- The same where an update refers to something in another scope. -/
theorem elsewhere (hres : resolve? h symbol.name = some a) (hne : a.scope ≠ scope) :
    Holds (.update symbol :: h) scope symbols := by
  refine hs.unresolved fun b hb _ _ => ?_
  cases hres.symm.trans hb
  exact hne

/-- The scope of the symbol that an update refers to holds it with the other binding. -/
theorem rebind (hres : resolve? h symbol.name = some a) (hscope : a.scope = scope)
    (hty : a.symbol.ty = symbol.ty) (hkind : a.symbol.kind = symbol.kind) :
    Holds (.update symbol :: h) scope (symbols.rebind symbol.name symbol.binding) := by
  have hadded := resolve?_eq_some hres
  rw [hscope] at hadded
  intro name
  rw [Symbols.get?_rebind, hs name, added?, asked?, Option.or_none, Option.map_map]
  refine Option.map_congr fun b hb => ?_
  rw [standing_update, Function.comp]
  by_cases hname : name = symbol.name
  · subst hname
    cases hb.symm.trans hadded
    rw [if_pos rfl, if_pos ⟨hres, hty, hkind⟩]
  · rw [if_neg hname, if_neg]
    rintro ⟨hb', -⟩
    cases hres.symm.trans hb'
    exact hname ((added?_eq_some hb).2.1.symm.trans (added?_eq_some hadded).2.1)

end Holds

/-- The scopes of a table hold what was added to the open scopes of a history. -/
structure Reflects (h : History) (t : SymbolTable) : Prop where
  locals : List.Forall₂ (fun scope time => Holds h (some time) scope.symbols) t.locals
    (openScopes h)
  globals : Holds h none t.globals

namespace Reflects

variable {h h' : History} {t : SymbolTable} {scopes : List Scope} {times : List Nat}

/-- Every scope is seen to hold what it should on its own. -/
theorem locals_imp
    (r : List.Forall₂ (fun scope time => Holds h (some time) scope.symbols) scopes times)
    (himp : ∀ time ∈ times, ∀ {symbols}, Holds h (some time) symbols →
      Holds h' (some time) symbols) :
    List.Forall₂ (fun scope time => Holds h' (some time) scope.symbols) scopes times := by
  induction r with
  | nil => exact .nil
  | cons hs _ ih =>
    exact .cons (himp _ List.mem_cons_self hs)
      (ih fun time ht => himp time (List.mem_cons_of_mem _ ht))

/-! ## Looking up -/

theorem lookupLocal? (name : String)
    (r : List.Forall₂ (fun scope time => Holds h (some time) scope.symbols) scopes times) :
    SymbolTable.lookupLocal? name scopes =
      (times.findSome? fun time => added? (some time) name h).map (standing h) := by
  unfold SymbolTable.lookupLocal?
  induction r with
  | nil => rfl
  | cons hs _ ih =>
    rw [List.findSome?_cons, List.findSome?_cons, hs name]
    cases added? _ name h with
    | none => exact ih
    | some a => rfl

theorem resolve?_eq (h : History) (name : String) :
    resolve? h name =
      ((openScopes h).findSome? fun time => added? (some time) name h).or (added? none name h) := by
  unfold resolve?
  rw [List.findSome?_append, List.findSome?_map]
  congr 1
  rw [List.findSome?_cons]
  cases added? none name h <;> rfl

/-- **A name stands for what its history says.** -/
theorem lookup? (r : Reflects h t) (name : String) : t.lookup? name = History.lookup? h name := by
  unfold SymbolTable.lookup? History.lookup?
  rw [lookupLocal? name r.locals, r.globals name, resolve?_eq, Option.map_or]

/-- **A name is declared** if it was added to the scope that is selected. -/
theorem isDeclared (r : Reflects h t) (name : String) (isGlobal : Bool) :
    t.isDeclared name isGlobal = (added? (selected h isGlobal) name h).isSome := by
  unfold SymbolTable.isDeclared selected
  cases isGlobal with
  | true => exact r.globals.contains name
  | false =>
    have hlocals := r.locals
    unfold SymbolTable.containsInCurrent
    cases hl : t.locals with
    | nil =>
      rw [hl] at hlocals
      rw [List.forall₂_nil_left_iff.mp hlocals]
      exact r.globals.contains name
    | cons scope outer =>
      rw [hl] at hlocals
      obtain ⟨time, times, hs, -, hopen⟩ := List.forall₂_cons_left_iff.mp hlocals
      rw [hopen]
      exact hs.contains name

/-! ## The operations -/

theorem empty : Reflects [] {} :=
  ⟨.nil, fun _ => rfl⟩

theorem push (r : Reflects h t) (label : String) : Reflects (.push label :: h) (t.push label) := by
  refine ⟨.cons (fun name => ?_) (locals_imp r.locals fun _ _ _ hs => hs.push label),
    r.globals.push label⟩
  -- no symbol was added to the scope before it was opened
  have hnone : added? (some h.length) name h = none := by
    refine Option.eq_none_iff_forall_ne_some.mpr fun a ha => ?_
    exact Nat.lt_irrefl _ ((added?_eq_some ha).2.2.2 _ rfl)
  rw [added?, asked?, hnone]
  rfl

theorem pop (r : Reflects h t) (hopen : openScopes h ≠ []) :
    ∃ t', t.pop? = some t' ∧ Reflects (.pop :: h) t' := by
  obtain ⟨time, times, htimes⟩ := List.exists_cons_of_ne_nil hopen
  have hlocals := r.locals
  rw [htimes] at hlocals
  obtain ⟨scope, outer, -, houter, hl⟩ := List.forall₂_cons_right_iff.mp hlocals
  refine ⟨{ t with locals := outer }, by rw [SymbolTable.pop?, hl], ?_,
    r.globals.pop fun _ ht => by cases ht⟩
  rw [openScopes, htimes, List.tail_cons]
  refine locals_imp houter fun time ht _ hs => hs.pop fun _ ht' => ?_
  cases ht'
  rw [htimes]
  exact ht

variable {symbol : Symbol}

/-- A table that refuses to add a symbol reflects that it was asked to. -/
theorem refuse (r : Reflects h t) {isGlobal : Bool}
    (hd : t.isDeclared symbol.name isGlobal = true) :
    Reflects (.add symbol isGlobal :: h) t := by
  rw [r.isDeclared] at hd
  exact ⟨locals_imp r.locals fun _ _ _ hs => hs.declared hd, r.globals.declared hd⟩

theorem insertLocal (r : Reflects h t) {scope : Scope} {outer : List Scope}
    (hl : t.locals = scope :: outer) :
    Reflects (.add symbol false :: h) (t.insert symbol false) := by
  have hlocals := r.locals
  rw [hl] at hlocals
  obtain ⟨time, times, hs, houter, hopen⟩ := List.forall₂_cons_left_iff.mp hlocals
  have hnot : time ∉ times := (List.nodup_cons.mp (hopen ▸ openScopes_nodup h)).1
  have hsel : selected h false = some time := by
    rw [selected, hopen]
    rfl
  have hdepth : depthOf h time = outer.length + 1 := by
    rw [depthOf, hopen, houter.length_eq]
    simp
  rw [SymbolTable.insert_local hl]
  refine ⟨?_, r.globals.unselected (by rw [hsel]; exact Option.some_ne_none time)⟩
  rw [openScopes, hopen]
  refine .cons (hdepth ▸ hs.concat hsel) (locals_imp houter fun time' ht _ hs => ?_)
  refine hs.unselected ?_
  rw [hsel]
  rintro ⟨⟩
  exact hnot ht

theorem insertGlobal (r : Reflects h t) {isGlobal : Bool} (hsel : selected h isGlobal = none) :
    Reflects (.add symbol isGlobal :: h)
      { t with globals := t.globals ++ [{ symbol with frame := none }] } := by
  refine ⟨locals_imp r.locals fun time _ _ hs => ?_, r.globals.concat hsel⟩
  exact hs.unselected (by rw [hsel]; exact (Option.some_ne_none time).symm)

theorem insert (r : Reflects h t) (symbol : Symbol) (isGlobal : Bool) :
    Reflects (.add symbol isGlobal :: h) (t.insert symbol isGlobal) := by
  cases isGlobal with
  | true =>
    rw [SymbolTable.insert_global]
    exact r.insertGlobal rfl
  | false =>
    cases hl : t.locals with
    | cons scope outer => exact r.insertLocal hl
    | nil =>
      have hlocals := r.locals
      rw [hl] at hlocals
      have hsel : selected h false = none := by
        rw [selected, List.forall₂_nil_left_iff.mp hlocals]
        rfl
      simp only [SymbolTable.insert, hl]
      exact hl ▸ r.insertGlobal hsel

theorem rebindLocal {a : Addition} (hres : resolve? h symbol.name = some a)
    (hty : a.symbol.ty = symbol.ty) (hkind : a.symbol.kind = symbol.kind)
    (r : List.Forall₂ (fun scope time => Holds h (some time) scope.symbols) scopes times)
    (hnodup : times.Nodup)
    (hfound : (times.findSome? fun time => added? (some time) symbol.name h) = some a) :
    ∃ scopes', SymbolTable.rebindLocal symbol.name symbol.binding scopes = (scopes', true) ∧
      List.Forall₂ (fun scope time => Holds (.update symbol :: h) (some time) scope.symbols)
        scopes' times := by
  induction r with
  | nil => cases hfound
  | @cons scope time scopes times hs houter ih =>
    obtain ⟨hnot, hnodup⟩ := List.nodup_cons.mp hnodup
    rw [SymbolTable.rebindLocal, hs.contains]
    rw [List.findSome?_cons] at hfound
    cases hadded : added? (some time) symbol.name h with
    | some b =>
      rw [hadded] at hfound
      cases hfound
      have hscope := (added?_eq_some hadded).1
      refine ⟨_, rfl, .cons (hs.rebind hres hscope hty hkind) (locals_imp houter ?_)⟩
      refine fun time' ht _ hs => hs.elsewhere hres ?_
      rw [hscope]
      rintro ⟨⟩
      exact hnot ht
    | none =>
      rw [hadded] at hfound
      obtain ⟨scopes', hrun, hscopes⟩ := ih hnodup hfound
      rw [hrun]
      refine ⟨_, rfl, .cons (hs.elsewhere hres ?_) hscopes⟩
      obtain ⟨time', ht, hadded'⟩ := List.exists_of_findSome?_eq_some hfound
      rw [(added?_eq_some hadded').1]
      rintro ⟨⟩
      exact hnot ht

theorem rebind (r : Reflects h t) {a : Addition} (hres : resolve? h symbol.name = some a)
    (hty : a.symbol.ty = symbol.ty) (hkind : a.symbol.kind = symbol.kind) :
    Reflects (.update symbol :: h) (t.rebind symbol.name symbol.binding) := by
  have hcases := hres
  rw [resolve?_eq] at hcases
  unfold SymbolTable.rebind
  rcases Option.or_eq_some_iff.mp hcases with hlocal | ⟨hnone, hglobal⟩
  · obtain ⟨locals, hrun, hlocals⟩ :=
      rebindLocal hres hty hkind r.locals (openScopes_nodup h) hlocal
    rw [hrun]
    refine ⟨hlocals, r.globals.elsewhere hres ?_⟩
    obtain ⟨time, -, hadded⟩ := List.exists_of_findSome?_eq_some hlocal
    rw [(added?_eq_some hadded).1]
    exact Option.some_ne_none time
  · have hscope := (added?_eq_some hglobal).1
    have hlookup := lookupLocal? symbol.name r.locals
    rw [hnone] at hlookup
    rw [SymbolTable.rebindLocal_none _ fun s hs => SymbolTable.lookupLocal?_eq_none hlookup hs]
    refine ⟨locals_imp r.locals fun time _ _ hs => hs.elsewhere hres ?_,
      r.globals.rebind hres hscope hty hkind⟩
    rw [hscope]
    exact (Option.some_ne_none time).symm

/-- A table that refuses an update reflects that it was asked for. -/
theorem mismatch (r : Reflects h t)
    (hne : ∀ a, resolve? h symbol.name = some a → a.symbol.ty = symbol.ty →
      a.symbol.kind ≠ symbol.kind) : Reflects (.update symbol :: h) t := by
  refine ⟨locals_imp r.locals fun _ _ _ hs => ?_, ?_⟩
  · exact hs.unresolved fun a ha hty hkind => absurd hkind (hne a ha hty)
  · exact r.globals.unresolved fun a ha hty hkind => absurd hkind (hne a ha hty)

end Reflects

/-! ## Running a history -/

namespace SymbolTable

/-- The table after an operation, if it can be done. A table that refuses an operation stays as it
is. -/
def perform (t : SymbolTable) : TableOp → Option SymbolTable
  | .add symbol isGlobal => some ((t.add symbol isGlobal).toOption.getD t)
  | .update symbol => some ((t.update symbol).toOption.getD t)
  | .push label => some (t.push label)
  | .pop => t.pop?

/-- The table after a history. -/
def after : History → Option SymbolTable
  | [] => some {}
  | op :: past => (after past).bind (perform · op)

/-- An update is refused exactly where the name stands for nothing, or for something of another type
or kind. -/
theorem update_eq_error_iff {t : SymbolTable} {symbol : Symbol} :
    (∃ e, t.update symbol = .error e) ↔
      ∀ found, t.lookup? symbol.name = some found →
        found.ty ≠ symbol.ty ∨ found.kind ≠ symbol.kind := by
  rw [update_eq]
  cases t.lookup? symbol.name with
  | none => simp
  | some found =>
    dsimp only
    by_cases hsame : found.ty = symbol.ty ∧ found.kind = symbol.kind
    · simp [hsame]
    · rw [if_neg hsame]
      simpa using not_and_or.mp hsame

end SymbolTable

namespace Reflects

variable {h : History} {t : SymbolTable}

theorem perform_add (r : Reflects h t) (symbol : Symbol) (isGlobal : Bool) :
    ∃ t', t.perform (.add symbol isGlobal) = some t' ∧ Reflects (.add symbol isGlobal :: h) t' := by
  cases hd : t.isDeclared symbol.name isGlobal with
  | true =>
    refine ⟨t, ?_, r.refuse hd⟩
    rw [SymbolTable.perform, SymbolTable.add_eq_error_iff.mpr ⟨hd, rfl⟩]
    rfl
  | false =>
    refine ⟨_, ?_, r.insert symbol isGlobal⟩
    rw [SymbolTable.perform, SymbolTable.add_of_not_declared hd]
    rfl

theorem perform_update (r : Reflects h t) (symbol : Symbol) :
    ∃ t', t.perform (.update symbol) = some t' ∧ Reflects (.update symbol :: h) t' := by
  rw [SymbolTable.perform, SymbolTable.update_eq, r.lookup?, History.lookup?]
  cases hres : resolve? h symbol.name with
  | none =>
    refine ⟨t, rfl, r.mismatch fun a ha => ?_⟩
    cases hres.symm.trans ha
  | some a =>
    dsimp only [Option.map_some]
    by_cases hsame : a.symbol.ty = symbol.ty ∧ a.symbol.kind = symbol.kind
    · refine ⟨_, ?_, r.rebind hres hsame.1 hsame.2⟩
      rw [if_pos (by exact hsame)]
      rfl
    · refine ⟨t, ?_, r.mismatch fun b hb hty hkind => ?_⟩
      · rw [if_neg (by exact hsame)]
        rfl
      · cases hres.symm.trans hb
        exact hsame ⟨hty, hkind⟩

/-- **Every operation keeps the table in step with its history.** -/
theorem perform (r : Reflects h t) {op : TableOp} (hb : Balanced (op :: h)) :
    ∃ t', t.perform op = some t' ∧ Reflects (op :: h) t' := by
  cases op with
  | add symbol isGlobal => exact r.perform_add symbol isGlobal
  | update symbol => exact r.perform_update symbol
  | push label => exact ⟨_, rfl, r.push label⟩
  | pop => exact r.pop hb.1

end Reflects

theorem History.Balanced.past {op : TableOp} {h : History} (hb : Balanced (op :: h)) :
    Balanced h := by
  cases op with
  | pop => exact hb.2
  | _ => exact hb

theorem reflects_after : ∀ {h : History}, h.Balanced → ∃ t, SymbolTable.after h = some t ∧
    Reflects h t
  | [], _ => ⟨{}, rfl, .empty⟩
  | op :: h, hb => by
    obtain ⟨t, hafter, r⟩ := reflects_after hb.past
    obtain ⟨t', hperform, r'⟩ := r.perform hb
    refine ⟨t', ?_, r'⟩
    rw [SymbolTable.after, hafter]
    exact hperform

/-- **A symbol table refines its history.** However symbols were added and updated and scopes opened
and closed, a name stands for what the history says. A symbol is refused exactly if its name was
added to the scope that is selected, an update exactly if the name stands for nothing of its type
and kind, and a refused operation leaves the table as it is. -/
theorem table_reflects_history (h : History) (hb : h.Balanced) :
    ∃ t, SymbolTable.after h = some t ∧
      (∀ name, t.lookup? name = h.lookup? name) ∧
      (∀ name isGlobal,
        t.isDeclared name isGlobal = (added? (h.selected isGlobal) name h).isSome) ∧
      (∀ symbol isGlobal,
        (∃ e, t.add symbol isGlobal = .error e) ↔ t.isDeclared symbol.name isGlobal = true) ∧
      (∀ symbol, (∃ e, t.update symbol = .error e) ↔
        ∀ found, t.lookup? symbol.name = some found →
          found.ty ≠ symbol.ty ∨ found.kind ≠ symbol.kind) ∧
      (∀ symbol isGlobal e, t.add symbol isGlobal = .error e →
        t.perform (.add symbol isGlobal) = some t) ∧
      (∀ symbol e, t.update symbol = .error e → t.perform (.update symbol) = some t) := by
  obtain ⟨t, hafter, r⟩ := reflects_after hb
  refine ⟨t, hafter, r.lookup?, r.isDeclared, fun symbol isGlobal => ?_,
    fun symbol => SymbolTable.update_eq_error_iff, fun symbol isGlobal e he => ?_,
    fun symbol e he => ?_⟩
  · simp only [SymbolTable.add_eq_error_iff, exists_and_left, exists_eq, and_true]
  · rw [SymbolTable.perform, he]
    rfl
  · rw [SymbolTable.perform, he]
    rfl

/-- A name that is declared in the global scope and in a local one, where it is declared again and
bound to another place. A scope inside of that declares and binds it once more, and is closed. -/
def shadowing : History :=
  [.pop,
    .update ⟨"x", .address "e", .bool, .variable, none, none⟩,
    .add ⟨"x", .address "g", .bool, .variable, none, none⟩ false,
    .push "g",
    .update ⟨"x", .address "a", .integer, .variable, none, none⟩,
    .update ⟨"x", .address "b", .float, .variable, none, none⟩,
    .add ⟨"x", .address "c", .bool, .variable, none, none⟩ false,
    .add ⟨"x", .address "d", .float, .variable, some "x.0", none⟩ false,
    .push "f",
    .add ⟨"x", .address "x", .integer, .variable, none, none⟩ true]

theorem shadowing_reflected :
    shadowing.Balanced ∧ ∃ t, SymbolTable.after shadowing = some t ∧
      t.lookup? "x" = some ⟨"x", .address "b", .float, .variable, some "x.0", some 1⟩ := by
  have hb : shadowing.Balanced := ⟨by decide, trivial⟩
  obtain ⟨t, hafter, hlookup, -⟩ := table_reflects_history shadowing hb
  refine ⟨hb, t, hafter, ?_⟩
  rw [hlookup]
  decide

end ProcLang
