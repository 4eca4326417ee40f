import Mathlib.Data.List.Nodup
import ProcLang.Lower.State

/-!
# Symbol tables in use

What lowering can rely on when it looks a name up. A table is *regular* if every scope holds a name
once and every symbol knows the scope it was declared in; a table stays so. In a regular table:

* `lookup?_cases`: a name stands for a symbol of a local scope, or, if no local scope has it, for a
  global one;
* `resolveVariable_cases`: a variable that can be used belongs to the innermost scope or to the
  global one;
* `add_eq`, `update_eq`: a symbol is added where its name is looked for, and an update changes what
  the name stands for;
* `update_self`: taking over the binding that a symbol has already changes nothing.
-/

namespace ProcLang

variable {symbol : Symbol} {name : String} {t t' : SymbolTable} {symbols : Symbols} {scope : Scope}
  {isGlobal : Bool}

namespace Symbols

theorem get?_eq_some (h : symbols.get? name = some symbol) :
    symbol ∈ symbols ∧ symbol.name = name := by
  unfold get? at h
  exact ⟨List.mem_of_find?_eq_some h, by simpa using List.find?_some h⟩

theorem contains_iff : symbols.contains name = true ↔ ∃ symbol ∈ symbols, symbol.name = name := by
  unfold contains get?
  rw [List.find?_isSome]
  simp

theorem contains_of_get? (h : symbols.get? name = some symbol) : symbols.contains name = true := by
  rw [contains, h]
  rfl

theorem get?_of_mem (h : (symbols.map Symbol.name).Nodup) (hmem : symbol ∈ symbols) :
    symbols.get? symbol.name = some symbol := by
  obtain ⟨found, hfound⟩ := Option.isSome_iff_exists.mp
    (contains_iff.mpr ⟨symbol, hmem, rfl⟩)
  obtain ⟨hmem', hname⟩ := get?_eq_some hfound
  rw [hfound, List.inj_on_of_nodup_map h hmem' hmem hname]

theorem not_mem_names (h : symbols.contains name = false) : name ∉ symbols.map Symbol.name := by
  intro hx
  obtain ⟨symbol, hmem, hname⟩ := List.mem_map.mp hx
  rw [contains_iff.mpr ⟨symbol, hmem, hname⟩] at h
  cases h

theorem nodup_concat (hd : (symbols.map Symbol.name).Nodup)
    (h : symbols.contains symbol.name = false) : ((symbols ++ [symbol]).map Symbol.name).Nodup := by
  rw [List.map_append, List.map_singleton, List.nodup_append]
  refine ⟨hd, by simp, fun x hx y hy => ?_⟩
  rw [List.mem_singleton] at hy
  rintro rfl
  exact not_mem_names h (hy ▸ hx)

/-- In a scope that holds every name once, giving a symbol its own binding changes nothing. -/
theorem rebind_self (hd : (symbols.map Symbol.name).Nodup) (h : symbol ∈ symbols) :
    symbols.rebind symbol.name symbol.binding = symbols := by
  refine (List.map_congr_left fun s hs => ?_).trans (List.map_id symbols)
  by_cases hname : s.name = symbol.name
  · have : s = symbol := List.inj_on_of_nodup_map hd hs h hname
    subst this
    simp
  · rw [if_neg hname]
    rfl

end Symbols

/-- Every symbol of the scopes has the number of scopes that were open where it was declared. -/
def Framed : List Scope → Prop
  | [] => True
  | scope :: outer => (∀ s ∈ scope.symbols, s.frame = some (outer.length + 1)) ∧ Framed outer

theorem Framed.frame_of_append {inner outer : List Scope} (h : Framed (inner ++ scope :: outer))
    (hs : symbol ∈ scope.symbols) : symbol.frame = some (outer.length + 1) := by
  induction inner with
  | nil => exact h.1 symbol hs
  | cons s inner ih => exact ih h.2

/-- Every scope holds a name once, and every symbol knows its scope. -/
structure SymbolTable.Regular (t : SymbolTable) : Prop where
  framed : Framed t.locals
  distinct : ∀ scope ∈ t.locals, (scope.symbols.map Symbol.name).Nodup
  global_frame : ∀ s ∈ t.globals, s.frame = none
  global_distinct : (t.globals.map Symbol.name).Nodup

namespace SymbolTable

/-! ## Looking up -/

/-- A name that stands for a local symbol is found in some scope, inside of which none has it. -/
theorem lookupLocal?_eq_some :
    ∀ {scopes : List Scope}, lookupLocal? name scopes = some symbol →
      ∃ inner scope outer, scopes = inner ++ scope :: outer ∧
        (∀ s ∈ inner, s.symbols.contains name = false) ∧ scope.symbols.get? name = some symbol
  | [], h => by simp [lookupLocal?] at h
  | scope :: outer, h => by
    rw [lookupLocal?, List.findSome?_cons] at h
    cases hget : scope.symbols.get? name with
    | some found =>
      rw [hget] at h
      exact ⟨[], scope, outer, rfl, by simp, by rw [hget]; exact h⟩
    | none =>
      rw [hget] at h
      obtain ⟨inner, scope', outer', rfl, hinner, hfound⟩ := lookupLocal?_eq_some h
      refine ⟨scope :: inner, scope', outer', rfl, fun s hs => ?_, hfound⟩
      rcases List.mem_cons.mp hs with rfl | hs
      · rw [Symbols.contains, hget]
        rfl
      · exact hinner s hs

theorem lookupLocal?_eq_none {scopes : List Scope} (h : lookupLocal? name scopes = none)
    (hs : scope ∈ scopes) : scope.symbols.contains name = false := by
  have := List.findSome?_eq_none_iff.mp h scope hs
  rw [Symbols.contains, this]
  rfl

/-- **Where a name is found**: in a local scope, or in the global one if no local scope has it. -/
theorem lookup?_cases (h : t.lookup? name = some symbol) :
    symbol.name = name ∧
      ((∃ scope ∈ t.locals, symbol ∈ scope.symbols) ∨
        (symbol ∈ t.globals ∧ ∀ scope ∈ t.locals, scope.symbols.contains name = false)) := by
  unfold lookup? at h
  cases hl : lookupLocal? name t.locals with
  | some found =>
    rw [hl, Option.some_or] at h
    cases h
    obtain ⟨inner, scope, outer, hscopes, -, hget⟩ := lookupLocal?_eq_some hl
    obtain ⟨hmem, hname⟩ := Symbols.get?_eq_some hget
    exact ⟨hname, Or.inl ⟨scope, by rw [hscopes]; simp, hmem⟩⟩
  | none =>
    rw [hl, Option.none_or] at h
    obtain ⟨hmem, hname⟩ := Symbols.get?_eq_some h
    exact ⟨hname, Or.inr ⟨hmem, fun scope hs => lookupLocal?_eq_none hl hs⟩⟩

/-- **A variable that can be used** is one of the innermost scope or a global one. -/
theorem resolveVariable_cases {s : Lowering} (h : s.symbols.Regular)
    (hr : s.resolveVariable name = .ok symbol) :
    s.symbols.lookup? name = some symbol ∧ symbol.name = name ∧ symbol.isProcedure = false ∧
      ((∃ scope outer, s.symbols.locals = scope :: outer ∧ symbol ∈ scope.symbols) ∨
        symbol ∈ s.symbols.globals) := by
  unfold Lowering.resolveVariable at hr
  cases hl : s.symbols.lookup? name with
  | none =>
    rw [hl] at hr
    cases hr
  | some found =>
    rw [hl] at hr
    dsimp only at hr
    by_cases hproc : found.isProcedure = true
    · rw [if_pos hproc] at hr
      cases hr
    · rw [if_neg hproc] at hr
      by_cases hframe : found.frame.any (· != s.symbols.depth) = true
      · rw [if_pos hframe] at hr
        cases hr
      · rw [if_neg hframe] at hr
        cases hr
        refine ⟨rfl, (lookup?_cases hl).1, by simpa using hproc, ?_⟩
        unfold lookup? at hl
        cases hloc : lookupLocal? name s.symbols.locals with
        | none =>
          rw [hloc, Option.none_or] at hl
          exact Or.inr (Symbols.get?_eq_some hl).1
        | some found =>
          rw [hloc, Option.some_or] at hl
          cases hl
          obtain ⟨inner, scope, outer, hscopes, -, hget⟩ := lookupLocal?_eq_some hloc
          obtain ⟨hmem, -⟩ := Symbols.get?_eq_some hget
          have framed := h.framed
          rw [hscopes] at framed
          have hdepth : outer.length + 1 = s.symbols.depth := by
            rw [framed.frame_of_append hmem] at hframe
            simpa using hframe
          -- the scope has the depth of the table, so no scope lies inside of it
          have hnil : inner = [] := by
            rw [depth, hscopes, List.length_append, List.length_cons] at hdepth
            exact List.length_eq_zero_iff.mp (by omega)
          subst hnil
          exact Or.inl ⟨scope, outer, hscopes, hmem⟩

/-! ## Declaring -/

theorem Regular.tick (h : t.Regular) : t.tick.Regular :=
  ⟨h.framed, h.distinct, h.global_frame, h.global_distinct⟩

theorem Regular.push (h : t.Regular) (label : String) : (t.push label).Regular := by
  refine ⟨⟨by simp, h.framed⟩, fun scope hs => ?_, h.global_frame, h.global_distinct⟩
  rcases List.mem_cons.mp hs with rfl | hs
  · exact List.nodup_nil
  · exact h.distinct scope hs

/-- Puts a symbol in the global scope or in the innermost one, without looking for its name. -/
def insert (t : SymbolTable) (symbol : Symbol) (isGlobal : Bool) : SymbolTable :=
  match t.locals, isGlobal with
  | scope :: outer, false =>
    let symbols := scope.symbols ++ [{ symbol with frame := some t.depth }]
    { t with locals := { scope with symbols } :: outer }
  | _, _ => { t with globals := t.globals ++ [{ symbol with frame := none }] }

/-- **The scope that a symbol is added to** is the one that is asked whether the name is declared.
-/
theorem add_eq (t : SymbolTable) (symbol : Symbol) (isGlobal : Bool) :
    t.add symbol isGlobal =
      if t.isDeclared symbol.name isGlobal then .error (.duplicate symbol.name)
      else .ok (t.insert symbol isGlobal) := by
  unfold add insert isDeclared containsInCurrent containsGlobal Symbols.add
  cases t.locals <;> cases isGlobal <;> dsimp only <;> split <;> simp_all [Except.map]

/-- A declaration is refused exactly where the scope has the name. -/
theorem add_eq_error_iff {e : SymbolError} :
    t.add symbol isGlobal = .error e ↔
      t.isDeclared symbol.name isGlobal = true ∧ e = .duplicate symbol.name := by
  rw [add_eq]
  split
  · rename_i hdeclared
    rw [and_iff_right hdeclared, Except.error.injEq, eq_comm]
  · rename_i hnew
    simp [hnew]

theorem add_of_not_declared (hd : t.isDeclared symbol.name isGlobal = false) :
    t.add symbol isGlobal = .ok (t.insert symbol isGlobal) := by
  rw [add_eq, hd]
  rfl

theorem add_inv (h : t.add symbol isGlobal = .ok t') :
    t.isDeclared symbol.name isGlobal = false ∧ t' = t.insert symbol isGlobal := by
  rw [add_eq] at h
  split at h
  · cases h
  · rename_i hdeclared
    cases h
    exact ⟨Bool.eq_false_iff.mpr hdeclared, rfl⟩

theorem insert_local {outer : List Scope} (hl : t.locals = scope :: outer) (symbol : Symbol) :
    t.insert symbol false =
      { t with locals := { scope with symbols := scope.symbols ++
          [{ symbol with frame := some (outer.length + 1) }] } :: outer } := by
  unfold insert depth
  rw [hl]
  rfl

theorem insert_global (t : SymbolTable) (symbol : Symbol) :
    t.insert symbol true =
      { t with globals := t.globals ++ [{ symbol with frame := none }] } := by
  unfold insert
  cases t.locals <;> rfl

/-- A table stays regular when a name is declared that the scope does not have. -/
theorem Regular.insert (h : t.Regular) (hne : t.locals ≠ [])
    (hd : t.isDeclared symbol.name isGlobal = false) : (t.insert symbol isGlobal).Regular := by
  cases isGlobal with
  | true =>
    rw [insert_global]
    refine ⟨h.framed, h.distinct, fun s hs => ?_, ?_⟩
    · rcases List.mem_append.mp hs with hs | hs
      · exact h.global_frame s hs
      · rw [List.mem_singleton.mp hs]
    · exact Symbols.nodup_concat h.global_distinct hd
  | false =>
    obtain ⟨scope, outer, hl⟩ := List.exists_cons_of_ne_nil hne
    have hframed := h.framed
    rw [hl] at hframed
    rw [isDeclared, containsInCurrent, hl] at hd
    rw [insert_local hl]
    refine ⟨⟨fun s hs => ?_, hframed.2⟩, fun s hs => ?_, h.global_frame, h.global_distinct⟩
    · rcases List.mem_append.mp hs with hs | hs
      · exact hframed.1 s hs
      · rw [List.mem_singleton.mp hs]
    · rcases List.mem_cons.mp hs with rfl | hs
      · exact Symbols.nodup_concat (h.distinct scope (by rw [hl]; simp)) hd
      · exact h.distinct s (by rw [hl]; exact List.mem_cons_of_mem _ hs)

/-! ## Assigning -/

/-- Gives the symbol that a name stands for another binding, in the innermost of the given scopes
that has the name. The flag says whether there is one. -/
def rebindLocal (name : String) (binding : Ir.Value) : List Scope → List Scope × Bool
  | [] => ([], false)
  | scope :: outer =>
    if scope.symbols.contains name then
      ({ scope with symbols := scope.symbols.rebind name binding } :: outer, true)
    else
      let (changed, found) := rebindLocal name binding outer
      (scope :: changed, found)

/-- Gives the symbol that a name stands for another binding. -/
def rebind (t : SymbolTable) (name : String) (binding : Ir.Value) : SymbolTable :=
  match rebindLocal name binding t.locals with
  | (locals, true) => { t with locals }
  | (_, false) => { t with globals := t.globals.rebind name binding }

theorem rebindLocal_eq (binding : Ir.Value) :
    ∀ {inner : List Scope} (outer : List Scope) {scope : Scope},
      (∀ s ∈ inner, s.symbols.contains name = false) → scope.symbols.contains name = true →
      rebindLocal name binding (inner ++ scope :: outer) =
        (inner ++ { scope with symbols := scope.symbols.rebind name binding } :: outer, true)
  | [], _, _, _, h => by simp [rebindLocal, h]
  | s :: inner, outer, scope, hinner, h => by
    have ih := rebindLocal_eq binding outer
      (fun s' hs' => hinner s' (List.mem_cons_of_mem s hs')) h
    rw [List.cons_append, rebindLocal, if_neg (by simp [hinner s]), ih]
    rfl

theorem rebindLocal_none (binding : Ir.Value) :
    ∀ {scopes : List Scope}, (∀ s ∈ scopes, s.symbols.contains name = false) →
      rebindLocal name binding scopes = (scopes, false)
  | [], _ => rfl
  | s :: scopes, h => by
    have ih := rebindLocal_none binding
      (fun s' hs' => h s' (List.mem_cons_of_mem s hs'))
    rw [rebindLocal, if_neg (by simp [h s]), ih]

/-- What an update does in the local scopes, if one of them has the name. -/
theorem updateLocal?_eq (symbol : Symbol) : ∀ scopes : List Scope,
    updateLocal? symbol scopes = (lookupLocal? symbol.name scopes).map fun existing =>
      if existing.ty = symbol.ty ∧ existing.kind = symbol.kind then
        .ok (rebindLocal symbol.name symbol.binding scopes).1
      else
        .error (.mismatch symbol.name existing.shape symbol.shape)
  | [] => rfl
  | scope :: outer => by
    have ih := updateLocal?_eq symbol outer
    unfold lookupLocal? at ih ⊢
    rw [updateLocal?, rebindLocal, List.findSome?_cons, Symbols.update?, Symbols.contains]
    cases scope.symbols.get? symbol.name with
    | some existing =>
      simp only [Option.map_some]
      split <;> rfl
    | none =>
      rw [ih]
      cases outer.findSome? fun s => s.symbols.get? symbol.name with
      | none => rfl
      | some existing =>
        simp only [Option.map_some, Option.map_none]
        split <;> rfl

/-- **The symbol that is updated** is the one that the name stands for. -/
theorem update_eq (t : SymbolTable) (symbol : Symbol) :
    t.update symbol = match t.lookup? symbol.name with
      | none => .error (.notFound symbol.name)
      | some existing =>
        if existing.ty = symbol.ty ∧ existing.kind = symbol.kind then
          .ok (t.rebind symbol.name symbol.binding)
        else
          .error (.mismatch symbol.name existing.shape symbol.shape) := by
  rw [update, updateLocal?_eq, lookup?, Symbols.update?, rebind]
  cases hlocal : lookupLocal? symbol.name t.locals with
  | some existing =>
    obtain ⟨inner, scope, outer, hscopes, hinner, hget⟩ := lookupLocal?_eq_some hlocal
    rw [hscopes, rebindLocal_eq _ _ hinner (Symbols.contains_of_get? hget)]
    simp only [Option.map_some, Option.some_or]
    split <;> rfl
  | none =>
    rw [rebindLocal_none _ fun s hs => lookupLocal?_eq_none hlocal hs, Option.none_or]
    cases t.globals.get? symbol.name with
    | none => rfl
    | some existing =>
      simp only [Option.map_some, Option.map_none]
      split <;> rfl

theorem update_inv (h : t.update symbol = .ok t') : t' = t.rebind symbol.name symbol.binding := by
  rw [update_eq] at h
  split at h
  · cases h
  · split at h <;> cases h
    rfl

/-- **An assignment leaves the table as it is**, since it takes over the binding that the symbol
has. -/
theorem update_self (h : t.Regular) (hl : t.lookup? symbol.name = some symbol) :
    t.update symbol = .ok t := by
  rw [update_eq, hl]
  dsimp only
  rw [if_pos ⟨rfl, rfl⟩]
  congr 1
  unfold rebind
  unfold lookup? at hl
  cases hloc : lookupLocal? symbol.name t.locals with
  | some found =>
    rw [hloc, Option.some_or] at hl
    cases hl
    obtain ⟨inner, scope, outer, hscopes, hinner, hget⟩ := lookupLocal?_eq_some hloc
    have hself : scope.symbols.rebind symbol.name symbol.binding = scope.symbols :=
      Symbols.rebind_self (h.distinct scope (by rw [hscopes]; simp)) (Symbols.get?_eq_some hget).1
    rw [hscopes, rebindLocal_eq _ _ hinner (Symbols.contains_of_get? hget), hself, ← hscopes]
  | none =>
    rw [hloc, Option.none_or] at hl
    rw [rebindLocal_none _ fun s hs => lookupLocal?_eq_none hloc hs]
    dsimp only
    rw [Symbols.rebind_self h.global_distinct (Symbols.get?_eq_some hl).1]

/-- An assignment of another type is refused. -/
theorem update_mismatch (hl : t.lookup? symbol.name = some symbol) {ty : Ty}
    (hne : symbol.ty ≠ ty) : t.update { symbol with ty } =
      .error (.mismatch symbol.name symbol.shape { symbol with ty }.shape) := by
  rw [update_eq]
  dsimp only
  rw [hl]
  dsimp only
  rw [if_neg fun h => hne h.1]

/-! ## The counter of unique names -/

theorem add_nextUnique (h : t.add symbol isGlobal = .ok t') : t'.nextUnique = t.nextUnique := by
  obtain ⟨-, rfl⟩ := add_inv h
  unfold insert
  split <;> rfl

theorem update_nextUnique (h : t.update symbol = .ok t') : t'.nextUnique = t.nextUnique := by
  rw [update_inv h, rebind]
  split <;> rfl

end SymbolTable

end ProcLang
