import ProcLang.Proofs.Meaning.Report
import ProcLang.Proofs.Reached

/-!
# Types of expressions

The rules that give an expression its type (`HasType`), in view of the declarations that can be seen
where it stands. Lowering checks exactly these rules (`lower_iff_hasType`): it gives a value of a
type if the rules give the type, and otherwise it reports what is wrong.
-/

namespace ProcLang

open Ir

/-! ## What can be seen -/

/-- The declarations that can be seen: global ones, and those of the open local scopes, the
innermost first. -/
structure Scopes where
  globals : Symbols
  locals : List Scope

/-- The declarations of a symbol table. -/
def SymbolTable.scopes (t : SymbolTable) : Scopes :=
  ⟨t.globals, t.locals⟩

/-- No symbol in the scope has the name. -/
def Scope.Lacks (name : String) (scope : Scope) : Prop :=
  ∀ symbol ∈ scope.symbols, symbol.name ≠ name

namespace Scopes

/-- The symbol is the innermost declaration of the name. -/
inductive Shows (t : Scopes) (name : String) (symbol : Symbol) : Prop
  | inScope (inner : List Scope) (scope : Scope) (outer : List Scope) :
    t.locals = inner ++ scope :: outer → (∀ s ∈ inner, s.Lacks name) →
    symbol ∈ scope.symbols → symbol.name = name → Shows t name symbol
  | inGlobals : (∀ s ∈ t.locals, s.Lacks name) → symbol ∈ t.globals → symbol.name = name →
    Shows t name symbol

/-- The symbol is the innermost declaration of the name, and a variable or an array that can be
used: it is declared in the innermost scope, or global. -/
inductive Offers (t : Scopes) (name : String) (symbol : Symbol) : Prop
  | own (scope : Scope) (outer : List Scope) : t.locals = scope :: outer →
    symbol ∈ scope.symbols → symbol.name = name → symbol.isProcedure = false → Offers t name symbol
  | shared : (∀ s ∈ t.locals, s.Lacks name) → symbol ∈ t.globals → symbol.name = name →
    symbol.isProcedure = false → Offers t name symbol

end Scopes

/-! ## Rules -/

/-- The types of the operands of an operator, and the type of what it gives. -/
inductive BinaryOp.Rule : BinaryOp → Ty → Ty → Ty → Prop
  | bits {op : BinaryOp} {ty : Ty} : op ∈ [and, or] → ty ∈ [Ty.bool, .integer] → Rule op ty ty ty
  | integers {op : BinaryOp} : op ∈ [add, sub, mul, div] → Rule op .integer .integer .integer
  | floats {op : BinaryOp} {a b : Ty} : op ∈ [add, sub, mul, div] → a.isNumeric = true →
    b.isNumeric = true → a = .float ∨ b = .float → Rule op a b .float
  | relation {op : BinaryOp} {a b : Ty} :
    op ∈ [less, lessEq, greater, greaterEq, eq, notEq] → a.isNumeric = true →
    b.isNumeric = true → Rule op a b .bool
  | truth {op : BinaryOp} : op ∈ [eq, notEq] → Rule op .bool .bool .bool
  | text : Rule eq .string .string .bool

mutual

/-- The rules give the expression the type. -/
inductive HasType (t : Scopes) : Expr → Ty → Prop
  | literal {value : Literal} {line : Nat} {old : Option Ty} :
    HasType t (.literal value line old) value.ty
  | read {place : Place} {line : Nat} {old : Option Ty} {ty : Ty} : PlaceHasType t place ty →
    (place.negated = true → ty.isNumeric = true) → HasType t (.read place line old) ty
  | not {operand : Expr} {line : Nat} {old : Option Ty} {ty : Ty} : HasType t operand ty →
    ty ∈ [Ty.bool, .integer] → HasType t (.not operand line old) ty
  | binary {op : BinaryOp} {lhs rhs : Expr} {line : Nat} {old : Option Ty} {a b ty : Ty} :
    HasType t lhs a → HasType t rhs b → op.Rule a b ty → HasType t (.binary op lhs rhs line old) ty
  | call {callee : String} {args : List Expr} {line : Nat} {old : Option Ty} {symbol : Symbol}
    {params : List ParamShape} : t.Shows callee symbol → symbol.kind = .procedure params →
    ArgsFit t params args → HasType t (.call callee args line old) symbol.ty

/-- The place is a single value of the type, or an element of an array of the type. -/
inductive PlaceHasType (t : Scopes) : Place → Ty → Prop
  | whole {name : String} {negated : Bool} {line : Nat} {symbol : Symbol} : t.Offers name symbol →
    symbol.kind = .variable → PlaceHasType t (.whole name negated line) symbol.ty
  | element {name : String} {index : Expr} {negated : Bool} {line : Nat} {symbol : Symbol}
    {len : Nat} : t.Offers name symbol → symbol.kind = .array len → HasType t index .integer →
    PlaceHasType t (.element name index negated line) symbol.ty

/-- The arguments are as many as the parameters and fit them: a value of the type of the parameter,
or an integer for a float, or a whole array of the same type and length. -/
inductive ArgsFit (t : Scopes) : List ParamShape → List Expr → Prop
  | nil : ArgsFit t [] []
  | value {param : ParamShape} {params : List ParamShape} {arg : Expr} {args : List Expr}
    {ty : Ty} :
    param.len = none → HasType t arg ty → ty = param.ty ∨ ty = .integer ∧ param.ty = .float →
    ArgsFit t params args → ArgsFit t (param :: params) (arg :: args)
  | array {param : ParamShape} {params : List ParamShape} {name : String} {line line' : Nat}
    {old : Option Ty} {args : List Expr} {symbol : Symbol} {len : Nat} : t.Offers name symbol →
    symbol.kind = .array len → param.ty = symbol.ty → param.len = some len →
    ArgsFit t params args →
    ArgsFit t (param :: params) (.read (.whole name false line) line' old :: args)

end

variable {ty : Ty}

theorem PlaceHasType.offers {t : Scopes} {place : Place} (h : PlaceHasType t place ty) :
    ∃ symbol, t.Offers place.name symbol := by
  cases h with
  | whole hoffers => exact ⟨_, hoffers⟩
  | element hoffers => exact ⟨_, hoffers⟩

theorem HasType.whole {t : Scopes} {name : String} {negated : Bool} {line line' : Nat}
    {old : Option Ty} (h : HasType t (.read (.whole name negated line) line' old) ty) :
    ∃ symbol, t.Offers name symbol ∧ symbol.kind = .variable := by
  cases h with
  | read hplace =>
    cases hplace with
    | whole hoffers hk => exact ⟨_, hoffers, hk⟩

theorem ArgsFit.length_eq {t : Scopes} : ∀ {params : List ParamShape} {args : List Expr},
    ArgsFit t params args → params.length = args.length
  | [], [], _ => rfl
  | _ :: _, _ :: _, .value _ _ _ hrest => congrArg Nat.succ hrest.length_eq
  | _ :: _, _ :: _, .array _ _ _ _ hrest => congrArg Nat.succ hrest.length_eq

/-! ## Looking names up -/

theorem Scope.lacks_iff {name : String} {scope : Scope} :
    scope.Lacks name ↔ scope.symbols.contains name = false := by
  rw [← Bool.not_eq_true, Symbols.contains_iff]
  simp [Lacks]

namespace SymbolTable

variable {t : SymbolTable} {name : String} {symbol : Symbol}

theorem lookupLocal?_append {inner outer : List Scope} (h : ∀ s ∈ inner, s.Lacks name) :
    lookupLocal? name (inner ++ outer) = lookupLocal? name outer := by
  unfold lookupLocal?
  rw [List.findSome?_append, List.findSome?_eq_none_iff.mpr fun s hs => ?_, Option.none_or]
  exact Option.not_isSome_iff_eq_none.mp (Bool.eq_false_iff.mp (Scope.lacks_iff.mp (h s hs)))

/-- **Looking a name up** finds its innermost declaration. -/
theorem lookup?_iff (h : t.Regular) :
    t.lookup? name = some symbol ↔ t.scopes.Shows name symbol := by
  constructor
  · intro hl
    unfold lookup? at hl
    cases hlocal : lookupLocal? name t.locals with
    | some found =>
      rw [hlocal, Option.some_or] at hl
      cases hl
      obtain ⟨inner, scope, outer, hscopes, hinner, hget⟩ := lookupLocal?_eq_some hlocal
      obtain ⟨hmem, hname⟩ := Symbols.get?_eq_some hget
      exact .inScope inner scope outer hscopes (fun s hs => Scope.lacks_iff.mpr (hinner s hs)) hmem
        hname
    | none =>
      rw [hlocal, Option.none_or] at hl
      obtain ⟨hmem, hname⟩ := Symbols.get?_eq_some hl
      exact .inGlobals (fun s hs => Scope.lacks_iff.mpr (lookupLocal?_eq_none hlocal hs)) hmem hname
  · rintro (⟨inner, scope, outer, hscopes, hinner, hmem, rfl⟩ | ⟨hnone, hmem, rfl⟩)
    · change t.locals = inner ++ scope :: outer at hscopes
      have hget := Symbols.get?_of_mem (h.distinct scope (by rw [hscopes]; simp)) hmem
      rw [lookup?, hscopes, lookupLocal?_append hinner, lookupLocal?, List.findSome?_cons, hget]
      rfl
    · have hlocal : lookupLocal? symbol.name (t.locals ++ []) = none :=
        lookupLocal?_append hnone
      rw [List.append_nil] at hlocal
      rw [lookup?, hlocal, Option.none_or, Symbols.get?_of_mem h.global_distinct hmem]

end SymbolTable

/-- **Asking for a variable** gives the one that the name offers. -/
theorem resolveVariable_iff {s : Lowering} (h : s.symbols.Regular) {name : String}
    {symbol : Symbol} :
    s.resolveVariable name = .ok symbol ↔ s.symbols.scopes.Offers name symbol := by
  constructor
  · intro hr
    obtain ⟨hlookup, hname, hproc, hwhere⟩ := SymbolTable.resolveVariable_cases h hr
    rcases hwhere with ⟨scope, outer, hscopes, hmem⟩ | hmem
    · exact .own scope outer hscopes hmem hname hproc
    · refine .shared ?_ hmem hname hproc
      obtain ⟨-, ⟨scope, hscope, hmem'⟩ | ⟨-, hnone⟩⟩ := SymbolTable.lookup?_cases hlookup
      · -- a symbol of a local scope has a frame, a global one has none
        obtain ⟨inner, outer, hscopes⟩ := List.append_of_mem hscope
        have hframe := (hscopes ▸ h.framed).frame_of_append hmem'
        rw [h.global_frame symbol hmem] at hframe
        cases hframe
      · exact fun s hs => Scope.lacks_iff.mpr (hnone s hs)
  · intro hoffers
    have hframe : symbol.frame.any (· != s.symbols.depth) = false := by
      rcases hoffers with ⟨scope, outer, hscopes, hmem, -, -⟩ | ⟨-, hmem, -, -⟩
      · have hscopes : s.symbols.locals = scope :: outer := hscopes
        have hframed := h.framed
        rw [hscopes] at hframed
        rw [hframed.1 symbol hmem, SymbolTable.depth, hscopes]
        simp
      · rw [h.global_frame symbol hmem]
        rfl
    obtain ⟨hshows, hproc⟩ : s.symbols.scopes.Shows name symbol ∧ symbol.isProcedure = false := by
      rcases hoffers with ⟨scope, outer, hscopes, hmem, hname, hproc⟩ | ⟨hnone, hmem, hname, hproc⟩
      · exact ⟨.inScope [] scope outer hscopes (by simp) hmem hname, hproc⟩
      · exact ⟨.inGlobals hnone hmem hname, hproc⟩
    rw [Lowering.resolveVariable, (SymbolTable.lookup?_iff h).mpr hshows]
    simp [hproc, hframe]

/-- A name offers one variable at most. -/
theorem Scopes.Offers.unique {s : Lowering} (h : s.symbols.Regular) {name : String}
    {symbol symbol' : Symbol} (h1 : s.symbols.scopes.Offers name symbol)
    (h2 : s.symbols.scopes.Offers name symbol') : symbol = symbol' :=
  Except.ok.inj (((resolveVariable_iff h).mpr h1).symm.trans ((resolveVariable_iff h).mpr h2))

/-! ## Verdicts -/

/-- The verdict on a part of a program: it has a value of the types that are admitted and of no
other, and no error is reported if it has a value. -/
structure Verdict (r : Result) (s s' : Lowering) (admits : Ty → Prop) : Prop where
  ty : ∀ ty, r.ty? = some ty ↔ admits ty
  errors : r.isSome = true → s'.errors = s.errors

section Parts

variable {s s' : Lowering} {line : Nat} {r : Result} {op : BinaryOp}

theorem isSome_of_ty? (h : r.ty? = some ty) : r.isSome = true := by
  obtain ⟨found, rfl, -⟩ := Option.map_eq_some_iff.mp h
  rfl

theorem verdict_none {admits : Ty → Prop} (h : ∀ ty, ¬ admits ty) : Verdict none s s' admits :=
  ⟨fun ty => iff_of_false (by simp [Result.ty?]) (h ty), by simp⟩

theorem verdict_some {admits : Ty → Prop} (v : Value) (h : ∀ ty', admits ty' ↔ ty' = ty)
    (herrors : s'.errors = s.errors) : Verdict (some (v, ty)) s s' admits :=
  ⟨fun ty' => (Option.some_inj.trans eq_comm).trans (h ty').symm, fun _ => herrors⟩

namespace Verdict

variable {admits admits' : Ty → Prop}

theorem congr (h : Verdict r s s' admits) (hadmits : ∀ ty, admits ty ↔ admits' ty) :
    Verdict r s s' admits' :=
  ⟨fun ty => (h.ty ty).trans (hadmits ty), h.errors⟩

theorem admits_of_isSome (h : Verdict r s s' admits) (hsome : r.isSome = true) :
    ∃ ty, admits ty := by
  obtain ⟨⟨v, ty⟩, rfl⟩ := Option.isSome_iff_exists.mp hsome
  exact ⟨ty, (h.ty ty).mp rfl⟩

/-- A part in front is fine if this one is. -/
theorem behind {s1 : Lowering} (h : Verdict r s1 s' admits)
    (hfront : ∀ ty, admits ty → s1.errors = s.errors) : Verdict r s s' admits := by
  refine ⟨h.ty, fun hsome => ?_⟩
  obtain ⟨ty, hty⟩ := h.admits_of_isSome hsome
  rw [h.errors hsome, hfront ty hty]

end Verdict

theorem coerce_errors {v v' : Value} {source target : Ty}
    (run : Lower.coerce v source target s = .ok (v', s')) : s'.errors = s.errors := by
  unfold Lower.coerce at run
  split at run
  · exact build_errors run
  · cases run
    rfl

theorem operate_errors {o : Operation} {l r v : Value} {lty rty : Ty}
    (run : Lower.operate o l lty r rty s = .ok (v, s')) : s'.errors = s.errors := by
  cases o with
  | bits | integers | compareIntegers => exact build_errors run
  | floats | compareFloats =>
    obtain ⟨_, s1, run1, run⟩ := run_bind_inv run
    obtain ⟨_, s2, run2, run3⟩ := run_bind_inv run
    rw [build_errors run3, coerce_errors run2, coerce_errors run1]
  | equalStrings =>
    obtain ⟨_, s1, run1, run2⟩ := run_bind_inv run
    rw [build_errors run2, build_errors run1]

/-- A literal has its type. A string has it too, as its name is not taken. -/
theorem literal_verdict (hfresh : s.Fresh) {value : Literal}
    (run : Lower.literal line value s = .ok (r, s')) : Verdict r s s' (· = value.ty) := by
  cases value with
  | integer | float | bool =>
    cases run
    exact verdict_some _ (fun _ => Iff.rfl) rfl
  | string text =>
    obtain ⟨name, s1, run1, run⟩ := run_bind_inv run
    cases run1
    obtain ⟨outcome, s2, run2, run3⟩ := run_bind_inv run
    obtain ⟨b, hb, rfl⟩ := build_inv run2
    obtain ⟨b', hnew⟩ := Build.globalText_new text (hfresh.uniqueName "str")
    cases hnew.symm.trans hb
    cases run3
    exact verdict_some _ (fun _ => Iff.rfl) rfl

theorem complement_verdict {v r : Result} (run : Lower.complement line v s = .ok (r, s')) :
    Verdict r s s' fun ty => v.ty? = some ty ∧ ty ∈ [Ty.bool, .integer] := by
  cases v with
  | none =>
    cases run
    exact verdict_none fun ty h => by cases h.1
  | some found =>
    obtain ⟨value, ty⟩ := found
    unfold Lower.complement at run
    cases hmask : Lower.allBits? ty with
    | some mask =>
      simp only [hmask] at run
      obtain ⟨x, s1, run1, run2⟩ := run_bind_inv run
      cases run2
      refine verdict_some _ (fun ty' => ⟨fun h => (Option.some.inj h.1).symm, ?_⟩)
        (build_errors run1)
      rintro rfl
      refine ⟨rfl, ?_⟩
      cases ty' <;> simp_all [Lower.allBits?]
    | none =>
      simp only [hmask] at run
      cases run
      refine verdict_none fun ty' h => ?_
      obtain rfl : ty = ty' := Option.some.inj h.1
      cases ty <;> simp_all [Lower.allBits?]

theorem numeric_cases (h : ty.isNumeric = true) : ty = .integer ∨ ty = .float := by
  cases ty <;> simp_all [Ty.isNumeric]

/-- What an operator on two numbers gives. -/
theorem numeric?_ty {isFloat : Bool} {o : Operation} (h : op.numeric? isFloat = some o) :
    (op ∈ [BinaryOp.add, .sub, .mul, .div] ∧ o.ty = if isFloat then .float else .integer) ∨
      op ∈ [BinaryOp.less, .lessEq, .greater, .greaterEq, .eq, .notEq] ∧ o.ty = .bool := by
  cases isFloat <;> cases op <;> cases h <;> simp [Operation.ty]

/-- **An operator has an operation** on operands of two types exactly if a rule says so. -/
theorem rule_iff {a b ty : Ty} : op.Rule a b ty ↔ ∃ o, op.operation? a b = some o ∧ o.ty = ty := by
  constructor
  · intro rule
    cases rule with
    | bits hop hty =>
      simp only [List.mem_cons, List.not_mem_nil, or_false] at hop hty
      rcases hop with rfl | rfl <;> rcases hty with rfl | rfl <;> exact ⟨_, rfl, rfl⟩
    | integers hop =>
      simp only [List.mem_cons, List.not_mem_nil, or_false] at hop
      rcases hop with rfl | rfl | rfl | rfl <;> exact ⟨_, rfl, rfl⟩
    | floats hop ha hb hfloat =>
      simp only [List.mem_cons, List.not_mem_nil, or_false] at hop
      rcases hop with rfl | rfl | rfl | rfl
      all_goals
        rcases numeric_cases ha with rfl | rfl <;> rcases numeric_cases hb with rfl | rfl
        · simp at hfloat
        all_goals exact ⟨_, rfl, rfl⟩
    | relation hop ha hb =>
      simp only [List.mem_cons, List.not_mem_nil, or_false] at hop
      rcases hop with rfl | rfl | rfl | rfl | rfl | rfl
      all_goals
        rcases numeric_cases ha with rfl | rfl <;> rcases numeric_cases hb with rfl | rfl
        all_goals exact ⟨_, rfl, rfl⟩
    | truth hop =>
      simp only [List.mem_cons, List.not_mem_nil, or_false] at hop
      rcases hop with rfl | rfl <;> exact ⟨_, rfl, rfl⟩
    | text => exact ⟨_, rfl, rfl⟩
  · rintro ⟨o, ho, rfl⟩
    have numeric : ∀ {isFloat : Bool} {a b : Ty}, op.numeric? isFloat = some o →
        a.isNumeric = true → b.isNumeric = true →
        (if isFloat then a = .float ∨ b = .float else a = .integer ∧ b = .integer) →
        op.Rule a b o.ty := by
      intro isFloat a b hnumeric ha hb hfloat
      rcases numeric?_ty hnumeric with ⟨hop, hty⟩ | ⟨hop, hty⟩
      · rw [hty]
        cases isFloat with
        | true => exact .floats hop ha hb hfloat
        | false =>
          obtain ⟨rfl, rfl⟩ := hfloat
          exact .integers hop
      · rw [hty]
        exact .relation hop ha hb
    unfold BinaryOp.operation? at ho
    split at ho
    · rename_i bitOp hbit
      have hop : op ∈ [BinaryOp.and, .or] := by cases op <;> simp_all [BinaryOp.bitOp?]
      split at ho <;> cases ho
      · exact .bits hop (by simp)
      · exact .bits hop (by simp)
    · split at ho
      · exact numeric ho rfl rfl ⟨rfl, rfl⟩
      · exact numeric ho rfl rfl (Or.inr rfl)
      · exact numeric ho rfl rfl (Or.inl rfl)
      · exact numeric ho rfl rfl (Or.inl rfl)
      · split at ho <;> cases ho
        · exact .truth (by simp)
        · exact .truth (by simp)
      · split at ho <;> cases ho
        rename_i hop
        rw [hop]
        exact .text
      · cases ho

theorem binary_verdict {l r result : Result} (run : Lower.binary line op l r s = .ok (result, s')) :
    Verdict result s s' fun ty => ∃ a b, l.ty? = some a ∧ r.ty? = some b ∧ op.Rule a b ty := by
  unfold Lower.binary at run
  split at run
  · rename_i lhs a rhs b
    cases ho : op.operation? a b with
    | some o =>
      rw [ho] at run
      obtain ⟨x, s1, run1, run2⟩ := run_bind_inv run
      cases run2
      refine verdict_some _ (fun ty => ⟨?_, ?_⟩) (operate_errors run1)
      · rintro ⟨a, b, ⟨⟩, ⟨⟩, rule⟩
        obtain ⟨o', ho', rfl⟩ := rule_iff.mp rule
        rw [Option.some.inj (ho.symm.trans ho')]
      · rintro rfl
        exact ⟨a, b, rfl, rfl, rule_iff.mpr ⟨o, ho, rfl⟩⟩
    | none =>
      rw [ho] at run
      cases run
      refine verdict_none ?_
      rintro ty ⟨a, b, ⟨⟩, ⟨⟩, rule⟩
      obtain ⟨o, ho', -⟩ := rule_iff.mp rule
      rw [ho] at ho'
      cases ho'
  · rename_i hnone
    cases run
    refine verdict_none ?_
    rintro ty ⟨a, b, hl, hr, -⟩
    obtain ⟨⟨lv, _⟩, rfl, rfl⟩ := Option.map_eq_some_iff.mp hl
    obtain ⟨⟨rv, _⟩, rfl, rfl⟩ := Option.map_eq_some_iff.mp hr
    exact hnone lv _ rv _ rfl rfl

/-- Only a number has an opposite. -/
theorem negate_verdict {negated : Bool} {value : Value}
    (run : Lower.negate line negated value ty s = .ok (r, s')) :
    Verdict r s s' fun ty' => ty' = ty ∧ (negated = true → ty'.isNumeric = true) := by
  cases negated with
  | false =>
    cases run
    exact verdict_some _ (fun ty' => ⟨And.left, fun h => ⟨h, by simp⟩⟩) rfl
  | true =>
    cases ty with
    | integer | float =>
      obtain ⟨_, s1, run1, hpure⟩ := run_bind_inv run
      cases hpure
      refine verdict_some _ (fun ty' => ⟨And.left, ?_⟩) (build_errors run1)
      rintro rfl
      exact ⟨rfl, fun _ => rfl⟩
    | bool | string =>
      cases run
      refine verdict_none ?_
      rintro _ ⟨rfl, hnumeric⟩
      cases hnumeric rfl

variable {symbol : Symbol}

/-- What a variable gives if it is read at an address. -/
theorem readAt_verdict {place : Place} {address : Option Value}
    (run : Lower.readAt place symbol address s = .ok (r, s')) :
    Verdict r s s' fun ty => address.isSome = true ∧ ty = symbol.ty ∧
      (place.negated = true → ty.isNumeric = true) := by
  cases address with
  | none =>
    cases run
    exact verdict_none fun ty h => by cases h.1
  | some address =>
    obtain ⟨value, s1, run1, run2⟩ := run_bind_inv run
    have hv := negate_verdict run2
    refine ⟨fun ty => (hv.ty ty).trans ⟨fun h => ⟨rfl, h⟩, And.right⟩, fun hsome => ?_⟩
    rw [hv.errors hsome, build_errors run1]

/-- An element of an array is there if the index is an integer. -/
theorem elementAddress_judged {index : Result} {address : Option Value}
    (run : Lower.elementAddress line symbol index s = .ok (address, s')) :
    (address.isSome = true ↔ index.ty? = some .integer) ∧
      (address.isSome = true → s'.errors = s.errors) := by
  rcases index with _ | ⟨value, ty⟩
  · cases run
    simp [Result.ty?]
  · cases ty with
    | integer =>
      obtain ⟨_, run1, rfl⟩ := run_map_inv run
      exact ⟨iff_of_true rfl rfl, fun _ => build_errors run1⟩
    | float | bool | string =>
      cases run
      simp [Result.ty?]

theorem fits_iff {ty ty' : Ty} : ty.fits ty' = true ↔ ty = ty' ∨ ty = .integer ∧ ty' = .float := by
  cases ty <;> cases ty' <;> simp [Ty.fits]

/-- A whole array can be passed if it has the type and the length of the parameter. -/
theorem passArray_judged {slot : Lower.ArgumentSlot} {param : ParamShape} {array : Symbol}
    {len : Nat} {value : Option Value} (hparam : slot.param = some param)
    (run : Lower.passArray line slot array len s = .ok (value, s')) :
    (value.isSome = true ↔ param.ty = array.ty ∧ param.len = some len) ∧
      (value.isSome = true → s'.errors = s.errors) := by
  unfold Lower.passArray at run
  rw [hparam] at run
  dsimp only at run
  by_cases hfit : param.ty = array.ty ∧ param.len = some len
  · rw [if_pos hfit] at run
    cases run
    exact ⟨iff_of_true rfl hfit, fun _ => rfl⟩
  · rw [if_neg hfit] at run
    cases run
    exact ⟨iff_of_false Bool.false_ne_true hfit, fun h => by cases h⟩

/-- A value can be passed if the parameter is no array and the type fits its type. -/
theorem passValue_judged {slot : Lower.ArgumentSlot} {param : ParamShape} {result : Result}
    {value : Option Value} (hparam : slot.param = some param)
    (run : Lower.passValue line slot result s = .ok (value, s')) :
    (value.isSome = true ↔
      ∃ ty, result.ty? = some ty ∧ param.len = none ∧ ty.fits param.ty = true) ∧
      (value.isSome = true → s'.errors = s.errors) := by
  unfold Lower.passValue at run
  rcases result with _ | ⟨v, ty⟩
  · cases run
    simp [Result.ty?]
  · rw [hparam] at run
    dsimp only at run
    by_cases hfit : param.len = none ∧ ty.fits param.ty = true
    · rw [if_pos hfit] at run
      obtain ⟨_, run1, rfl⟩ := run_map_inv run
      exact ⟨iff_of_true rfl ⟨ty, rfl, hfit⟩, fun _ => coerce_errors run1⟩
    · rw [if_neg hfit] at run
      cases run
      refine ⟨iff_of_false Bool.false_ne_true ?_, fun h => by cases h⟩
      rintro ⟨_, ⟨⟩, hfits⟩
      exact hfit hfits

/-- A call gives what the procedure returns, if the arguments are as many as the parameters and all
of them can be passed. -/
theorem finishCall_verdict {callee : String} {params : List ParamShape}
    {values : List (Option Value)}
    (run : Lower.finishCall line callee symbol params values s = .ok (r, s')) :
    Verdict r s s' fun ty => params.length = values.length ∧
      (Lower.allSome values).isSome = true ∧ ty = symbol.ty := by
  unfold Lower.finishCall at run
  by_cases hlen : params.length = values.length
  · rw [if_neg (not_not_intro hlen)] at run
    cases hall : Lower.allSome values with
    | none =>
      rw [hall] at run
      cases run
      exact verdict_none fun ty h => by cases h.2.1
    | some vs =>
      rw [hall] at run
      obtain ⟨_, s1, run1, run⟩ := run_bind_inv run
      obtain ⟨_, s2, run2, hpure⟩ := run_bind_inv run
      cases hpure
      refine verdict_some _ (fun ty => ⟨fun h => h.2.2, fun h => ⟨hlen, rfl, h⟩⟩) ?_
      rw [build_errors run2, build_errors run1]
  · rw [if_pos hlen] at run
    cases run
    exact verdict_none fun ty h => hlen h.1

end Parts

/-! ## Expressions -/

namespace Lowering.Reached

variable {s s' : Lowering}

theorem regular (h : s.Reached) : s.symbols.Regular := by
  obtain ⟨st, rfl, hs⟩ := h.sound
  exact hs.symbols.regular

/-- Every expression is lowered, and the declarations that can be seen are the same behind it. -/
theorem expr_runs (h : s.Reached) (e : Expr) : ∃ r s', e.lower s = .ok (r, s') ∧
    s'.symbols.scopes = s.symbols.scopes := by
  obtain ⟨st, rfl, hs⟩ := h.sound
  obtain ⟨r, st', run, -, hcalm, -⟩ := Stage.expr_takes e hs
  exact ⟨r, st'.state, run, by rw [SymbolTable.scopes, hcalm.locals, hcalm.same_globals]; rfl⟩

theorem expr_scopes (h : s.Reached) {e : Expr} {r : Result × Expr}
    (run : e.lower s = .ok (r, s')) : s'.symbols.scopes = s.symbols.scopes := by
  obtain ⟨r', s1, run', hscopes⟩ := h.expr_runs e
  cases run.symm.trans run'
  exact hscopes

theorem args_scopes (h : s.Reached) {callee : String} {position : Nat} {params : List ParamShape}
    {args : List Expr} {r : List (Option Value) × List Expr}
    (run : lowerArgs callee position params args s = .ok (r, s')) :
    s'.symbols.scopes = s.symbols.scopes := by
  obtain ⟨st, rfl, hs⟩ := h.sound
  obtain ⟨st', rfl, -, hcalm, -⟩ := (Stage.args_takes callee args hs position params).of_run run
  rw [SymbolTable.scopes, hcalm.locals, hcalm.same_globals]
  rfl

end Lowering.Reached

section Args

variable {callee : String} {position : Nat} {params : List ParamShape} {arg : Expr}
  {args : List Expr} {s s0 s' : Lowering} {value : Option Value}

theorem lowerArgs_array {array : Symbol} {len : Nat}
    (hw : Lower.wholeArray? s arg = some (array, len))
    (run : Lower.passArray arg.line ⟨callee, position, params.head?⟩ array len s =
      .ok (value, s')) :
    lowerArgs callee position params [arg] s =
      .ok (([value], [arg.withTy (some array.ty)]), s') := by
  rw [lowerArgs, run_bind run_get, hw]
  refine (run_bind run).trans ?_
  rw [run_bind (run_pure _), lowerArgs]
  rfl

theorem lowerArgs_value {result : Result} {arg' : Expr}
    (hw : Lower.wholeArray? s arg = none) (run1 : arg.lower s = .ok ((result, arg'), s0))
    (run2 : Lower.passValue arg.line ⟨callee, position, params.head?⟩ result s0 = .ok (value, s')) :
    lowerArgs callee position params [arg] s = .ok (([value], [arg']), s') := by
  rw [lowerArgs, run_bind run_get, hw]
  refine (run_bind run1).trans ((run_bind run2).trans ?_)
  rw [run_bind (run_pure _), lowerArgs]
  rfl

theorem lowerArgs_length : ∀ {args : List Expr} {position : Nat} {params : List ParamShape}
    {s s' : Lowering} {values : List (Option Value)} {lowered : List Expr},
    lowerArgs callee position params args s = .ok ((values, lowered), s') →
    values.length = args.length
  | [], _, _, _, _, _, _, run => by
    rw [lowerArgs] at run
    cases run
    rfl
  | arg :: args, _, _, _, _, _, _, run => by
    obtain ⟨value, values, lowered, s1, rfl, rest, -⟩ := lowerArgs_cons_inv run
    rw [List.length_cons, List.length_cons, lowerArgs_length rest]

theorem allSome_cons_isSome {α : Type} {value : Option α} {values : List (Option α)} :
    (Lower.allSome (value :: values)).isSome = true ↔
      value.isSome = true ∧ (Lower.allSome values).isSome = true := by
  cases value with
  | none => simp [Lower.allSome]
  | some v => simp [Lower.allSome]

/-- What is said of an argument that names an array as a whole. -/
theorem wholeArray?_iff (h : s.symbols.Regular) {array : Symbol} {len : Nat} :
    Lower.wholeArray? s arg = some (array, len) ↔ ∃ name line line' old,
      arg = .read (.whole name false line) line' old ∧ s.symbols.scopes.Offers name array ∧
        array.kind = .array len := by
  constructor
  · intro hw
    unfold Lower.wholeArray? at hw
    split at hw
    · rename_i name line line' old
      split at hw
      · rename_i symbol hr
        split at hw
        · rename_i hk
          cases hw
          exact ⟨name, line, line', old, rfl, (resolveVariable_iff h).mp hr, hk⟩
        · cases hw
      · cases hw
    · cases hw
  · rintro ⟨name, line, line', old, rfl, hoffers, hk⟩
    simp only [Lower.wholeArray?, (resolveVariable_iff h).mpr hoffers, hk]

end Args

mutual

/-- **An expression is lowered to a value** of the type that the rules give it. -/
theorem expr_judged : ∀ (e : Expr) {s s' : Lowering} {r : Result} {e' : Expr}, s.Reached →
    e.lower s = .ok ((r, e'), s') → Verdict r s s' (HasType s.symbols.scopes e)
  | .literal value line old, s, s', r, e', h, run => by
    rw [Expr.lower] at run
    obtain ⟨result, s1, run1, hpure⟩ := run_bind_inv run
    cases hpure
    refine (literal_verdict h.fresh run1).congr fun ty => ⟨?_, ?_⟩
    · rintro rfl
      exact .literal
    · rintro ⟨⟩
      rfl
  | .read place line old, s, s', r, e', h, run => by
    rw [Expr.lower] at run
    obtain ⟨_, _, hget, rest1⟩ := run_bind_inv run
    cases hget
    obtain ⟨found, s1, run1, rest2⟩ := run_bind_inv rest1
    cases hr : s.resolveVariable place.name with
    | error cause =>
      rw [hr] at run1
      cases run1
      cases rest2
      refine verdict_none fun ty hty => ?_
      cases hty with
      | read hplace =>
        obtain ⟨symbol, hoffers⟩ := hplace.offers
        rw [(resolveVariable_iff h.regular).mpr hoffers] at hr
        cases hr
    | ok symbol =>
      rw [hr] at run1
      cases run1
      obtain ⟨⟨address, lowered⟩, s2, run2, rest3⟩ := run_bind_inv rest2
      obtain ⟨result, s3, run3, hpure⟩ := run_bind_inv rest3
      cases hpure
      obtain ⟨hplace, herrors⟩ :=
        place_judged place h ((resolveVariable_iff h.regular).mp hr) run2
      refine ((readAt_verdict run3).behind fun ty hty => herrors hty.1).congr fun ty => ⟨?_, ?_⟩
      · rintro ⟨hsome, hty, hneg⟩
        exact .read ((hplace ty).mp ⟨hsome, hty⟩) hneg
      · rintro (_ | ⟨hp, hneg⟩)
        obtain ⟨hsome, hty⟩ := (hplace ty).mpr hp
        exact ⟨hsome, hty, hneg⟩
  | .not operand line old, s, s', r, e', h, run => by
    rw [Expr.lower] at run
    obtain ⟨⟨value, lowered⟩, s1, run1, rest1⟩ := run_bind_inv run
    obtain ⟨result, s2, run2, hpure⟩ := run_bind_inv rest1
    cases hpure
    have hv := expr_judged operand h run1
    refine ((complement_verdict run2).behind fun ty hty => hv.errors ?_).congr fun ty => ⟨?_, ?_⟩
    · exact isSome_of_ty? hty.1
    · rintro ⟨hty, hmem⟩
      exact .not ((hv.ty ty).mp hty) hmem
    · rintro (_ | _ | ⟨hty, hmem⟩)
      exact ⟨(hv.ty ty).mpr hty, hmem⟩
  | .binary op lhs rhs line old, s, s', r, e', h, run => by
    rw [Expr.lower] at run
    obtain ⟨⟨left, lhs'⟩, s1, run1, rest1⟩ := run_bind_inv run
    obtain ⟨⟨right, rhs'⟩, s2, run2, rest2⟩ := run_bind_inv rest1
    obtain ⟨result, s3, run3, hpure⟩ := run_bind_inv rest2
    cases hpure
    have hl := expr_judged lhs h run1
    have hr := expr_judged rhs (h.expr run1) run2
    rw [h.expr_scopes run1] at hr
    refine ((binary_verdict run3).behind ?_).congr fun ty => ⟨?_, ?_⟩
    · rintro ty ⟨a, b, hla, hrb, -⟩
      rw [hr.errors (isSome_of_ty? hrb), hl.errors (isSome_of_ty? hla)]
    · rintro ⟨a, b, hla, hrb, rule⟩
      exact .binary ((hl.ty a).mp hla) ((hr.ty b).mp hrb) rule
    · rintro (_ | _ | _ | ⟨hla, hrb, rule⟩)
      exact ⟨_, _, (hl.ty _).mpr hla, (hr.ty _).mpr hrb, rule⟩
  | .call callee args line old, s, s', r, e', h, run => by
    rw [Expr.lower] at run
    obtain ⟨_, _, hget, rest1⟩ := run_bind_inv run
    cases hget
    -- a type for the call needs a procedure of the name
    have known : ∀ {ty}, HasType s.symbols.scopes (.call callee args line old) ty →
        ∃ symbol params, s.symbols.lookup? callee = some symbol ∧ symbol.kind = .procedure params ∧
          ArgsFit s.symbols.scopes params args ∧ ty = symbol.ty := by
      intro ty hty
      cases hty with
      | call hshows hk hfit =>
        exact ⟨_, _, (SymbolTable.lookup?_iff h.regular).mpr hshows, hk, hfit, rfl⟩
    cases hl : s.symbols.lookup? callee with
    | none =>
      rw [hl] at rest1
      cases rest1
      refine verdict_none fun ty hty => ?_
      obtain ⟨_, _, hlookup, -⟩ := known hty
      rw [hl] at hlookup
      cases hlookup
    | some symbol =>
      rw [hl] at rest1
      cases hk : symbol.kind with
      | procedure params =>
        simp only [hk] at rest1
        obtain ⟨⟨values, lowered⟩, s1, run1, rest2⟩ := run_bind_inv rest1
        obtain ⟨result, s2, run2, hpure⟩ := run_bind_inv rest2
        cases hpure
        have hargs := fun hlen => args_judged callee args h hlen run1
        have hlength := lowerArgs_length run1
        refine ((finishCall_verdict run2).behind ?_).congr fun ty => ⟨?_, ?_⟩
        · rintro ty ⟨hlen, hsome, -⟩
          exact (hargs (hlen.trans hlength)).2 hsome
        · rintro ⟨hlen, hsome, rfl⟩
          exact .call ((SymbolTable.lookup?_iff h.regular).mp hl) hk
            ((hargs (hlen.trans hlength)).1.mp hsome)
        · intro hty
          obtain ⟨_, _, hlookup, hk', hfit, rfl⟩ := known hty
          cases hl.symm.trans hlookup
          cases hk.symm.trans hk'
          exact ⟨hfit.length_eq.trans hlength.symm, (hargs hfit.length_eq).1.mpr hfit, rfl⟩
      | _ =>
        simp only [hk] at rest1
        cases rest1
        refine verdict_none fun ty hty => ?_
        obtain ⟨_, params, hlookup, hk', -⟩ := known hty
        cases hl.symm.trans hlookup
        cases hk.symm.trans hk'

/-- **A place is lowered to an address** if the rules give it a type. -/
theorem place_judged : ∀ (place : Place) {s s' : Lowering} {symbol : Symbol}
    {address : Option Value} {place' : Place}, s.Reached →
    s.symbols.scopes.Offers place.name symbol →
    place.lower symbol s = .ok ((address, place'), s') →
    (∀ ty, (address.isSome = true ∧ ty = symbol.ty) ↔ PlaceHasType s.symbols.scopes place ty) ∧
      (address.isSome = true → s'.errors = s.errors)
  | .whole name negated line, s, s', symbol, address, place', h, hoffers, run => by
    rw [Place.lower] at run
    have single : ∀ {ty}, PlaceHasType s.symbols.scopes (.whole name negated line) ty →
        symbol.kind = .variable ∧ ty = symbol.ty := by
      intro ty hty
      cases hty with
      | whole hoffers' hk =>
        cases hoffers.unique h.regular hoffers'
        exact ⟨hk, rfl⟩
    cases hk : symbol.kind with
    | array | procedure =>
      rw [hk] at run
      cases run
      refine ⟨fun ty => iff_of_false (by simp) fun hty => ?_, by simp⟩
      cases hk.symm.trans (single hty).1
    | _ =>
      rw [hk] at run
      cases run
      refine ⟨fun ty => ⟨?_, fun hty => ⟨rfl, (single hty).2⟩⟩, fun _ => rfl⟩
      rintro ⟨-, rfl⟩
      exact .whole hoffers hk
  | .element name index negated line, s, s', symbol, address, place', h, hoffers, run => by
    rw [Place.lower] at run
    have array : ∀ {ty}, PlaceHasType s.symbols.scopes (.element name index negated line) ty →
        (∃ len, symbol.kind = .array len) ∧ HasType s.symbols.scopes index .integer ∧
          ty = symbol.ty := by
      intro ty hty
      cases hty with
      | element hoffers' hk hindex =>
        cases hoffers.unique h.regular hoffers'
        exact ⟨⟨_, hk⟩, hindex, rfl⟩
    cases hk : symbol.kind with
    | array len =>
      rw [hk] at run
      obtain ⟨⟨value, lowered⟩, s1, run1, rest1⟩ := run_bind_inv run
      obtain ⟨address, s2, run2, hpure⟩ := run_bind_inv rest1
      cases hpure
      have hindex := expr_judged index h run1
      obtain ⟨hthere, herrors⟩ := elementAddress_judged run2
      refine ⟨fun ty => ⟨?_, fun hty => ?_⟩, fun hsome => ?_⟩
      · rintro ⟨hsome, rfl⟩
        exact .element hoffers hk ((hindex.ty _).mp (hthere.mp hsome))
      · obtain ⟨-, hinteger, hty⟩ := array hty
        exact ⟨hthere.mpr ((hindex.ty _).mpr hinteger), hty⟩
      · rw [herrors hsome, hindex.errors (isSome_of_ty? (hthere.mp hsome))]
    | _ =>
      rw [hk] at run
      cases run
      refine ⟨fun ty => iff_of_false (by simp) fun hty => ?_, by simp⟩
      obtain ⟨⟨len, hk'⟩, -⟩ := array hty
      cases hk.symm.trans hk'

/-- **Arguments are lowered to values** if they fit the parameters. -/
theorem args_judged (callee : String) : ∀ (args : List Expr) {s s' : Lowering} {position : Nat}
    {params : List ParamShape} {values : List (Option Value)} {lowered : List Expr}, s.Reached →
    params.length = args.length →
    lowerArgs callee position params args s = .ok ((values, lowered), s') →
    ((Lower.allSome values).isSome = true ↔ ArgsFit s.symbols.scopes params args) ∧
      ((Lower.allSome values).isSome = true → s'.errors = s.errors)
  | [], s, s', position, params, values, lowered, h, hlen, run => by
    rw [lowerArgs] at run
    cases run
    cases List.length_eq_zero_iff.mp hlen
    exact ⟨iff_of_true rfl .nil, fun _ => rfl⟩
  | arg :: args, s, s', position, params, values, lowered, h, hlen, run => by
    obtain ⟨value, values, lowered', s1, rfl, rest, hvalue⟩ := lowerArgs_cons_inv run
    cases params with
    | nil => cases hlen
    | cons param params =>
      rw [allSome_cons_isSome]
      obtain ⟨array, len, hw, run1⟩ | ⟨hw, result, arg', s0, run1, run2⟩ := hvalue
      · have run0 := lowerArgs_array hw run1
        obtain ⟨hfits, herrors⟩ := args_judged callee args (h.args run0) (Nat.succ.inj hlen) rest
        rw [h.args_scopes run0] at hfits
        obtain ⟨hpass, herrors1⟩ := passArray_judged rfl run1
        obtain ⟨name, line, line', old, rfl, hoffers, hk⟩ := (wholeArray?_iff h.regular).mp hw
        refine ⟨⟨?_, ?_⟩, ?_⟩
        · rintro ⟨hvalue, hvalues⟩
          obtain ⟨hty, hplen⟩ := hpass.mp hvalue
          exact .array hoffers hk hty hplen (hfits.mp hvalues)
        · intro hfit
          cases hfit with
          | value _ hread =>
            -- an array as a whole is no value
            obtain ⟨symbol, hoffers', hk'⟩ := hread.whole
            cases hoffers.unique h.regular hoffers'
            cases hk.symm.trans hk'
          | array hoffers' hk' hty hplen hrest =>
            cases hoffers.unique h.regular hoffers'
            cases hk.symm.trans hk'
            exact ⟨hpass.mpr ⟨hty, hplen⟩, hfits.mpr hrest⟩
        · rintro ⟨hvalue, hvalues⟩
          rw [herrors hvalues, herrors1 hvalue]
      · have run0 := lowerArgs_value hw run1 run2
        obtain ⟨hfits, herrors⟩ := args_judged callee args (h.args run0) (Nat.succ.inj hlen) rest
        rw [h.args_scopes run0] at hfits
        have harg := expr_judged arg h run1
        obtain ⟨hpass, herrors2⟩ := passValue_judged rfl run2
        refine ⟨⟨?_, ?_⟩, ?_⟩
        · rintro ⟨hvalue, hvalues⟩
          obtain ⟨ty, hty, hplen, hfit⟩ := hpass.mp hvalue
          exact .value hplen ((harg.ty ty).mp hty) (fits_iff.mp hfit) (hfits.mp hvalues)
        · intro hfit
          cases hfit with
          | value hplen harg' hty hrest =>
            exact ⟨hpass.mpr ⟨_, (harg.ty _).mpr harg', hplen, fits_iff.mpr hty⟩, hfits.mpr hrest⟩
          | array hoffers hk _ _ _ =>
            rw [(wholeArray?_iff h.regular).mpr ⟨_, _, _, _, rfl, hoffers, hk⟩] at hw
            cases hw
        · rintro ⟨hvalue, hvalues⟩
          obtain ⟨ty, hty, -⟩ := hpass.mp hvalue
          rw [herrors hvalues, herrors2 hvalue, harg.errors (isSome_of_ty? hty)]

end

/-- **Lowering checks the types.** At every state that is reached, an expression is lowered. It has
a value of a type exactly if the rules give it the type. The type is filled in, and then no error is
reported; if there is none, an error is. -/
theorem lower_iff_hasType {s : Lowering} (h : s.Reached) (e : Expr) :
    ∃ r e' s', e.lower s = .ok ((r, e'), s') ∧
      (∀ ty, (∃ v, r = some (v, ty)) ↔ HasType s.symbols.scopes e ty) ∧
      e'.ty = r.ty? ∧
      (r.isSome = true → s'.errors = s.errors) ∧
      (r = none → ∃ new, new ≠ [] ∧ s'.errors = s.errors ++ new) := by
  obtain ⟨⟨r, e'⟩, s', run, -⟩ := h.expr_runs e
  have hv := expr_judged e h run
  obtain ⟨⟨new, hnew⟩, hfine⟩ := expr_tells e s s' (r, e') run
  refine ⟨r, e', s', run, fun ty => Iff.trans ?_ (hv.ty ty), lower_ty run, hv.errors, ?_⟩
  · constructor
    · rintro ⟨v, rfl⟩
      rfl
    · intro hty
      obtain ⟨⟨v, _⟩, hr, rfl⟩ := Option.map_eq_some_iff.mp hty
      exact ⟨v, hr⟩
  · rintro rfl
    refine ⟨new, ?_, hnew.symm⟩
    rintro rfl
    rw [List.append_nil] at hnew
    cases hfine hnew.symm

/-- A procedure of a number and an array. -/
def scaling : Heading where
  name := "scale"
  result := .builtin .float
  params := [⟨"x", .builtin .float, false, none, 1⟩, ⟨"a", .builtin .integer, false, some 3, 1⟩]
  isGlobal := false

/-- The number times the result of the procedure for an integer and the same array. -/
def scaled : Expr :=
  .binary .mul (.read (.whole "x" false 1) 1 none)
    (.call "scale" [.literal (.integer 2) 1 none, .read (.whole "a" false 1) 1 none] 1 none) 1 none

/-- The procedure can call itself. -/
theorem scaled_hasType : ∃ s : Lowering, s.Reached ∧ HasType s.symbols.scopes scaled .float ∧
    ∃ v e' s', scaled.lower s = .ok ((some (v, .float), e'), s') ∧ e'.ty = some .float ∧
      s'.errors = s.errors := by
  obtain ⟨s, reached, hscopes⟩ : ∃ s : Lowering, s.Reached ∧ ∃ x a p main globals,
      s.symbols.scopes = ⟨globals, [⟨"scale", [x, a]⟩, ⟨main, [p]⟩]⟩ ∧
        x.name = "x" ∧ x.kind = .variable ∧ x.ty = .float ∧
        a.name = "a" ∧ a.kind = .array 3 ∧ a.ty = .integer ∧
        p.name = "scale" ∧ p.kind = .procedure [⟨.float, none⟩, ⟨.integer, some 3⟩] ∧
          p.ty = .float :=
    ⟨_, @Lowering.Reached.procedure _ _ _ 1 scaling _ (.start (begin_run "m" "t")) rfl rfl rfl,
      _, _, _, _, _, rfl, rfl, rfl, rfl, rfl, rfl, rfl, rfl, rfl, rfl⟩
  obtain ⟨x, a, p, main, globals, hscopes, hx, hxk, hxt, ha, hak, hat, hp, hpk, hpt⟩ := hscopes
  have typed : HasType s.symbols.scopes scaled .float := by
    have hread : s.symbols.scopes.Offers "x" x := by
      refine .own _ _ (congrArg Scopes.locals hscopes) ?_ hx ?_
      · exact List.mem_cons_self
      · rw [Symbol.isProcedure, hxk]
    have harray : s.symbols.scopes.Offers "a" a := by
      refine .own _ _ (congrArg Scopes.locals hscopes) ?_ ha ?_
      · exact List.mem_cons_of_mem _ List.mem_cons_self
      · rw [Symbol.isProcedure, hak]
    have hcallee : s.symbols.scopes.Shows "scale" p := by
      refine .inScope [_] _ [] (congrArg Scopes.locals hscopes) ?_ ?_ hp
      · simp [Scope.Lacks, hx, ha]
      · exact List.mem_cons_self
    refine .binary (.read (.whole hread hxk) fun _ => ?_) (.call hcallee hpk ?_) ?_
    · rw [hxt]
      rfl
    · exact .value rfl .literal (Or.inr ⟨rfl, rfl⟩) (.array harray hak hat.symm rfl .nil)
    · rw [hxt, hpt]
      exact .floats (by simp) rfl rfl (Or.inl rfl)
  obtain ⟨r, e', s', run, htype, hty, herrors, -⟩ := lower_iff_hasType reached scaled
  obtain ⟨v, rfl⟩ := (htype .float).mpr typed
  exact ⟨s, reached, typed, v, e', s', run, hty, herrors rfl⟩

end ProcLang
