import ProcLang.Proofs.Stage.Outside

/-!
# Expressions at a stage

Lowering an expression keeps the invariant, declares nothing, and gives a value of the type that it
says, which can be used at the cursor (`Stage.expr_takes`). The addresses of variables are those of
storage of their type, whole or by element (`Stage.place_takes`), and arguments have the types in
which their parameters are passed (`Stage.args_takes`).
-/

namespace ProcLang

open Ir Lower Naming

/-- The types of operands that an operation can be applied to. -/
def Operation.Suits : Operation → Ty → Ty → Prop
  | bits op ty, l, r => l = ty ∧ r = ty ∧ op.Accepts ty.ir
  | integers op, l, r => l = .integer ∧ r = .integer ∧ op.Accepts .i32
  | floats op, l, r => l.fits .float = true ∧ r.fits .float = true ∧ op.Accepts .float
  | compareIntegers pred, l, r => l = r ∧ pred.Accepts l.ir
  | compareFloats _, l, r => l.fits .float = true ∧ r.fits .float = true
  | equalStrings, l, r => l = .string ∧ r = .string

theorem BinaryOp.numeric?_suits {op : BinaryOp} {o : Operation} {l r : Ty} {isFloat : Bool}
    (hl : l.fits .float = true) (hr : r.fits .float = true)
    (hi : isFloat = false → l = .integer ∧ r = .integer) (h : op.numeric? isFloat = some o) :
    o.Suits l r := by
  cases isFloat with
  | true => cases op <;> cases h <;> simp [Operation.Suits, hl, hr, BinOp.Accepts]
  | false =>
    obtain ⟨rfl, rfl⟩ := hi rfl
    cases op <;> cases h <;>
      simp [Operation.Suits, BinOp.Accepts, IntPredicate.Accepts, Ty.ir]

/-- An operator stands for an operation that suits the types of its operands. -/
theorem BinaryOp.operation?_suits {op : BinaryOp} {l r : Ty} {o : Operation}
    (h : op.operation? l r = some o) : o.Suits l r := by
  unfold operation? at h
  cases hbit : op.bitOp? with
  | some bitOp =>
    have haccepts : bitOp.Accepts .i32 ∧ bitOp.Accepts .i1 := by
      cases op <;> cases hbit <;> simp [BinOp.Accepts]
    rw [hbit] at h
    cases l <;> cases r <;> cases h <;>
      simp [Operation.Suits, Ty.ir, haccepts.1, haccepts.2]
  | none =>
    rw [hbit] at h
    cases l <;> cases r
    case integer.integer => exact numeric?_suits rfl rfl (fun _ => ⟨rfl, rfl⟩) h
    case integer.float => exact numeric?_suits rfl rfl (by simp) h
    case float.integer => exact numeric?_suits rfl rfl (by simp) h
    case float.float => exact numeric?_suits rfl rfl (by simp) h
    case bool.bool => cases op <;> cases h <;> simp [Operation.Suits, IntPredicate.Accepts, Ty.ir]
    case string.string =>
      cases op <;> cases h
      exact ⟨rfl, rfl⟩
    all_goals cases h

theorem Ty.eq_of_fits {source target : Ty} (h : source.fits target = true)
    (hne : ¬ (source = .integer ∧ target = .float)) : source = target := by
  cases source <;> cases target <;> simp_all [fits]

variable {symbol : Symbol} {st' : Stage} {l r : Value}

namespace Stage

variable {D : Headings} {st : Stage}

/-- If a part of a program computes something, it is of the type that is said and can be used. -/
def Gives (st : Stage) (r : Result) : Prop :=
  ∀ v ty, r = some (v, ty) → st.Holds v ty

theorem gives_none (st : Stage) : st.Gives none := fun _ _ h => by cases h

theorem gives_some {v : Value} {ty : Ty} (h : st.Holds v ty) : st.Gives (some (v, ty)) := by
  rintro _ _ ⟨⟩
  exact h

theorem Roams.gives (h : st.Roams D st') {r : Result} (hr : st.Gives r) :
    st'.Gives r := fun v ty hv => h.holds (hr v ty hv)

/-- Where a complaint is made, nothing is computed. -/
theorem report_gives (h : st.Sound D) (line : Nat) (cause : LowerCause) :
    Takes (calm D) st (report line cause) fun r st' => st'.Gives r :=
  (report_takes h line cause).mono fun _ st' _ _ hr => hr.1 ▸ gives_none st'

theorem offers_int (st : Stage) (n : Int) : st.Offers (.int n) :=
  ⟨Or.inl rfl, fun _ h => by cases h⟩

theorem offers_bool (st : Stage) (b : Bool) : st.Offers (.bool b) :=
  ⟨Or.inr rfl, fun _ h => by cases h⟩

theorem offers_float (st : Stage) (x : Binary32) : st.Offers (.float x) :=
  ⟨rfl, fun _ h => by cases h⟩

theorem offers_address (st : Stage) (name : String) : st.Offers (.address name) :=
  ⟨rfl, fun _ h => by cases h⟩

/-! ## Instructions -/

section Values

variable (h : st.Sound D)

include h

/-- An instruction that only computes a value. -/
theorem value_takes (hint : String) (i : String → Instr) {ty : Ir.Ty}
    (hr : ∀ d, (i d).result? = some ⟨d, ty⟩) (ha : ∀ d, (i d).isAlloca = false)
    (ht : ∀ n, (i (numbered hint n)).Typed st.env st.fn st.arrays)
    (ho : ∀ d, ∀ v ∈ (i d).operands, st.Offers v) :
    Takes (calm D) st (build (.emitValue hint ty i)) fun v st' =>
      (v.ty = ty ∧ st'.Offers v) ∧ ∃ d, v = .register ty d ∧ i d ∈ st'.fn.instrs := by
  have htargets : ∀ d, (i d).targets = [] := fun d => by
    have := hr d
    cases hi : i d <;> simp_all [Instr.result?, Instr.targets]
  refine (emitValue_takes h hr fun n => ⟨ha _, ht n, ho _, ?_⟩).mono ?_
  · intro t ht'
    rw [htargets] at ht'
    cases ht'
  · rintro v st' - - ⟨d, rfl, hmem, hv⟩
    exact ⟨⟨rfl, hv⟩, d, rfl, hmem⟩

theorem binary_takes (op : BinOp) (hint : String) (hl : st.Offers l)
    (hr : st.Offers r) (hty : l.ty = r.ty) (hop : op.Accepts l.ty) :
    Takes (calm D) st (build (.binary op l r hint)) fun v st' => v.ty = l.ty ∧ st'.Offers v :=
  (value_takes h hint (.binary · op l r) (fun _ => rfl) (fun _ => rfl) (fun _ => ⟨hty, hop⟩)
    (by simp [Instr.operands, hl, hr])).mono fun _ _ _ _ hv => hv.1

theorem icmp_takes {pred : IntPredicate} (hint : String) (hl : st.Offers l)
    (hr : st.Offers r) (hty : l.ty = r.ty) (hp : pred.Accepts l.ty) :
    Takes (calm D) st (build (.icmp pred l r hint)) fun v st' => st'.Holds v .bool :=
  (value_takes h hint (.icmp · pred l r) (fun _ => rfl) (fun _ => rfl) (fun _ => ⟨hty, hp⟩)
    (by simp [Instr.operands, hl, hr])).mono fun _ _ _ _ hv => hv.1

theorem fcmp_takes {pred : FloatPredicate} (hint : String) (hl : st.Holds l .float)
    (hr : st.Holds r .float) :
    Takes (calm D) st (build (.fcmp pred l r hint)) fun v st' => st'.Holds v .bool :=
  (value_takes h hint (.fcmp · pred l r) (fun _ => rfl) (fun _ => rfl) (fun _ => ⟨hl.1, hr.1⟩)
    (by simp [Instr.operands, hl.2, hr.2])).mono fun _ _ _ _ hv => hv.1

theorem load_takes {ty : Ty} {ptr : Value} (hint : String)
    (hp : Points st.env st.fn st.arrays ptr ty.ir) (ho : st.Offers ptr) :
    Takes (calm D) st (build (.load ty.ir ptr hint)) fun v st' => st'.Holds v ty :=
  (value_takes h hint (.load · ty.ir ptr) (fun _ => rfl) (fun _ => rfl) (fun _ => hp)
    (by simp [Instr.operands, ho])).mono fun _ _ _ _ hv => hv.1

/-- An integer becomes a float where one is wanted. -/
theorem coerce_takes {v : Value} {source target : Ty} (hv : st.Holds v source)
    (hfit : source.fits target = true) :
    Takes (calm D) st (coerce v source target) fun v' st' => st'.Holds v' target := by
  by_cases hconv : source = .integer ∧ target = .float
  · obtain ⟨rfl, rfl⟩ := hconv
    change Takes (calm D) st (build (.sitofp v "conv")) _
    unfold Build.sitofp
    split
    · exact takes_pure h ⟨rfl, offers_float st _⟩
    · exact (value_takes h "conv" (.sitofp · v) (fun _ => rfl) (fun _ => rfl) (fun _ => hv.1)
        (by simp [Instr.operands, hv.2])).mono fun _ _ _ _ hv => hv.1
  · have : source = target := Ty.eq_of_fits hfit hconv
    subst this
    have hsame : coerce v source source = pure v := by cases source <;> rfl
    rw [hsame]
    exact takes_pure h hv

/-! ## Operators -/

theorem operate_takes {o : Operation} {lty rty : Ty} (hl : st.Holds l lty)
    (hr : st.Holds r rty) (ho : o.Suits lty rty) :
    Takes (calm D) st (operate o l lty r rty) fun v st' => st'.Holds v o.ty := by
  cases o with
  | bits op _
  | integers op =>
    obtain ⟨rfl, rfl, hop⟩ := ho
    refine (binary_takes h op op.name hl.2 hr.2 (hl.1.trans hr.1.symm) (hl.1 ▸ hop)).mono ?_
    exact fun v st' _ _ hv => ⟨hv.1.trans hl.1, hv.2⟩
  | floats op =>
    obtain ⟨hlf, hrf, hop⟩ := ho
    refine (coerce_takes h hl hlf).bind fun l' st1 hs1 hc1 hl' => ?_
    refine (coerce_takes hs1 (hc1.holds hr) hrf).bind fun r' st2 hs2 hc2 hr' => ?_
    have hl2 := hc2.holds hl'
    refine (binary_takes hs2 op op.name hl2.2 hr'.2 (hl2.1.trans hr'.1.symm) (hl2.1 ▸ hop)).mono ?_
    exact fun v st' _ _ hv => ⟨hv.1.trans hl2.1, hv.2⟩
  | compareIntegers pred =>
    obtain ⟨rfl, hp⟩ := ho
    exact icmp_takes h "cmp" hl.2 hr.2 (hl.1.trans hr.1.symm) (hl.1 ▸ hp)
  | compareFloats pred =>
    obtain ⟨hlf, hrf⟩ := ho
    refine (coerce_takes h hl hlf).bind fun l' st1 hs1 hc1 hl' => ?_
    refine (coerce_takes hs1 (hc1.holds hr) hrf).bind fun r' st2 hs2 hc2 hr' => ?_
    exact fcmp_takes hs2 "cmp" (hc2.holds hl') hr'
  | equalStrings =>
    obtain ⟨rfl, rfl⟩ := ho
    refine (declareRoutine_takes h _).bind fun _ st1 hs1 hc1 _ => ?_
    have hl1 := hc1.holds hl
    have hr1 := hc1.holds hr
    refine (value_takes hs1 "streq" (.call · _ _ [l, r]) (fun _ => rfl) (fun _ => rfl)
      (fun n => Or.inr ⟨⟨n, rfl⟩, rfl, rfl, ?_⟩) (by simp [Instr.operands, hl1.2, hr1.2])).mono
      fun _ _ _ _ hv => hv.1
    rw [List.map_cons, List.map_cons, List.map_nil, hl1.1, hr1.1]
    rfl

theorem binaryOp_takes (line : Nat) (op : BinaryOp) {l r : Result} (hl : st.Gives l)
    (hr : st.Gives r) : Takes (calm D) st (binary line op l r) fun v st' => st'.Gives v := by
  unfold binary
  split
  · rename_i l lty r rty
    cases hop : op.operation? lty rty with
    | some o =>
      refine (operate_takes h (hl l lty rfl) (hr r rty rfl) (BinaryOp.operation?_suits hop)).bind ?_
      exact fun v st' hs _ hv => takes_pure hs (gives_some hv)
    | none => exact report_gives h line _
  · exact takes_pure h (gives_none st)

theorem complement_takes (line : Nat) {operand : Result} (ho : st.Gives operand) :
    Takes (calm D) st (complement line operand) fun v st' => st'.Gives v := by
  unfold complement
  split
  · exact takes_pure h (gives_none st)
  · rename_i value ty
    have hv := ho value ty rfl
    cases hmask : allBits? ty with
    | none => exact report_gives h line _
    | some mask =>
      have hmaskty : value.ty = mask.ty ∧ BinOp.xor.Accepts value.ty ∧ st.Offers mask := by
        rw [hv.1]
        cases ty <;> cases hmask
        · exact ⟨rfl, Or.inl rfl, offers_int st _⟩
        · exact ⟨rfl, Or.inr rfl, offers_bool st _⟩
      obtain ⟨hty, hop, hmask⟩ := hmaskty
      refine (binary_takes h .xor "not" hv.2 hmask hty hop).bind fun v st' hs _ hv' => ?_
      exact takes_pure hs (gives_some ⟨hv'.1.trans hv.1, hv'.2⟩)

theorem literal_takes (line : Nat) (value : Literal) :
    Takes (calm D) st (literal line value) fun v st' => st'.Gives v := by
  cases value with
  | integer n => exact takes_pure h (gives_some ⟨rfl, offers_int st n⟩)
  | float x => exact takes_pure h (gives_some ⟨rfl, offers_float st x⟩)
  | bool b => exact takes_pure h (gives_some ⟨rfl, offers_bool st b⟩)
  | string text =>
    refine (uniqueName_takes h "str").bind fun name st1 hs1 _ _ => ?_
    refine (addGlobal_takes hs1 _).bind fun r st2 hs2 _ hr => ?_
    cases r with
    | ok address =>
      obtain ⟨rfl, -⟩ := hr _ rfl
      exact takes_pure hs2 (gives_some ⟨rfl, offers_address st2 _⟩)
    | error e => exact report_gives hs2 line _

theorem negate_takes (line : Nat) (negated : Bool) {value : Value} {ty : Ty}
    (hv : st.Holds value ty) :
    Takes (calm D) st (negate line negated value ty) fun v st' => st'.Gives v := by
  cases negated with
  | false => exact takes_pure h (gives_some hv)
  | true =>
    cases ty with
    | integer =>
      refine (binary_takes h .sub "neg" (offers_int st 0) hv.2 hv.1.symm rfl).bind ?_
      exact fun v st' hs _ hv' => takes_pure hs (gives_some hv')
    | float =>
      refine (value_takes h "neg" (.fneg · value) (fun _ => rfl) (fun _ => rfl) (fun _ => hv.1)
        (by simp [Instr.operands, hv.2])).bind fun v st' hs _ hv' => ?_
      exact takes_pure hs (gives_some hv'.1)
    | bool | string => exact report_gives h line _

end Values

/-! ## Variables -/

/-- If there is an address, it is that of something of the type, and it can be used. -/
def Addresses (st : Stage) (address : Option Value) (ty : Ir.Ty) : Prop :=
  ∀ v, address = some v → Points st.env st.fn st.arrays v ty ∧ st.Offers v

theorem report_addresses (h : st.Sound D) (line : Nat) (cause : LowerCause) (ty : Ir.Ty) :
    Takes (calm D) st (report line cause) fun r st' => st'.Addresses r ty :=
  (report_takes h line cause).mono fun _ _ _ _ hr _ hv => by
    rw [hr.1] at hv
    cases hv

/-- A variable that can be used is bound to storage of its type. -/
theorem Sound.located (h : st.Sound D) {name : String}
    (hr : st.state.resolveVariable name = .ok symbol) : symbol.Located st.env st.fn st.arrays := by
  obtain ⟨-, -, -, ⟨scope, outer, hl, hmem⟩ | hmem⟩ :=
    SymbolTable.resolveVariable_cases h.symbols.regular hr
  · exact h.symbols.locals scope (by rw [hl]; rfl) symbol hmem
  · exact (h.symbols.globals symbol hmem).1 st.fn st.arrays

theorem Roams.located (h : st.Roams D st') (hs : symbol.Located st.env st.fn st.arrays) :
    symbol.Located st'.env st'.fn st'.arrays :=
  h.arrays ▸ hs.mono h.env h.fn

theorem readAt_takes (h : st.Sound D) (place : Place) (symbol : Symbol) {address : Option Value}
    (ha : st.Addresses address symbol.ty.ir) :
    Takes (calm D) st (readAt place symbol address) fun v st' => st'.Gives v := by
  cases address with
  | none => exact takes_pure h (gives_none st)
  | some address =>
    obtain ⟨hp, ho⟩ := ha address rfl
    refine (load_takes h place.name hp ho).bind fun v st' hs _ hv => ?_
    exact negate_takes hs place.line place.negated hv

theorem elementAddress_takes (h : st.Sound D) (line : Nat) {len : Nat}
    (hk : symbol.kind = .array len) (hs : symbol.Located st.env st.fn st.arrays) {index : Result}
    (hi : st.Gives index) :
    Takes (calm D) st (elementAddress line symbol index) fun v st' =>
      st'.Addresses v symbol.ty.ir := by
  have hstored : Stored st.env st.fn st.arrays symbol.binding (.array len symbol.ty.ir) := by
    unfold Symbol.Located at hs
    rw [hk] at hs
    exact hs
  unfold elementAddress
  split
  · exact takes_pure h fun _ h => by cases h
  · rename_i index
    have hindex := hi index .integer rfl
    refine (value_takes h "elem" (.gep · symbol.ty.ir symbol.binding index) (fun _ => rfl)
      (fun _ => rfl) (fun _ => ⟨hindex.1, len, hstored⟩)
      (by simp [Instr.operands, hindex.2, h.offers_stored hstored])).map ?_
    rintro v st' - - ⟨⟨-, ho⟩, d, hd, hmem⟩ _ ⟨⟩
    exact ⟨Or.inr ⟨d, _, _, hd, hmem⟩, ho⟩
  · exact report_addresses h line _ _

/-! ## Calls -/

/-- The procedure that a symbol stands for can be called, at the latest when it was declared as a
routine. -/
def Reaches (st : Stage) (symbol : Symbol) : Prop :=
  symbol.Callable st.env ∨ ∃ r ∈ Routine.callable, symbol = r.symbol ∧
    r.name ∉ st.module.functions.map Function.name

/-- What a name stands for can be called, also after more was lowered. -/
theorem Sound.reaches (h : st.Sound D) {name : String}
    (hl : st.state.symbols.lookup? name = some symbol) (h' : st'.Sound D) (hc : st.Calm D st') :
    st'.Reaches symbol := by
  obtain ⟨hname, ⟨scope, hs, hmem⟩ | ⟨hmem, hnone⟩⟩ := SymbolTable.lookup?_cases hl
  · exact Or.inl ((h.symbols.procedures scope hs symbol hmem).mono hc.env)
  · refine (h.symbols.globals symbol hmem).2.imp (·.mono hc.env) ?_
    rintro ⟨r, hr, rfl⟩
    refine ⟨r, hr, rfl, fun hfun => ?_⟩
    -- a function of this name would hide the routine
    obtain ⟨scope, hs, hcontains⟩ := h'.symbols.hidden r hr hfun
    rw [hc.locals] at hs
    have := hnone scope (List.mem_of_getLast? hs)
    rw [← hname] at this
    exact Bool.false_ne_true (this.symm.trans hcontains)

/-- The arguments have the types in which the parameters are passed, as far as there are
parameters. -/
def Passes (st : Stage) : List ParamShape → List (Option Value) → Prop
  | _, [] => True
  | params, arg :: args =>
    (∀ param v, params.head? = some param → arg = some v →
      v.ty = param.passed ∧ st.Offers v) ∧ Passes st params.tail args

theorem Passes.all_some : ∀ {params : List ParamShape} {args : List (Option Value)}
    {values : List Value}, st.Passes params args → params.length = args.length →
      allSome args = some values →
      values.map Value.ty = params.map ParamShape.passed ∧ ∀ v ∈ values, st.Offers v
  | [], [], _, _, _, h => by
    cases h
    exact ⟨rfl, by simp⟩
  | [], _ :: _, _, _, hlen, _ => by simp at hlen
  | _ :: _, [], _, _, hlen, _ => by simp at hlen
  | _ :: _, none :: _, _, _, _, h => by cases h
  | param :: params, some v :: args, _, ⟨hfirst, hrest⟩, hlen, h => by
    obtain ⟨rest, hsome, rfl⟩ := Option.map_eq_some_iff.mp h
    obtain ⟨htys, hoffers⟩ := hrest.all_some (by simpa using hlen) hsome
    obtain ⟨hty, hoffer⟩ := hfirst param v rfl rfl
    refine ⟨?_, ?_⟩
    · rw [List.map_cons, List.map_cons, hty, htys]
      rfl
    · rintro w hw
      rcases List.mem_cons.mp hw with rfl | hw
      · exact hoffer
      · exact hoffers w hw

theorem finishCall_takes (h : st.Sound D) (line : Nat) (callee : String) {params : List ParamShape}
    (hk : symbol.kind = .procedure params) (hr : st.Reaches symbol) {args : List (Option Value)}
    (ha : st.Passes params args) :
    Takes (calm D) st (finishCall line callee symbol params args) fun v st' => st'.Gives v := by
  unfold finishCall
  by_cases hlen : params.length = args.length
  · rw [if_neg (by simpa using hlen)]
    cases hsome : allSome args with
    | none => exact takes_pure h (gives_none st)
    | some values =>
      obtain ⟨htys, hoffers⟩ := ha.all_some hlen hsome
      refine (declareRoutine_takes h symbol.irName).bind fun _ st1 hs1 hc1 hdeclared => ?_
      have hcallee : ⟨symbol.irName, symbol.ty.ir, values.map Value.ty⟩ ∈ st1.env.callees := by
        rw [htys]
        rcases hr with hcall | ⟨r, hmem, rfl, hnew⟩
        · exact hc1.env.callees (hcall params hk)
        · obtain rfl : r.params.map (fun ty => ⟨ty, none⟩) = params := by
            injection hk
          rw [List.map_map]
          exact hdeclared r hmem rfl hnew
      refine (value_takes hs1 "call" (.call · symbol.ty.ir symbol.irName values) (fun _ => rfl)
        (fun _ => rfl) (fun _ => Or.inl hcallee)
        (fun _ v hv => hc1.offers (hoffers v hv))).bind fun v st' hs _ hv => ?_
      exact takes_pure hs (gives_some hv.1)
  · rw [if_pos (by simpa using hlen)]
    exact report_gives h line _

/-- If there is a value, it can be passed for the parameter, if there is one. -/
def Serves (st : Stage) (param : Option ParamShape) (value : Option Value) : Prop :=
  ∀ p v, param = some p → value = some v → v.ty = p.passed ∧ st.Offers v

theorem serves_none (st : Stage) (param : Option ParamShape) : st.Serves param none :=
  fun _ _ _ h => by cases h

theorem Roams.serves (h : st.Roams D st') {param : Option ParamShape} {value : Option Value}
    (hv : st.Serves param value) : st'.Serves param value :=
  fun p v hp hval => ⟨(hv p v hp hval).1, h.offers (hv p v hp hval).2⟩

theorem argumentMismatch_takes (h : st.Sound D) (line : Nat) (slot : ArgumentSlot)
    (param : ParamShape) (actual : String) :
    Takes (calm D) st (argumentMismatch line slot param actual) fun v st' =>
      st'.Serves slot.param v :=
  (report_takes h line _).mono fun _ st' _ _ hv => hv.1 ▸ serves_none st' _

theorem passArray_takes (h : st.Sound D) (line : Nat) (slot : ArgumentSlot) {array : Symbol}
    {len : Nat} (hk : array.kind = .array len) (hs : array.Located st.env st.fn st.arrays) :
    Takes (calm D) st (passArray line slot array len) fun v st' => st'.Serves slot.param v := by
  have hstored : Stored st.env st.fn st.arrays array.binding (array.ty.irArray len) := by
    unfold Symbol.Located at hs
    rw [hk] at hs
    exact hs
  unfold passArray
  cases hparam : slot.param with
  | none => exact takes_pure h fun p v hp _ => by cases hp
  | some param =>
    by_cases hfit : param.ty = array.ty ∧ param.len = some len
    · simp only [if_pos hfit]
      refine takes_pure h ?_
      rintro _ _ ⟨⟩ ⟨⟩
      exact ⟨by rw [ParamShape.passed, hfit.2]; exact hstored.ptr, h.offers_stored hstored⟩
    · simp only [if_neg hfit]
      exact hparam ▸ argumentMismatch_takes h line slot param _

theorem passValue_takes (h : st.Sound D) (line : Nat) (slot : ArgumentSlot) {value : Result}
    (hv : st.Gives value) :
    Takes (calm D) st (passValue line slot value) fun v st' => st'.Serves slot.param v := by
  unfold passValue
  split
  · exact takes_pure h (serves_none st _)
  · rename_i value ty
    have hvalue := hv value ty rfl
    cases hparam : slot.param with
    | none => exact takes_pure h fun p v hp _ => by cases hp
    | some param =>
      by_cases hfit : param.len = none ∧ ty.fits param.ty = true
      · simp only [if_pos hfit]
        refine (coerce_takes h hvalue hfit.2).map ?_
        rintro v st' - - hv' _ _ ⟨⟩ ⟨⟩
        exact ⟨by rw [ParamShape.passed, hfit.1]; exact hv'.1, hv'.2⟩
      · simp only [if_neg hfit]
        exact hparam ▸ argumentMismatch_takes h line slot param _

theorem wholeArray?_eq_some {s : Lowering} {arg : Expr} {array : Symbol} {len : Nat}
    (h : wholeArray? s arg = some (array, len)) :
    array.kind = .array len ∧ ∃ name, s.resolveVariable name = .ok array := by
  unfold wholeArray? at h
  split at h
  · rename_i name _ _ _
    cases hr : s.resolveVariable name with
    | error e =>
      rw [hr] at h
      cases h
    | ok symbol =>
      rw [hr] at h
      dsimp only at h
      split at h
      · rename_i hk
        cases h
        exact ⟨hk, name, hr⟩
      · cases h
  · cases h

/-! ## Expressions -/

mutual

/-- **Lowering an expression** keeps the invariant and gives a value that can be used. -/
theorem expr_takes : ∀ (e : Expr) {st : Stage}, st.Sound D →
    Takes (calm D) st e.lower fun r st' => st'.Gives r.1
  | .literal value line _, st, h => by
    rw [Expr.lower]
    exact (literal_takes h line value).bind fun r st' hs _ hr => takes_pure hs hr
  | .read place line _, st, h => by
    rw [Expr.lower]
    refine takes_get ((orReport_takes h _ _).bind fun r st1 hs1 _ hr => ?_)
    cases r with
    | none => exact takes_pure hs1 (gives_none st1)
    | some symbol =>
      obtain ⟨hsymbol, rfl⟩ := hr symbol rfl
      refine (place_takes place hs1 (hs1.located hsymbol)).bind ?_
      rintro ⟨address, lowered⟩ st2 hs2 - hr
      refine (readAt_takes hs2 place symbol hr).bind fun r st3 hs3 _ hr => ?_
      exact takes_pure hs3 hr
  | .not operand line _, st, h => by
    rw [Expr.lower]
    refine (expr_takes operand h).bind ?_
    rintro ⟨value, lowered⟩ st1 hs1 - hr
    refine (complement_takes hs1 line hr).bind fun r st2 hs2 _ hr => ?_
    exact takes_pure hs2 hr
  | .binary op lhs rhs line _, st, h => by
    rw [Expr.lower]
    refine (expr_takes lhs h).bind ?_
    rintro ⟨left, lhs'⟩ st1 hs1 - hl
    refine (expr_takes rhs hs1).bind ?_
    rintro ⟨right, rhs'⟩ st2 hs2 hc2 hr
    refine (binaryOp_takes hs2 line op (hc2.gives hl) hr).bind fun r st3 hs3 _ hr => ?_
    exact takes_pure hs3 hr
  | .call callee args line _, st, h => by
    rw [Expr.lower]
    refine takes_get ?_
    cases hl : st.state.symbols.lookup? callee with
    | none =>
      exact (report_gives h line _).bind fun r st1 hs1 _ hr => takes_pure hs1 hr
    | some symbol =>
      dsimp only
      split
      · rename_i params hk
        refine (args_takes callee args h 1 params).bind ?_
        rintro ⟨values, lowered⟩ st1 hs1 hc1 hr
        refine (finishCall_takes hs1 line callee hk (h.reaches hl hs1 hc1) hr).bind ?_
        exact fun r st2 hs2 _ hr => takes_pure hs2 hr
      · exact (report_gives h line _).bind fun r st1 hs1 _ hr => takes_pure hs1 hr

/-- **Lowering a mention of a variable** gives an address of the type of the variable. -/
theorem place_takes {symbol : Symbol} : ∀ (place : Place) {st : Stage}, st.Sound D →
    symbol.Located st.env st.fn st.arrays →
    Takes (calm D) st (place.lower symbol) fun r st' => st'.Addresses r.1 symbol.ty.ir
  | .whole name negated line, st, h, hs => by
    rw [Place.lower]
    split
    · rename_i hk
      have hstored : Stored st.env st.fn st.arrays symbol.binding symbol.ty.ir := by
        unfold Symbol.Located at hs
        rw [hk] at hs
        exact hs
      refine takes_pure h ?_
      rintro _ ⟨⟩
      exact ⟨Or.inl hstored, h.offers_stored hstored⟩
    · exact (report_addresses h line _ _).bind fun r st1 hs1 _ hr => takes_pure hs1 hr
    · exact (report_addresses h line _ _).bind fun r st1 hs1 _ hr => takes_pure hs1 hr
  | .element name index negated line, st, h, hs => by
    rw [Place.lower]
    split
    · exact (report_addresses h line _ _).bind fun r st1 hs1 _ hr => takes_pure hs1 hr
    · rename_i len hk
      refine (expr_takes index h).bind ?_
      rintro ⟨value, lowered⟩ st1 hs1 hc1 hr
      refine (elementAddress_takes hs1 line hk (hc1.located hs) hr).bind fun r st2 hs2 _ hr => ?_
      exact takes_pure hs2 hr
    · exact (report_addresses h line _ _).bind fun r st1 hs1 _ hr => takes_pure hs1 hr

/-- **Lowering arguments** gives values that can be passed. -/
theorem args_takes (callee : String) : ∀ (args : List Expr) {st : Stage}, st.Sound D →
    ∀ (position : Nat) (params : List ParamShape),
      Takes (calm D) st (lowerArgs callee position params args) fun r st' => st'.Passes params r.1
  | [], st, h, position, params => by
    rw [lowerArgs]
    exact takes_pure h trivial
  | arg :: args, st, h, position, params => by
    rw [lowerArgs]
    have rest : ∀ (value : Option Value) (lowered : Expr) {st1 : Stage}, st1.Sound D →
        st1.Serves params.head? value →
        Takes (calm D) st1 (do
          let (values, rest) ← lowerArgs callee (position + 1) params.tail args
          return (value :: values, lowered :: rest)) fun r st' => st'.Passes params r.1 := by
      intro value lowered st1 hs1 hv
      refine (args_takes callee args hs1 (position + 1) params.tail).bind ?_
      rintro ⟨values, lowered⟩ st2 hs2 hc2 hrest
      exact takes_pure hs2 ⟨hc2.serves hv, hrest⟩
    refine takes_get ?_
    cases hw : wholeArray? st.state arg with
    | some found =>
      obtain ⟨array, len⟩ := found
      obtain ⟨hk, name, hr⟩ := wholeArray?_eq_some hw
      refine (passArray_takes h arg.line _ hk (h.located hr)).bind fun v st1 hs1 _ hv => ?_
      exact rest v _ hs1 hv
    | none =>
      refine (expr_takes arg h).bind ?_
      rintro ⟨result, lowered⟩ st1 hs1 - hr
      refine (passValue_takes hs1 arg.line _ hr).bind fun v st2 hs2 _ hv => ?_
      exact rest v _ hs2 hv

end

end Stage

/-- What the lowering of arguments goes through. -/
theorem lowerArgs_cons_inv {callee : String} {position : Nat} {params : List ParamShape}
    {arg : Expr} {args lowered : List Expr} {values : List (Option Value)} {s s' : Lowering}
    (run : lowerArgs callee position params (arg :: args) s = .ok ((values, lowered), s')) :
    ∃ value values' lowered' s1, values = value :: values' ∧
      lowerArgs callee (position + 1) params.tail args s1 = .ok ((values', lowered'), s') ∧
      ((∃ array len, wholeArray? s arg = some (array, len) ∧
          passArray arg.line ⟨callee, position, params.head?⟩ array len s = .ok (value, s1)) ∨
        wholeArray? s arg = none ∧ ∃ result arg' s0, arg.lower s = .ok ((result, arg'), s0) ∧
          passValue arg.line ⟨callee, position, params.head?⟩ result s0 = .ok (value, s1)) := by
  rw [lowerArgs] at run
  obtain ⟨_, _, hget, rest1⟩ := run_bind_inv run
  cases hget
  cases hw : wholeArray? s arg with
  | some found =>
    obtain ⟨array, len⟩ := found
    rw [hw] at rest1
    obtain ⟨value, s1, run1, rest2⟩ := run_bind_inv rest1
    obtain ⟨_, _, hpure, rest3⟩ := run_bind_inv rest2
    cases hpure
    obtain ⟨⟨values', lowered'⟩, s2, run2, hpure⟩ := run_bind_inv rest3
    cases hpure
    exact ⟨value, values', lowered', s1, rfl, run2, Or.inl ⟨array, len, rfl, run1⟩⟩
  | none =>
    rw [hw] at rest1
    obtain ⟨⟨result, arg'⟩, s0, run1, rest2⟩ := run_bind_inv rest1
    obtain ⟨value, s1, run2, rest3⟩ := run_bind_inv rest2
    obtain ⟨_, _, hpure, rest4⟩ := run_bind_inv rest3
    cases hpure
    obtain ⟨⟨values', lowered'⟩, s2, run3, hpure⟩ := run_bind_inv rest4
    cases hpure
    exact ⟨value, values', lowered', s1, rfl, run3, Or.inr ⟨rfl, result, arg', s0, run1, run2⟩⟩

theorem allSome_cons_inv {α : Type} {value : Option α} {values : List (Option α)} {vs : List α}
    (h : allSome (value :: values) = some vs) :
    ∃ v vs', value = some v ∧ vs = v :: vs' ∧ allSome values = some vs' := by
  cases value with
  | none => cases h
  | some v =>
    obtain ⟨vs', hall, rfl⟩ := Option.map_eq_some_iff.mp h
    exact ⟨v, vs', rfl, rfl, hall⟩

/-- The tree that a part of a program is lowered to bears the type that was found. -/
def Fills (m : Lower (Result × Expr)) : Prop :=
  ∀ {r : Result} {e : Expr} {s s' : Lowering}, m s = .ok ((r, e), s') → e.ty = r.ty?

theorem fills_pure {r : Result} {e : Expr} (h : e.ty = r.ty?) : Fills (pure (r, e)) := by
  rintro _ _ _ _ ⟨⟩
  exact h

theorem fills_bind {α : Type} {m : Lower α} {f : α → Lower (Result × Expr)}
    (h : ∀ a, Fills (f a)) : Fills (m >>= f) := fun run => by
  obtain ⟨a, _, -, rest⟩ := run_bind_inv run
  exact h a rest

/-- The type that was found is filled in. -/
theorem lower_ty {e : Expr} : Fills e.lower := by
  cases e with
  | literal value line old =>
    rw [Expr.lower]
    exact fills_bind fun _ => fills_pure rfl
  | read place line old =>
    rw [Expr.lower]
    refine fills_bind fun _ => fills_bind fun found => ?_
    cases found with
    | none => exact fills_pure rfl
    | some symbol => exact fills_bind fun _ => fills_bind fun _ => fills_pure rfl
  | not operand line old =>
    rw [Expr.lower]
    exact fills_bind fun _ => fills_bind fun _ => fills_pure rfl
  | binary op lhs rhs line old =>
    rw [Expr.lower]
    exact fills_bind fun _ => fills_bind fun _ => fills_bind fun _ => fills_pure rfl
  | call callee args line old =>
    rw [Expr.lower]
    refine fills_bind fun _ => ?_
    split
    · exact fun run => by cases run; rfl
    · split
      · exact fills_bind fun _ => fills_bind fun _ => fills_pure rfl
      · exact fun run => by cases run; rfl

end ProcLang
