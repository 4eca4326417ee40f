import ProcLang.Proofs.Reading
import ProcLang.Proofs.Typing

/-!
# Reading instructions

Types, operands and instructions read back from their texts (`reads_ty`, `reads_value`,
`reads_instr`). The type of a second operand is not written: it is that of the first one
(`Instr.Matched`), as the rules for instructions demand.
-/

namespace ProcLang.Ir

open Naming

namespace Reader

/-- Takes a type that has less than a number of brackets around it. -/
def tyWithin : Nat → Reader Ty
  | 0 => fun _ => none
  | depth + 1 => do
    if ← accept "[" then
      let len ← nat
      expect " x "
      let elem ← tyWithin depth
      expect "]"
      return .array len elem
    else
      oneOf [("i1", .i1), ("i8", .i8), ("i32", .i32), ("float", .float), ("ptr", .ptr)]

/-- Takes a type. -/
def ty : Reader Ty := fun text => tyWithin text.length text

/-- Takes an integer. -/
def int : Reader Int := do
  if ← accept "-" then
    let n ← nat
    return -n
  else
    let n ← nat
    return n

/-- Takes a constant of a type. -/
def constant : Ty → Reader Operand
  | .i1 => oneOf [("false", .int 0), ("true", .int 1)]
  | .float => do
    expect "0x"
    let bits ← hex 16
    return .float (.ofBits64 bits)
  | _ => .int <$> int

/-- Takes a value of a type. -/
def value (ty : Ty) : Reader Value := do
  if ← accept "%" then
    let r ← name
    return ⟨ty, .register r⟩
  else if ← accept "@" then
    let symbol ← name
    return ⟨ty, .symbol symbol⟩
  else
    let operand ← constant ty
    return ⟨ty, operand⟩

/-- Takes a type and a value of it. -/
def typed : Reader Value := do
  let t ← ty
  expect " "
  value t

/-- Takes two values of one type. -/
def operands : Reader (Value × Value) := do
  let lhs ← typed
  expect ", "
  let rhs ← value lhs.ty
  return (lhs, rhs)

/-- The texts of comparisons of integers. -/
def intPredicates : List (String × IntPredicate) :=
  [.eq, .ne, .slt, .sle, .sgt, .sge].map fun pred => (pred.name, pred)

/-- The texts of comparisons of floats. -/
def floatPredicates : List (String × FloatPredicate) :=
  [.ueq, .une, .ult, .ule, .ugt, .uge].map fun pred => (pred.name, pred)

/-- The operations on two values of one type. -/
def binOps : List BinOp :=
  [.add, .sub, .mul, .sdiv, .fadd, .fsub, .fmul, .fdiv, .and, .or, .xor]

/-- What can stand behind the name of a result. -/
def results : List (String × (String → Reader Instr)) :=
  [(" = alloca ", fun dest => (.alloca dest ·) <$> ty),
   (" = load ", fun dest => do
    let t ← ty
    expect ", "
    let ptr ← typed
    return .load dest t ptr),
   (" = icmp ", fun dest => do
    let pred ← oneOf intPredicates
    expect " "
    let both ← operands
    return .icmp dest pred both.1 both.2),
   (" = fcmp ", fun dest => do
    let pred ← oneOf floatPredicates
    expect " "
    let both ← operands
    return .fcmp dest pred both.1 both.2),
   (" = fneg ", fun dest => (.fneg dest ·) <$> typed),
   (" = sitofp ", fun dest => do
    let operand ← typed
    expect " to float"
    return .sitofp dest operand),
   (" = getelementptr ", fun dest => do
    let elem ← ty
    expect ", "
    let ptr ← typed
    expect ", "
    let index ← typed
    return .gep dest elem ptr index),
   (" = call ", fun dest => do
    let ret ← ty
    expect " @"
    let callee ← name
    expect "("
    let args ← list ")" typed
    return .call dest ret callee args)] ++
  binOps.map fun op => (" = " ++ op.name, fun dest => do
    expect " "
    let both ← operands
    return .binary dest op both.1 both.2)

/-- The instructions that have no result. -/
def actions : List (String × Reader Instr) :=
  [("store ", do
    let value ← typed
    expect ", "
    let ptr ← typed
    return .store value ptr),
   ("br ", do
    if ← accept "label %" then
      .br <$> name
    else
      let cond ← typed
      expect ", label %"
      let yes ← name
      expect ", label %"
      let no ← name
      return .condBr cond yes no),
   ("ret ", .ret <$> typed),
   ("unreachable", return .unreachable)]

/-- Takes an instruction. -/
def instr : Reader Instr := do
  if ← accept "%" then
    let dest ← name
    let rest ← oneOf results
    rest dest
  else
    let rest ← oneOf actions
    rest

end Reader

open Reader

/-! ## Types -/

/-- A type does not begin like a label, and it does not close a list. -/
theorem Ty.render_head (t : Ty) : ∃ c, t.render.toList.head? = some c ∧ c ≠ 'l' ∧ c ≠ ')' := by
  cases t with
  | array len elem =>
    refine ⟨'[', ?_, by decide⟩
    simp only [render, String.append_assoc, String.toList_append]
    rfl
  | _ => exact ⟨_, rfl, by decide⟩

theorem Ty.head_append (t : Ty) (text : String) :
    ∃ c, (t.render ++ text).toList.head? = some c ∧ c ≠ 'l' ∧ c ≠ ')' := by
  obtain ⟨c, hc, hne⟩ := t.render_head
  refine ⟨c, ?_, hne⟩
  rw [String.toList_append, List.head?_append, hc]
  rfl

/-- A type with at most so many characters has fewer brackets around it. -/
theorem reads_tyWithin (t : Ty) : ∀ {n : Nat}, t.render.toList.length ≤ n →
    Reads Whatever (tyWithin n) t.render t := by
  have scalar : ∀ {t : Ty} {n : Nat}, t.render.toList.length ≤ n →
      Distinct "[" t.render →
      (t.render, t) ∈ [("i1", .i1), ("i8", .i8), ("i32", .i32), ("float", .float),
        ("ptr", Ty.ptr)] →
      Reads Whatever (tyWithin n) t.render t := by
    intro t n hn hdistinct hmem
    obtain ⟨c, hc, -⟩ := t.render_head
    cases n with
    | zero =>
      rw [List.length_eq_zero_iff.mp (Nat.le_zero.mp hn)] at hc
      cases hc
    | succ n => exact reads_no (fun rest _ => hdistinct.without rest) (reads_oneOf (by decide) hmem)
  induction t with
  | array len elem ih =>
    intro n hn
    simp only [Ty.render, String.append_assoc] at hn ⊢
    cases n with
    | zero =>
      rw [String.toList_append, List.length_append] at hn
      exact absurd (Nat.le_zero.mp hn) (by simp)
    | succ n =>
      -- the opening bracket pays for the one step down
      have helem : elem.render.toList.length ≤ n := by
        simp only [String.toList_append, List.length_append] at hn
        have hopen : "[".toList.length = 1 := rfl
        omega
      refine reads_yes ((reads_nat len).upTo (stops_append rfl rfl) (reads_expect ?_))
      exact (ih helem).next (reads_close "]" _)
  | _ => exact fun hn => scalar hn (by decide) (by decide)

theorem reads_ty (t : Ty) : Reads Whatever ty t.render t := by
  intro rest _
  refine reads_tyWithin t ?_ rest trivial
  rw [List.length_append]
  exact Nat.le_add_right _ _

/-! ## Values -/

theorem reads_int (n : Int) : Reads Ended int (toString n) n := by
  cases n with
  | ofNat n =>
    obtain ⟨c, hc, hdigit⟩ := toString_head n
    have hsign : c ≠ '-' := by
      rintro rfl
      cases hdigit
    exact reads_no (fun rest _ => without_of_head rfl hc hsign rest) ((reads_nat n).last _)
  | negSucc n => exact reads_yes ((reads_nat (n + 1)).last _)

theorem toString_int_head (n : Int) :
    ∃ c, (toString n).toList.head? = some c ∧ c ≠ '%' ∧ c ≠ '@' := by
  cases n with
  | ofNat n =>
    obtain ⟨c, hc, hdigit⟩ := toString_head n
    refine ⟨c, hc, ?_, ?_⟩
    · rintro rfl
      cases hdigit
    · rintro rfl
      cases hdigit
  | negSucc n =>
    refine ⟨'-', ?_, by decide, by decide⟩
    show ("-" ++ toString (n + 1)).toList.head? = _
    rw [String.toList_append]
    rfl

theorem reads_float {x : Binary32} (h : x.magnitude ≤ Binary32.infinity) :
    Reads Ended (constant .float) ("0x" ++ String.ofList (hexDigits 16 x.toBits64)) (.float x) := by
  have hbits : Reads Ended (hex 16) (String.ofList (hexDigits 16 x.toBits64)) x.toBits64 :=
    Reads.weaken (reads_hex x.toBits64_lt) fun _ _ => trivial
  have hread := hbits.last fun bits => Operand.float (.ofBits64 bits)
  rw [Binary32.ofBits64_toBits64 h] at hread
  exact reads_expect hread

/-- What is no name is a constant. -/
theorem reads_value_of_constant {t : Ty} {text : String} {operand : Operand}
    (h : Reads Ended (constant t) text operand) {c : Char} (hc : text.toList.head? = some c)
    (hregister : c ≠ '%') (hsymbol : c ≠ '@') : Reads Ended (value t) text ⟨t, operand⟩ := by
  refine reads_no (fun rest _ => without_of_head rfl hc hregister rest) ?_
  exact reads_no (fun rest _ => without_of_head rfl hc hsymbol rest) (h.last _)

/-- **A value** reads back if its type is known. -/
theorem reads_value {v : Value} (hv : v.Legible) : Reads Ended (value v.ty) v.render v := by
  obtain ⟨t, operand⟩ := v
  cases operand with
  | register r =>
    have htext : Value.render ⟨t, .register r⟩ = "%" ++ r := by cases t <;> rfl
    rw [htext]
    exact reads_yes ((reads_name hv).last _)
  | symbol r =>
    have htext : Value.render ⟨t, .symbol r⟩ = "@" ++ r := by cases t <;> rfl
    rw [htext]
    refine reads_no (fun rest _ => ?_) (reads_yes ((reads_name hv).last _))
    rw [String.toList_append, List.append_assoc]
    exact Distinct.without (by decide) _
  | int n =>
    rcases hv with rfl | ⟨rfl, rfl | rfl⟩
    · obtain ⟨c, hc, hregister, hsymbol⟩ := toString_int_head n
      exact reads_value_of_constant ((reads_int n).map Operand.int) hc hregister hsymbol
    · have hread : Reads Ended (constant .i1) "false" (.int 0) :=
        reads_oneOf (by decide) (by decide)
      exact reads_value_of_constant hread rfl (by decide) (by decide)
    · have hread : Reads Ended (constant .i1) "true" (.int 1) := reads_oneOf (by decide) (by decide)
      exact reads_value_of_constant hread rfl (by decide) (by decide)
  | float x =>
    obtain ⟨rfl, hx⟩ := hv
    have hhead : ("0x" ++ String.ofList (hexDigits 16 x.toBits64)).toList.head? = some '0' := by
      rw [String.toList_append]
      rfl
    exact reads_value_of_constant (reads_float hx) hhead (by decide) (by decide)

theorem reads_typed {v : Value} (hv : v.Legible) : Reads Ended typed v.typed v := by
  rw [Value.typed, String.append_assoc]
  exact (reads_ty v.ty).next (reads_expect (reads_value hv))

theorem reads_operands {lhs rhs : Value} (hl : lhs.Legible) (hr : rhs.Legible)
    (hty : lhs.ty = rhs.ty) :
    Reads Ended operands (lhs.typed ++ (", " ++ rhs.render)) (lhs, rhs) := by
  refine (reads_typed hl).upTo (stops_append rfl rfl) (reads_expect ?_)
  exact (hty ▸ reads_value hr).last fun rhs => (lhs, rhs)

theorem Value.typed_head (v : Value) : ∃ c, v.typed.toList.head? = some c ∧ c ≠ 'l' ∧ c ≠ ')' := by
  rw [typed, String.append_assoc]
  exact v.ty.head_append _

/-! ## Instructions -/

/-- Two operands of one instruction have one type, where only that of the first is written. -/
def Instr.Matched : Instr → Prop
  | binary _ _ lhs rhs | icmp _ _ lhs rhs | fcmp _ _ lhs rhs => lhs.ty = rhs.ty
  | _ => True

theorem Instr.Typed.matched {env : Interface} {f : Function} {arrays : List Param} {i : Instr}
    (h : i.Typed env f arrays) : i.Matched := by
  cases i with
  | binary | icmp => exact h.1
  | fcmp => exact h.1.trans h.2.symm
  | _ => trivial

theorem results_apart : Apart results := by
  show List.Pairwise Distinct _
  decide +kernel

theorem results_head : ∀ mark ∈ results.map Prod.fst, mark.toList.head? = some ' ' := by
  decide +kernel

theorem actions_apart : Apart actions := by
  decide +kernel

/-- An instruction with a result. -/
theorem reads_result {dest mark text : String} (hdest : Legible dest) {x : String → Reader Instr}
    (hmem : (mark, x) ∈ results) {i : Instr} (hx : Reads Ended (x dest) text i) :
    Reads Ended instr ("%" ++ (dest ++ (mark ++ text))) i := by
  have hhead := results_head mark (List.mem_map_of_mem hmem)
  refine reads_yes ((reads_name hdest).upTo (stops_append hhead rfl) ?_)
  exact (reads_oneOf results_apart hmem).next hx

/-- An instruction without a result. -/
theorem reads_action {mark text : String} {x : Reader Instr} (hmem : (mark, x) ∈ actions)
    (hmark : Distinct "%" mark) {i : Instr} (hx : Reads Ended x text i) :
    Reads Ended instr (mark ++ text) i := by
  refine reads_no (fun rest _ => ?_) ((reads_oneOf actions_apart hmem).next hx)
  rw [String.toList_append, List.append_assoc]
  exact hmark.without _

theorem mem_intPredicates (pred : IntPredicate) : (pred.name, pred) ∈ intPredicates := by
  cases pred <;> decide

theorem mem_floatPredicates (pred : FloatPredicate) : (pred.name, pred) ∈ floatPredicates := by
  cases pred <;> decide

theorem mem_binOps (op : BinOp) : op ∈ binOps := by
  cases op <;> decide

/-- **An instruction** reads back. -/
theorem reads_instr {i : Instr} (hi : i.Legible) (hm : i.Matched) :
    Reads Ended instr i.render i := by
  obtain ⟨names, operands⟩ := hi
  have comma : ∀ rest, Ended (", ".toList ++ rest) := stops_append rfl rfl
  have label : ∀ rest, Ended (", label %".toList ++ rest) := stops_append rfl rfl
  cases i with
  | alloca dest t =>
    simp only [Instr.render, String.append_assoc]
    refine reads_result (names _ (.head _)) (List.mem_of_getElem? (i := 0) rfl) ?_
    exact ((reads_ty t).weaken fun _ _ => trivial).map _
  | load dest t ptr =>
    simp only [Instr.render, String.append_assoc]
    refine reads_result (names _ (.head _)) (List.mem_of_getElem? (i := 1) rfl) ?_
    exact (reads_ty t).next (reads_expect ((reads_typed (operands _ (.head _))).last _))
  | store value ptr =>
    simp only [Instr.render, String.append_assoc]
    refine reads_action (List.mem_of_getElem? (i := 0) rfl) (by decide) ?_
    refine (reads_typed (operands _ (.head _))).upTo comma (reads_expect ?_)
    exact (reads_typed (operands _ (.tail _ (.head _)))).last _
  | binary dest op lhs rhs =>
    -- the mark is made of two parts of the text
    have hgroup : (Instr.binary dest op lhs rhs).render =
        "%" ++ (dest ++ (" = " ++ op.name ++ (" " ++ (lhs.typed ++ (", " ++ rhs.render))))) := by
      unfold Instr.render
      simp only [String.append_assoc]
    rw [hgroup]
    refine reads_result (names _ (.head _))
      (List.mem_append_right _ (List.mem_map_of_mem (mem_binOps op))) (reads_expect ?_)
    exact (reads_operands (operands _ (.head _)) (operands _ (.tail _ (.head _))) hm).last _
  | icmp dest pred lhs rhs =>
    simp only [Instr.render, String.append_assoc]
    refine reads_result (names _ (.head _)) (List.mem_of_getElem? (i := 2) rfl) ?_
    refine (reads_oneOf (by decide) (mem_intPredicates pred)).next (reads_expect ?_)
    exact (reads_operands (operands _ (.head _)) (operands _ (.tail _ (.head _))) hm).last _
  | fcmp dest pred lhs rhs =>
    simp only [Instr.render, String.append_assoc]
    refine reads_result (names _ (.head _)) (List.mem_of_getElem? (i := 3) rfl) ?_
    refine (reads_oneOf (by decide) (mem_floatPredicates pred)).next (reads_expect ?_)
    exact (reads_operands (operands _ (.head _)) (operands _ (.tail _ (.head _))) hm).last _
  | fneg dest operand =>
    simp only [Instr.render, String.append_assoc]
    refine reads_result (names _ (.head _)) (List.mem_of_getElem? (i := 4) rfl) ?_
    exact (reads_typed (operands _ (.head _))).map _
  | sitofp dest operand =>
    simp only [Instr.render, String.append_assoc]
    refine reads_result (names _ (.head _)) (List.mem_of_getElem? (i := 5) rfl) ?_
    refine (reads_typed (operands _ (.head _))).bind (fun rest _ => ?_) (reads_close " to float" _)
    exact stops_append rfl rfl rest
  | gep dest elem ptr index =>
    simp only [Instr.render, String.append_assoc]
    refine reads_result (names _ (.head _)) (List.mem_of_getElem? (i := 6) rfl) ?_
    refine (reads_ty elem).next (reads_expect ?_)
    refine (reads_typed (operands _ (.head _))).upTo comma (reads_expect ?_)
    exact (reads_typed (operands _ (.tail _ (.head _)))).last _
  | call dest ret callee args =>
    simp only [Instr.render, String.append_assoc]
    refine reads_result (names _ (.head _)) (List.mem_of_getElem? (i := 7) rfl) ?_
    refine (reads_ty ret).next (reads_expect ?_)
    refine (reads_name (names _ (.tail _ (.head _)))).upTo (stops_append rfl rfl) (reads_expect ?_)
    refine (reads_list rfl (fun v hv => reads_typed (operands v hv)) fun v _ => ?_).last _
    obtain ⟨c, hc, -, hclose⟩ := v.typed_head
    exact ⟨c, hc, hclose⟩
  | br target =>
    -- both kinds of branches begin with the same word, and only this one goes on with a label
    have hgroup : (Instr.br target).render = "br " ++ ("label %" ++ target) := by
      unfold Instr.render
      rw [← String.append_assoc]
      rfl
    rw [hgroup]
    refine reads_action (List.mem_of_getElem? (i := 1) rfl) (by decide) ?_
    exact reads_yes ((reads_name (names _ (.head _))).map _)
  | condBr cond yes no =>
    simp only [Instr.render, String.append_assoc]
    refine reads_action (List.mem_of_getElem? (i := 1) rfl) (by decide)
      (reads_no (fun rest _ => ?_) ?_)
    · obtain ⟨c, hc, hlabel, -⟩ := cond.typed_head
      rw [String.toList_append, List.append_assoc]
      exact without_of_head rfl hc hlabel _
    · refine (reads_typed (operands _ (.head _))).upTo label (reads_expect ?_)
      refine (reads_name (names _ (.head _))).upTo label (reads_expect ?_)
      exact (reads_name (names _ (.tail _ (.head _)))).last _
  | ret value =>
    refine reads_action (List.mem_of_getElem? (i := 2) rfl) (by decide) ?_
    exact (reads_typed (operands _ (.head _))).map _
  | unreachable =>
    have hgroup : Instr.unreachable.render = "unreachable" ++ "" := String.append_empty.symm
    rw [hgroup]
    exact reads_action (List.mem_of_getElem? (i := 3) rfl) (by decide)
      (reads_pure Instr.unreachable)

end ProcLang.Ir
