import ProcLang.Proofs.Code
import ProcLang.Proofs.Naming

/-!
# Typed instructions

When an instruction of a function is typed. The rules look at three things: the `Interface` of the
module (its global data, and the name and types of whatever can be called), the function itself, and
the arrays that it was passed, each with the type of its storage.

* `Value.Typed`: an operand has the type of the register it names;
* `Stored`, `Points`: an address is that of storage of a given type, or of an element of that type;
* `Instr.Typed`: the rules for each instruction;
* `Instr.Typed.mono`: what is typed stays typed when the function and the interface grow.
-/

namespace ProcLang.Ir

/-- The name and types of a function. -/
def Function.signature (f : Function) : Declaration :=
  ⟨f.name, f.ret, f.params.map Param.ty⟩

/-- What the functions of a module see of it. -/
structure Interface where
  globals : List Global
  /-- Everything that can be called. -/
  callees : List Declaration

/-- The interface of a module. -/
def Module.interface (m : Module) : Interface :=
  ⟨m.globals, m.functions.map Function.signature ++ m.declarations⟩

/-- The second interface has all that the first one has. -/
structure Interface.Extends (i j : Interface) : Prop where
  globals : i.globals ⊆ j.globals
  callees : i.callees ⊆ j.callees

/-- The second function has the heading of the first one, and all of its instructions. -/
structure Function.Extends (f g : Function) : Prop where
  name : g.name = f.name
  ret : g.ret = f.ret
  params : g.params = f.params
  instrs : f.instrs ⊆ g.instrs

theorem Interface.Extends.refl (i : Interface) : i.Extends i :=
  ⟨List.Subset.refl _, List.Subset.refl _⟩

theorem Interface.Extends.trans {i j k : Interface} (h1 : i.Extends j) (h2 : j.Extends k) :
    i.Extends k :=
  ⟨List.Subset.trans h1.globals h2.globals, List.Subset.trans h1.callees h2.callees⟩

theorem Function.Extends.refl (f : Function) : f.Extends f :=
  ⟨rfl, rfl, rfl, List.Subset.refl _⟩

theorem Function.Extends.trans {f g h : Function} (h1 : f.Extends g) (h2 : g.Extends h) :
    f.Extends h :=
  ⟨h2.name.trans h1.name, h2.ret.trans h1.ret, h2.params.trans h1.params,
    List.Subset.trans h1.instrs h2.instrs⟩

variable {arrays : List Param} {f g : Function} {v : Value} {env env' : Interface} {ty : Ty}

theorem Function.Extends.signature (h : f.Extends g) : g.signature = f.signature := by
  simp only [Function.signature, h.name, h.ret, h.params]

/-! ## Operands -/

/-- An operand that names a register has the type of that register. Constants are integers, truth
values or floats, and whatever is global is known by its address. -/
def Value.Typed (f : Function) (v : Value) : Prop :=
  match v.operand with
  | .int _ => v.ty = .i32 ∨ v.ty = .i1
  | .float _ => v.ty = .float
  | .register r => ⟨r, v.ty⟩ ∈ f.params ∨ ∃ i ∈ f.instrs, i.result? = some ⟨r, v.ty⟩
  | .symbol _ => v.ty = .ptr

theorem Value.Typed.mono (h : v.Typed f) (hfg : f.Extends g) : v.Typed g := by
  unfold Typed at h ⊢
  split at h
  · exact h
  · exact h
  · rcases h with h | ⟨i, hi, hr⟩
    · exact Or.inl (hfg.params ▸ h)
    · exact Or.inr ⟨i, hfg.instrs hi, hr⟩
  · exact h

/-! ## Addresses -/

/-- The value is the address of storage of type `ty`: one that the function reserved, an array that
it was passed, or a global variable. -/
def Stored (env : Interface) (f : Function) (arrays : List Param) (v : Value) (ty : Ty) : Prop :=
  match v.operand with
  | .register r => v.ty = .ptr ∧ (.alloca r ty ∈ f.instrs ∨ ⟨r, ty⟩ ∈ arrays)
  | .symbol name => v.ty = .ptr ∧ ⟨name, ty, .variable⟩ ∈ env.globals
  | _ => False

/-- The value is the address of storage of type `ty`, or of an element of that type in an array. -/
def Points (env : Interface) (f : Function) (arrays : List Param) (v : Value) (ty : Ty) : Prop :=
  Stored env f arrays v ty ∨
    ∃ r base index, v = .register .ptr r ∧ .gep r ty base index ∈ f.instrs

theorem Stored.ptr {f : Function} (h : Stored env f arrays v ty) : v.ty = .ptr := by
  unfold Stored at h
  split at h
  · exact h.1
  · exact h.1
  · exact h.elim

theorem Stored.mono (h : Stored env f arrays v ty) (he : env.Extends env') (hfg : f.Extends g) :
    Stored env' g arrays v ty := by
  unfold Stored at h ⊢
  split at h
  · exact ⟨h.1, h.2.imp (fun hi => hfg.instrs hi) id⟩
  · exact ⟨h.1, he.globals h.2⟩
  · exact h

theorem Points.mono (h : Points env f arrays v ty) (he : env.Extends env') (hfg : f.Extends g) :
    Points env' g arrays v ty := by
  rcases h with h | ⟨r, base, index, rfl, hi⟩
  · exact Or.inl (h.mono he hfg)
  · exact Or.inr ⟨r, base, index, rfl, hfg.instrs hi⟩

/-! ## Instructions -/

/-- The types that an operation works on. -/
def BinOp.Accepts : BinOp → Ty → Prop
  | add, ty | sub, ty | mul, ty | sdiv, ty => ty = .i32
  | and, ty | or, ty | xor, ty => ty = .i32 ∨ ty = .i1
  | fadd, ty | fsub, ty | fmul, ty | fdiv, ty => ty = .float

/-- The types that a comparison works on. -/
def IntPredicate.Accepts : IntPredicate → Ty → Prop
  | eq, ty | ne, ty => ty = .i32 ∨ ty = .i1
  | slt, ty | sle, ty | sgt, ty | sge, ty => ty = .i32

/-- A call that compares two strings. -/
def ComparesStrings (dest : String) (ty : Ty) (callee : String) (args : List Value) : Prop :=
  (∃ n, dest = Naming.numbered "streq" n) ∧ callee = Routine.stringEquals.name ∧ ty = .i1 ∧
    args.map Value.ty = [.ptr, .ptr]

/-- The rules for the operands of an instruction, in a function that was passed some arrays. -/
def Instr.Typed (env : Interface) (f : Function) (arrays : List Param) : Instr → Prop
  | alloca _ _ | br _ | unreachable => True
  | load _ ty ptr => Points env f arrays ptr ty
  | store value ptr => Points env f arrays ptr value.ty
  | binary _ op lhs rhs => lhs.ty = rhs.ty ∧ op.Accepts lhs.ty
  | icmp _ pred lhs rhs => lhs.ty = rhs.ty ∧ pred.Accepts lhs.ty
  | fcmp _ _ lhs rhs => lhs.ty = .float ∧ rhs.ty = .float
  | fneg _ operand => operand.ty = .float
  | sitofp _ operand => operand.ty = .i32
  | gep _ elem ptr index => index.ty = .i32 ∧ ∃ len, Stored env f arrays ptr (.array len elem)
  | call dest ty callee args =>
    ⟨callee, ty, args.map Value.ty⟩ ∈ env.callees ∨ ComparesStrings dest ty callee args
  | condBr cond _ _ => cond.ty = .i1
  | ret value => value.ty = f.ret

/-- **What is typed stays typed** when the function and the interface grow. -/
theorem Instr.Typed.mono {i : Instr} (h : i.Typed env f arrays) (he : env.Extends env')
    (hfg : f.Extends g) : i.Typed env' g arrays := by
  cases i with
  | load dest ty ptr | store value ptr => exact Points.mono h he hfg
  | gep dest elem ptr index =>
    obtain ⟨hi, len, hp⟩ := h
    exact ⟨hi, len, hp.mono he hfg⟩
  | call dest ty callee args => exact Or.imp (fun hc => he.callees hc) id h
  | ret value => exact Eq.trans h hfg.ret.symm
  | _ => exact h

end ProcLang.Ir
