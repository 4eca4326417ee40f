import ProcLang.Proofs.AsRead

/-!
# Integers of a program

An integer in a text that does not have 32 bits is a syntax error. So all integers in what is read
from a text have 32 bits (`item_inRange`), and can be calculated with beforehand.
-/

namespace ProcLang

/-! ## Programs with integers of 32 bits -/

theorem InRange.toInt_ofInt {n : Int} (h : InRange n) : (BitVec.ofInt 32 n).toInt = n := by
  unfold InRange at h
  rw [BitVec.toInt_ofInt]
  exact Int.bmod_eq_of_le (by omega) (by omega)

/-- If the literal is an integer, it has 32 bits. -/
def Literal.InRange : Literal → Prop
  | integer n => ProcLang.InRange n
  | _ => True

mutual

/-- All integers in the expression have 32 bits. -/
def Expr.InRange : Expr → Prop
  | .literal value _ _ => value.InRange
  | .read place _ _ => place.InRange
  | .not operand _ _ => operand.InRange
  | .binary _ lhs rhs _ _ => lhs.InRange ∧ rhs.InRange
  | .call _ args _ _ => ArgsInRange args

/-- All integers in the index have 32 bits. -/
def Place.InRange : Place → Prop
  | .whole _ _ _ => True
  | .element _ index _ _ => index.InRange

/-- All integers in the arguments have 32 bits. -/
def ArgsInRange : List Expr → Prop
  | [] => True
  | arg :: args => arg.InRange ∧ ArgsInRange args

end

mutual

/-- All integers in the statement have 32 bits. -/
def Stmt.InRange : Stmt → Prop
  | .assign dest value _ => dest.InRange ∧ value.InRange
  | .call call _ => call.InRange
  | .declare _ _ => True
  | .declareType _ _ _ _ => True
  | .branch cond yes none _ => cond.InRange ∧ BlockInRange yes
  | .branch cond yes (some no) _ => cond.InRange ∧ BlockInRange yes ∧ BlockInRange no
  | .loop dest value cond body _ =>
    dest.InRange ∧ value.InRange ∧ cond.InRange ∧ BlockInRange body
  | .result value _ => value.InRange
  | .procedure _ body _ => BlockInRange body

/-- All integers in the statements have 32 bits. -/
def BlockInRange : List Stmt → Prop
  | [] => True
  | stmt :: stmts => stmt.InRange ∧ BlockInRange stmts

end

/-! ## What is read -/

section AsRead

variable {word : String → Prop}

mutual

/-- Integers that are read have 32 bits. -/
theorem Expr.AsRead.inRange : ∀ {e : Expr}, e.AsRead word → e.InRange
  | .literal (.integer _) _ _, h => h.1
  | .literal (.float _) _ _, _ | .literal (.bool _) _ _, _ | .literal (.string _) _ _, _ => trivial
  | .read _ _ _, h => Place.AsRead.inRange h.1
  | .not operand _ _, h => Expr.AsRead.inRange (e := operand) h.1
  | .binary _ _ _ _ _, h => ⟨h.1.inRange, h.2.1.inRange⟩
  | .call _ _ _ _, h => argsInRange_of_asRead h.2.1

theorem Place.AsRead.inRange : ∀ {place : Place}, place.AsRead word → place.InRange
  | .whole _ _ _, _ => trivial
  | .element _ index _ _, h => Expr.AsRead.inRange (e := index) h.2

theorem argsInRange_of_asRead : ∀ {args : List Expr}, ArgsAsRead word args → ArgsInRange args
  | [], _ => trivial
  | _ :: _, h => ⟨h.1.inRange, argsInRange_of_asRead h.2⟩

end

mutual

/-- The integers in a statement that is read have 32 bits, and the names that it declares are those
of identifiers. -/
theorem Stmt.AsRead.fine :
    ∀ {stmt : Stmt}, stmt.AsRead word → stmt.InRange ∧ stmt.DeclaresOnly word
  | .assign _ _ _, h => ⟨⟨h.1.inRange, h.2.inRange⟩, trivial⟩
  | .call _ _, h => ⟨Expr.AsRead.inRange h, trivial⟩
  | .declare _ _, h => ⟨trivial, VariableDecl.AsRead.name h⟩
  | .declareType _ _ _ _, _ => ⟨trivial, trivial⟩
  | .branch _ _ none _, h =>
    have yes := blockFine_of_asRead h.2
    ⟨⟨h.1.inRange, yes.1⟩, yes.2⟩
  | .branch _ _ (some _) _, h =>
    have yes := blockFine_of_asRead h.2.1
    have no := blockFine_of_asRead h.2.2
    ⟨⟨h.1.inRange, yes.1, no.1⟩, yes.2, no.2⟩
  | .loop _ _ _ _ _, h =>
    have body := blockFine_of_asRead h.2.2.2
    ⟨⟨h.1.inRange, h.2.1.inRange, h.2.2.1.inRange, body.1⟩, body.2⟩
  | .result _ _, h => ⟨Expr.AsRead.inRange h, trivial⟩
  | .procedure _ _ _, h =>
    have body := blockFine_of_asRead h.2
    ⟨body.1, h.1.name, body.2⟩

theorem blockFine_of_asRead : ∀ {stmts : List Stmt}, BlockAsRead word stmts →
    BlockInRange stmts ∧ BlockDeclaresOnly word stmts
  | [], _ => ⟨trivial, trivial⟩
  | _ :: _, h =>
    have first := h.1.fine
    have rest := blockFine_of_asRead h.2
    ⟨⟨first.1, rest.1⟩, first.2, rest.2⟩

end

end AsRead

/-- **All integers in an item** that is read have 32 bits. -/
theorem item_inRange (part : Section) (p : Parser) :
    (p.item part).Yields Parser.Any Stmt.InRange := by
  have hread : (p.item part).Gives (.of Parser.Any) (Stmt.AsRead fun _ => True) Stmt.tokens :=
    item_asRead (fun _ _ _ => trivial) part p
  exact fun hp => ⟨(hread hp).1, fun stmt h => ((hread hp).2 stmt h).2.1.fine.1⟩

end ProcLang
