import ProcLang.Proofs.Compiled
import ProcLang.Proofs.Meaning.Range
import ProcLang.Proofs.Meaning.Source

/-!
# What is compiled is what is read

* `parse_items`: a program that is read is compiled from the items that it was read as;
* `parse_inRange`: the integers in these have 32 bits.
-/

namespace ProcLang

variable {p : Parser} {program : Program} {source : String}

/-! ## Programs -/

theorem program_value (h : p.program.value = some program) :
    ∃ name, p.header.value = some name ∧ program.name = name ∧
      (p.header.after.items .declarations).value = some program.declarations ∧
      ((p.header.after.items .declarations).after.items .statements).value =
        some program.statements := by
  obtain ⟨name, hname, h⟩ := Step.andThen_value h
  obtain ⟨declarations, hdeclarations, h⟩ := Step.andThen_value h
  obtain ⟨statements, hstatements, rfl⟩ := Option.map_eq_some_iff.mp h
  exact ⟨name, hname, rfl, hdeclarations, hstatements⟩

theorem parse_value {tabWidth : Nat} {parsed : Parsed Program}
    (h : Program.parse tabWidth source = .ok parsed) :
    (Parser.ofString tabWidth source).program.value = parsed.value := by
  unfold Program.parse Step.finish at h
  split at h
  · cases h
  · cases h
    rfl

/-- **A program that is read** is compiled from the items that it was read as. -/
theorem parse_items {options : Options} {errors : List SyntaxError}
    (parsed : Program.parse options.tabWidth source = .ok ⟨some program, errors⟩) :
    sourceItems source options = program.items := by
  have hvalue := parse_value parsed
  rw [program_eq_body] at hvalue
  obtain ⟨name, hname, hrest⟩ := Step.andThen_value hvalue
  obtain ⟨sections, hbody, rfl⟩ := Option.map_eq_some_iff.mp hrest
  rw [(body_setAside _).1] at hbody
  rw [sourceItems_eq hname]
  exact readings_of_body hbody

/-! ## Integers -/

/-- **All integers in a program** that is read have 32 bits. -/
theorem parse_inRange {tabWidth : Nat} {errors : List SyntaxError}
    (parsed : Program.parse tabWidth source = .ok ⟨some program, errors⟩) :
    ∀ stmt ∈ program.items, stmt.InRange := by
  obtain ⟨_, -, -, hdeclarations, hstatements⟩ := program_value (parse_value parsed)
  intro stmt hstmt
  rcases List.mem_append.mp hstmt with hstmt | hstmt
  · exact (yields_items (item_inRange _) _ trivial).2 _ hdeclarations stmt hstmt
  · exact (yields_items (item_inRange _) _ trivial).2 _ hstatements stmt hstmt

end ProcLang
