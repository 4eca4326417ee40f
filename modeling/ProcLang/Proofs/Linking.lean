import ProcLang.Proofs.Legible.Stmt
import ProcLang.Proofs.Valid

/-!
# What a module declares

A routine is declared when it is called for the first time, unless the module defines a function of
its name. So the declarations of a module are exactly the routines that it calls and does not define
(`compile_declares_what_is_called`).

That what is called exists is known from two sides. Calls that the text makes are of functions that
the interface of the module has, by their types. Calls that compare strings are not typed against
the interface, but they are linked. The names of the results tell the two kinds apart.
-/

namespace ProcLang

open Ir Naming

/-- **What is called is defined or declared.** -/
theorem Ir.Instr.Linked.callee {m : Module} {i : Instr} (hlinked : i.Linked m) {f : Function}
    {arrays : List Param} (htyped : i.Typed m.interface f arrays) {name : String}
    (hname : i.callee? = some name) :
    name ∈ m.functions.map Function.name ∨ name ∈ m.declarations.map Declaration.name := by
  cases i with
  | call dest ty callee args =>
    cases hname
    rcases htyped with hmem | ⟨⟨n, hdest⟩, -⟩
    · rcases List.mem_append.mp hmem with hfun | hdecl
      · obtain ⟨g, hg, hsignature⟩ := List.mem_map.mp hfun
        exact Or.inl (List.mem_map.mpr ⟨g, hg, congrArg Declaration.name hsignature⟩)
      · exact Or.inr (List.mem_map_of_mem hdecl)
    · rcases hlinked with ⟨k, hcall⟩ | ⟨-, -, -, hhas⟩
      · have hhint := (numbered_inj (hdest.symm.trans hcall)).1
        exact absurd hhint (by decide)
      · exact hhas
  | _ => cases hname

/-- **Modules declare what they call.** In the module of every text, whatever is wrong with it, a
name is declared exactly if it is called somewhere and the module does not define a function of that
name. So whatever is called is defined or declared, but not both, and nothing is declared that is
not called. Declarations are those of routines, with the types that these have, and no two declare
the same name. Data of a declared name are possible only where the routine is the one that compares
strings. -/
theorem compile_declares_what_is_called (source : String) (options : Options) :
    compile source options = .error .overflow ∨
      ∃ c, compile source options = .ok c ∧
        (∀ name, name ∈ c.module.declarations.map Declaration.name ↔
          c.module.Calls name ∧ name ∉ c.module.functions.map Function.name) ∧
        (∀ d ∈ c.module.declarations,
          ∃ r ∈ Routine.callable ++ [Routine.stringEquals], d = r.declaration) ∧
        (c.module.declarations.map Declaration.name).Nodup ∧
        ∀ g ∈ c.module.globals, g.name ∈ c.module.declarations.map Declaration.name →
          g.name = Routine.stringEquals.name := by
  rcases compile_finished source options with hcut | ⟨c, hc, hfunctions⟩
  · exact Or.inl hcut
  · obtain ⟨s, named, hs⟩ := compile_named hc
    obtain ⟨s', tidy, hs'⟩ := compile_tidy hc
    refine Or.inr ⟨c, hc, fun name => ⟨fun hdecl => ?_, fun ⟨hcalled, hfree⟩ => ?_⟩,
      hs ▸ named.external, hs ▸ named.declarations, fun g hg => ?_⟩
    · obtain ⟨d, hd, rfl⟩ := List.mem_map.mp hdecl
      refine ⟨?_, fun hfun => named.undeclared d.name (hs ▸ hfun) (hs ▸ hdecl)⟩
      exact hs' ▸ (tidy.called d (hs' ▸ hd)).resolve_left List.not_mem_nil
    · obtain ⟨f, hf, i, hi, hcallee⟩ := hcalled
      obtain ⟨⟨arrays, avail, hsound, -, -⟩, -⟩ := hfunctions f hf
      have hlinked : i.Linked c.module := hs ▸ named.linked f (hs ▸ hf) i hi
      exact (hlinked.callee (hsound.typed i hi).1 hcallee).resolve_left hfree
    · exact hs ▸ named.shared g.name (hs ▸ List.mem_map_of_mem hg)

end ProcLang
