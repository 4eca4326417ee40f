import Mathlib.Data.List.Forall2
import ProcLang.Proofs.Twins.Items

/-!
# Values of tokens

A name, a number or a string is taken out of the text of a token, in a way of its own for each of
the kinds. It is never taken out of a token of another kind: what is read from a scan depends on the
texts of its tokens only through the terminals that they stand for (`finish_values`).
-/

namespace ProcLang

/-- The scans have the same terminals at the same places. -/
def Scan.SameValues (s t : Scan) : Prop :=
  List.Forall₂ (Token.Alike .sharp) s.tokens t.tokens ∧ s.ending = t.ending

/-- What was pulled from two scans with the same terminals. -/
structure Pulled.SameValues (a b : Pulled) : Prop where
  token : a.token.Alike .sharp b.token
  ahead : List.Forall₂ (Token.Alike .sharp) a.ahead b.ahead
  errors : a.errors = b.errors
  cutShort : a.cutShort = b.cutShort

/-- Parsers for two scans with the same terminals. -/
structure Parser.SameValues (p q : Parser) : Prop where
  current : p.current.Alike .sharp q.current
  next : p.next.Alike .sharp q.next
  ahead : List.Forall₂ (Token.Alike .sharp) p.ahead q.ahead
  ending : p.ending = q.ending
  errors : p.errors = q.errors
  cutShort : p.cutShort = q.cutShort

theorem pull_sameValues (ending : Option Ending) {ts us : List Token}
    (h : List.Forall₂ (Token.Alike .sharp) ts us) :
    (Parser.pull ending ts).SameValues (Parser.pull ending us) := by
  induction h with
  | nil => exact ⟨⟨rfl, rfl⟩, .nil, rfl, rfl⟩
  | @cons t u ts us htu hrest ih =>
    rw [Parser.pull, Parser.pull, ← htu.kind]
    split
    · exact ih
    · split
      · have hposition : t.position = u.position := htu.position
        refine ⟨ih.token, ih.ahead, ?_, ih.cutShort⟩
        dsimp only
        rw [hposition, ih.errors]
      · exact ⟨htu, hrest, rfl, rfl⟩

/-- **Parsers for scans with the same terminals** cannot be told apart. -/
theorem values_twins : Twins .sharp Parser.SameValues where
  current h := h.current
  next h _ := h.next.kind
  advance := by
    intro p q h
    have hpulled := pull_sameValues p.ending h.ahead
    have hkind : p.kind = q.kind := h.current.kind
    unfold Parser.advance
    rw [← hkind, ← h.ending]
    split
    · exact h
    · refine ⟨h.next, hpulled.token, hpulled.ahead, rfl, ?_, ?_⟩
      · dsimp only
        rw [h.errors, hpulled.errors]
      · dsimp only
        rw [h.cutShort, hpulled.cutShort]
  report := by
    rintro p q position _ cause - h rfl
    exact ⟨h.current, h.next, h.ahead, h.ending, congrArg (· ++ _) h.errors, h.cutShort⟩

theorem ofScan_sameValues {s t : Scan} (h : s.SameValues t) :
    (Parser.ofScan s).SameValues (Parser.ofScan t) := by
  obtain ⟨htokens, hending⟩ := h
  have hfirst := pull_sameValues s.ending htokens
  have hsecond := pull_sameValues s.ending hfirst.ahead
  unfold Parser.ofScan
  rw [← hending]
  refine ⟨hfirst.token, hsecond.token, hsecond.ahead, rfl, ?_, ?_⟩
  · dsimp only
    rw [hfirst.errors, hsecond.errors]
  · dsimp only
    rw [hfirst.cutShort, hsecond.cutShort]

/-- **What is read from a scan** depends on the texts of its tokens through the terminals only. -/
theorem finish_values {s t : Scan} (h : s.SameValues t) :
    (Parser.ofScan s).program.finish = (Parser.ofScan t).program.finish := by
  have hprogram : (Parser.ofScan s).program.Agree Parser.SameValues id
      (Parser.ofScan t).program := by
    refine (values_twins.header (ofScan_sameValues h)).andThen
      fun p q _ _ name name' h1 hname => ?_
    refine (values_twins.items .declarations h1).andThen fun p' q' _ _ ds ds' h2 hds => ?_
    refine (values_twins.items .statements h2).map fun ss ss' hss => ?_
    rw [Sight.stmt, Sight.see_sharp, List.map_id, List.map_id] at hds hss
    obtain rfl : name = name' := hname
    rw [hds, hss]
  have hvalue := hprogram.value
  rw [Option.map_id_fun] at hvalue
  simp only [id] at hvalue
  rw [Step.finish, Step.finish, hvalue, hprogram.after.errors, hprogram.after.cutShort]

end ProcLang
