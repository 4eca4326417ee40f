import ProcLang.Compile
import ProcLang.Proofs.Productions
import ProcLang.Proofs.Twins.Items

/-!
# What is read from a text

A program is compiled item by item, and the errors in the text of an item are set aside before the
next one is read (`Parser.reading`). Reading a program as a whole keeps them. What is read does not
depend on the errors that were found before (`setAside`), so both read the same items, and stop,
skip and go on at the same places (`reading_items`, `readings_of_body`).
-/

namespace ProcLang

/-! ## What is read from a text -/

/-- The items that are read from a section, whether the section ended before the text did, and the
parser behind them. -/
def Parser.reading (part : Section) (p : Parser) : List Stmt × Bool × Parser :=
  match p.nextItem part with
  | .item stmt q lt =>
    have : q.clearErrors.remaining < p.remaining := lt
    let (items, complete, last) := q.clearErrors.reading part
    (stmt :: items, complete, last)
  | .recovered q lt =>
    have : q.clearErrors.remaining < p.remaining := lt
    q.clearErrors.reading part
  | .finished q _ => ([], true, q.clearErrors)
  | .ended q _ => ([], false, q.clearErrors)
termination_by p.remaining

/-- The items that are read from both sections of a program. -/
def Parser.readings (p : Parser) : List Stmt :=
  let (declarations, complete, last) := p.reading .declarations
  if complete then declarations ++ (last.reading .statements).1 else declarations

/-- The declarations and statements that are read from a text. -/
def sourceItems (source : String) (options : Options) : List Stmt :=
  let header := (Parser.ofString options.tabWidth source).header
  match header.value with
  | none => []
  | some _ => header.after.clearErrors.readings

/-- The heading of a program, as it is read from a text. -/
abbrev sourceHeader (source : String) (options : Options) :=
  (Parser.ofString options.tabWidth source).header

variable {source : String} {options : Options}

theorem sourceItems_eq {name : String} (h : (sourceHeader source options).value = some name) :
    sourceItems source options = (sourceHeader source options).after.clearErrors.readings := by
  rw [sourceItems, h]

section Yields

variable {I : Parser → Prop} [Parser.Invariant I] {fine : Stmt → Prop}

/-- What holds of every item that is read holds of the items of a section. -/
theorem reading_yields {part : Section} (hitem : ∀ p : Parser, (p.item part).Yields I fine)
    {p : Parser} (hp : I p) :
    (∀ stmt ∈ (p.reading part).1, fine stmt) ∧ I (p.reading part).2.2 := by
  have hnext := nextItem_yields (hitem p) hp
  rw [Parser.reading]
  cases hread : p.nextItem part with
  | item stmt q lt =>
    rw [hread] at hnext
    have : q.clearErrors.remaining < p.remaining := lt
    obtain ⟨hrest, hlast⟩ := reading_yields hitem (Parser.Invariant.clear hnext.1)
    exact ⟨List.forall_mem_cons.mpr ⟨hnext.2, hrest⟩, hlast⟩
  | recovered q lt =>
    rw [hread] at hnext
    have : q.clearErrors.remaining < p.remaining := lt
    exact reading_yields hitem (Parser.Invariant.clear hnext)
  | finished q le | ended q le =>
    rw [hread] at hnext
    exact ⟨by simp, Parser.Invariant.clear hnext⟩
termination_by p.remaining

/-- What holds of every item that is read holds of those that are read from a text. -/
theorem sourceItems_yield (hitem : ∀ (part : Section) (p : Parser), (p.item part).Yields I fine)
    (hp : I (Parser.ofString options.tabWidth source)) :
    ∀ stmt ∈ sourceItems source options, fine stmt := by
  have hheader : (sourceHeader source options).Gives (.of I)
      (fun _ => True) fun _ => 0 :=
    header_gives (fun _ _ _ => trivial) _
  unfold sourceItems
  dsimp only
  split
  · simp
  · obtain ⟨hdeclarations, hlast⟩ := reading_yields (hitem .declarations)
      (Parser.Invariant.clear (hheader hp).1)
    obtain ⟨hstatements, -⟩ := reading_yields (hitem .statements) hlast
    unfold Parser.readings
    dsimp only
    split
    · exact List.forall_mem_append.mpr ⟨hdeclarations, hstatements⟩
    · exact hdeclarations

end Yields

/-! ## Errors that were found before -/

/-- The parser with errors that were found before its own. -/
def Parser.behind (earlier : List SyntaxError) (p : Parser) : Parser :=
  { p with errors := earlier ++ p.errors }

theorem Parser.clearErrors_behind (p : Parser) : p.clearErrors.behind p.errors = p := by
  simp [behind, clearErrors]

theorem Parser.behind_advance (earlier : List SyntaxError) (p : Parser) :
    (p.behind earlier).advance = p.advance.behind earlier := by
  have hkind : (p.behind earlier).kind = p.kind := rfl
  unfold advance
  rw [hkind]
  split
  · rfl
  · simp only [behind, List.append_assoc]

/-- **What is read does not depend on the errors that were found before.** -/
theorem setAside (earlier : List SyntaxError) :
    Twins .sharp fun p q => q = p.behind earlier where
  current := by
    rintro p _ rfl
    exact ⟨rfl, rfl⟩
  next := by
    rintro p _ rfl -
    rfl
  advance := by
    rintro p _ rfl
    exact p.behind_advance earlier
  report := by
    rintro p _ position position' cause - rfl hposition
    obtain rfl : position = position' := hposition
    simp only [Parser.reportAt, Parser.behind, List.append_assoc]

/-- Setting errors aside makes no difference to the items that are read behind them. -/
theorem items_setAside (part : Section) (p : Parser) :
    (p.items part).value = (p.clearErrors.items part).value ∧
      (p.items part).after = (p.clearErrors.items part).after.behind p.errors := by
  obtain ⟨hvalue, hafter⟩ := (setAside p.errors).items part p.clearErrors_behind.symm
  rw [Sight.stmt, Sight.see_sharp, List.map_id_fun, Option.map_id_fun] at hvalue
  exact ⟨hvalue.symm, hafter⟩

/-- **A section is read item by item as it is read as a whole.** -/
theorem reading_items (part : Section) (p : Parser) :
    (p.items part).after.clearErrors = (p.reading part).2.2 ∧
      (p.items part).value = if (p.reading part).2.1 then some (p.reading part).1 else none := by
  rw [Parser.items, Parser.reading]
  cases p.nextItem part with
  | item stmt q lt =>
    have : q.clearErrors.remaining < p.remaining := lt
    obtain ⟨hafter, hvalue⟩ := reading_items part q.clearErrors
    obtain ⟨hsame, hsame'⟩ := items_setAside part q
    refine ⟨?_, ?_⟩
    · change (q.items part).after.clearErrors = _
      rw [hsame']
      exact hafter
    · change (q.items part).value.map (stmt :: ·) = _
      rw [hsame, hvalue]
      dsimp only
      split <;> rfl
  | recovered q lt =>
    have : q.clearErrors.remaining < p.remaining := lt
    obtain ⟨hafter, hvalue⟩ := reading_items part q.clearErrors
    obtain ⟨hsame, hsame'⟩ := items_setAside part q
    refine ⟨?_, hsame.trans hvalue⟩
    change (q.items part).after.clearErrors = _
    rw [hsame']
    exact hafter
  | finished q le => exact ⟨rfl, rfl⟩
  | ended q le => exact ⟨rfl, rfl⟩
termination_by p.remaining

/-! ## Both sections -/

theorem Step.andThen_value {α β : Type} {p : Parser} {s : Step p α} {f : HereWith p α β} {b : β}
    (h : (s.andThen f).value = some b) :
    ∃ a, s.value = some a ∧ (f s.after s.le a).value = some b := by
  obtain ⟨value, q, le⟩ := s
  cases value with
  | none => cases h
  | some a => exact ⟨a, rfl, h⟩

/-- Reads both sections of a program. -/
def Parser.body (p : Parser) : Step p (List Stmt × List Stmt) :=
  (p.items .declarations).andThen fun q _ declarations =>
    (q.items .statements).map fun statements => (declarations, statements)

/-- A program is its heading and its body. -/
theorem program_eq_body (p : Parser) : p.program = p.header.andThen fun q _ name =>
    q.body.map fun sections =>
      { name, declarations := sections.1, statements := sections.2 } := by
  unfold Parser.program Parser.body
  congr 1
  funext q le name
  obtain ⟨value, r, le'⟩ := q.items .declarations
  cases value with
  | none => rfl
  | some declarations =>
    simp only [Step.andThen, Step.map, Step.within, Option.map_map]
    rfl

/-- Setting errors aside makes no difference to the body that is read behind them. -/
theorem body_setAside (p : Parser) :
    p.body.value = p.clearErrors.body.value ∧
      p.body.after = p.clearErrors.body.after.behind p.errors := by
  have aside := setAside p.errors
  have hbody : p.clearErrors.body.Agree (fun p' q => q = p'.behind p.errors) id p.body := by
    refine (aside.items .declarations p.clearErrors_behind.symm).andThen
      fun q q' _ _ ds ds' h hds => (aside.items .statements h).map fun ss ss' hss => ?_
    rw [Sight.stmt, Sight.see_sharp, List.map_id, List.map_id] at hds hss
    rw [hds, hss]
  obtain ⟨hvalue, hafter⟩ := hbody
  rw [Option.map_id_fun] at hvalue
  exact ⟨hvalue.symm, hafter⟩

/-- If the first section ended before the text did, the second one is read behind it. -/
theorem body_after (p : Parser) : p.body.after =
    if (p.reading .declarations).2.1 then
      ((p.items .declarations).after.items .statements).after
    else (p.items .declarations).after := by
  obtain ⟨-, hvalue⟩ := reading_items .declarations p
  split
  · rw [if_pos ‹_›] at hvalue
    exact congrArg Step.after (Step.andThen_of_some hvalue)
  · rw [if_neg ‹_›] at hvalue
    exact congrArg Step.after (Step.andThen_of_none hvalue)

/-- A body that is read has the items that are read one by one. -/
theorem readings_of_body {p : Parser} {declarations statements : List Stmt}
    (h : p.body.value = some (declarations, statements)) :
    p.readings = declarations ++ statements := by
  obtain ⟨ds, hds, hrest⟩ := Step.andThen_value h
  obtain ⟨ss, hss, heq⟩ := Option.map_eq_some_iff.mp hrest
  obtain ⟨rfl, rfl⟩ := Prod.mk.inj heq
  clear h hrest heq
  obtain ⟨hafter, hvalue⟩ := reading_items .declarations p
  obtain ⟨-, hvalue'⟩ := reading_items .statements (p.items .declarations).after.clearErrors
  rw [(items_setAside .statements _).1, hvalue', hafter] at hss
  rw [hvalue] at hds
  simp only [Parser.readings]
  split at hds
  · split at hss
    · cases hds
      cases hss
      rw [if_pos ‹_›]
    · cases hss
  · cases hds

end ProcLang
