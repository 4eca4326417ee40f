import ProcLang.Proofs.AtOnce
import ProcLang.Proofs.Sessions

/-!
# Headway

A parser gets on with its text, however wrong that is. Skipping goes behind the next semicolon or to
the end (`recover_finds`), and asking for an item passes at least one token unless the text has
ended (`nextItem_length_lt`). So asking for one item after another comes to an end, after no more
rounds than there are tokens left and one (`Section.loop_ends`), and compiling does nothing else
(`Section.Loop.compileSection`).
-/

namespace ProcLang

variable {p q : Parser}

/-! ## Skipping -/

/-- What is skipped: the tokens up to the first semicolon and the semicolon, or all that are left if
there is none. -/
def Recovery.Finds : Recovery p → Prop
  | .resumed q _ => ∃ skipped semicolon, p.left = skipped ++ semicolon :: q.left ∧
      semicolon.kind = .semicolon ∧ ∀ t ∈ skipped, t.kind ≠ .semicolon
  | .ended q _ => q.kind = .eof ∧ ∀ t ∈ p.left, t.kind ≠ .semicolon

/-- **Skipping** goes behind the first semicolon, or to the end of the text. -/
theorem recover_finds {p : Parser} (h : p.Ready) : p.recover.Finds := by
  rw [Parser.recover]
  split
  · rename_i hend
    exact ⟨hend, by simp [Parser.left_of_end hend]⟩
  · rename_i hend
    have hleft := h.left_advance hend
    have lt := Parser.advance_remaining_lt hend
    dsimp only
    split
    · rename_i hkind
      exact ⟨[], p.current, hleft, hkind, by simp⟩
    · rename_i hkind
      have rest := recover_finds (Parser.ready_kept.advance h)
      cases hread : p.advance.recover with
      | resumed q ltq =>
        rw [hread] at rest
        obtain ⟨skipped, semicolon, hsplit, hsemicolon, hskipped⟩ := rest
        refine ⟨p.current :: skipped, semicolon, ?_, hsemicolon, ?_⟩
        · rw [hleft, hsplit, List.cons_append]
        · exact List.forall_mem_cons.mpr ⟨hkind, hskipped⟩
      | ended q le =>
        rw [hread] at rest
        exact ⟨rest.1, by rw [hleft]; exact List.forall_mem_cons.mpr ⟨hkind, rest.2⟩⟩
termination_by p.remaining

/-! ## The next item -/

theorem expect_remaining_lt {α : Type} {kind : TokenKind} (hkind : p.kind = kind)
    (hne : kind ≠ .eof) (f : LaterWith p Token α) :
    (p.expect kind f).after.remaining < p.remaining := by
  have lt := Parser.advance_remaining_lt (hkind ▸ hne : p.kind ≠ .eof)
  unfold Parser.expect
  rw [dif_pos ⟨hkind, hne⟩]
  exact Nat.lt_of_le_of_lt (f p.advance lt p.current).le lt

/-- Whether a parser stands at what closes a section. -/
def Section.ClosesAt : Section → Parser → Prop
  | .declarations, p => p.kind = .kwBegin
  | .statements, p => p.kind = .kwEnd ∧ p.next.kind = .kwProgram

/-- At the end of the text there is no item, and nothing is passed. -/
theorem nextItem_of_end (h : p.kind = .eof) (part : Section) :
    p.nextItem part = p.prematureEnd := by
  unfold Parser.nextItem
  cases part <;> simp [h]

/-- Where a section is closed, what closes it is passed. -/
theorem nextItem_of_closesAt {part : Section} (h : part.ClosesAt p) :
    ∃ q le, p.nextItem part = .finished q le ∧ q.remaining < p.remaining := by
  cases part with
  | declarations =>
    have hkind : p.kind = .kwBegin := h
    exact ⟨_, _, if_pos hkind, Parser.advance_remaining_lt (hkind ▸ by decide)⟩
  | statements =>
    have hkind : p.kind = .kwEnd ∧ p.next.kind = .kwProgram := h
    exact ⟨_, _, if_pos hkind, expect_remaining_lt hkind.1 (by decide) _⟩

/-- Elsewhere an item is read. -/
theorem nextItem_of_open {part : Section} (hne : p.kind ≠ .eof) (h : ¬ part.ClosesAt p) :
    p.nextItem part = p.terminatedItem part := by
  cases part with
  | declarations | statements => exact (if_neg h).trans (if_neg hne)

/-- The parser from which an item is skipped: an item without a semicolon is reported first. -/
def Step.skipsFrom (s : Step p Stmt) : Parser :=
  if s.value.isNone then s.after else s.after.report (.unexpected .semicolon s.after.kind)

/-- **What becomes of an item**: it is there with its semicolon, or it is skipped. -/
theorem Step.item_cases (s : Step p Stmt) :
    (∃ stmt lt, s.value = some stmt ∧ s.after.kind = .semicolon ∧
      s.item = .parsed stmt s.after.advance lt) ∨
    (∃ q lt lt', s.skipsFrom.recover = .resumed q lt ∧ s.item = .skipped q lt') ∨
    ∃ q le le', s.skipsFrom.recover = .ended q le ∧ s.item = .ended q le' := by
  have hskip : ∀ {r : Parser} (ler : r.remaining ≤ p.remaining), s.skipsFrom = r →
      s.item = Step.item.skip r ler →
      (∃ q lt lt', s.skipsFrom.recover = .resumed q lt ∧ s.item = .skipped q lt') ∨
        ∃ q le le', s.skipsFrom.recover = .ended q le ∧ s.item = .ended q le' := by
    rintro r ler rfl heq
    rw [heq, Step.item.skip]
    cases hread : s.skipsFrom.recover with
    | resumed q lt => exact Or.inl ⟨q, lt, _, rfl, rfl⟩
    | ended q le => exact Or.inr ⟨q, le, _, rfl, rfl⟩
  obtain ⟨value, r, le⟩ := s
  cases value with
  | none => exact Or.inr (hskip le rfl rfl)
  | some stmt =>
    by_cases hkind : r.kind = .semicolon
    · exact Or.inl ⟨stmt, _, rfl, hkind, dif_pos hkind⟩
    · have ler : (r.report (.unexpected .semicolon r.kind)).remaining ≤ p.remaining := le
      exact Or.inr (hskip ler rfl (dif_neg hkind))

theorem terminatedItem_cases (part : Section) (p : Parser) :
    (∃ stmt lt, (p.item part).value = some stmt ∧ (p.item part).after.kind = .semicolon ∧
      p.terminatedItem part = .item stmt (p.item part).after.advance lt) ∨
    (∃ q lt lt', (p.item part).skipsFrom.recover = .resumed q lt ∧
      p.terminatedItem part = .recovered q lt') ∨
    ∃ q le le', (p.item part).skipsFrom.recover = .ended q le ∧
      p.terminatedItem part = .ended q le' := by
  unfold Parser.terminatedItem
  rcases (p.item part).item_cases with ⟨stmt, lt, hvalue, hkind, heq⟩ | ⟨q, lt, lt', hread, heq⟩ |
    ⟨q, le, le', hread, heq⟩
  · exact Or.inl ⟨stmt, lt, hvalue, hkind, by rw [heq]⟩
  · exact Or.inr (Or.inl ⟨q, lt, lt', hread, by rw [heq]⟩)
  · exact Or.inr (Or.inr ⟨q, le, le', hread, by rw [heq]⟩)

theorem Parser.Kept.skipsFrom {I : Parser → Prop} (hkept : Parser.Kept I) (hp : I p)
    (part : Section) : I (p.item part).skipsFrom := by
  have hafter := (hkept.twins.sectionItem part ⟨rfl, hp⟩).after.2
  unfold Step.skipsFrom
  split
  · exact hafter
  · exact hkept.report _ rfl hafter

/-- Where the text is over before the section is, its end was reached. -/
theorem ended_kind {part : Section} {le : q.remaining ≤ p.remaining} (hp : p.Ready)
    (h : p.nextItem part = .ended q le) : q.kind = .eof := by
  by_cases hend : p.kind = .eof
  · rw [nextItem_of_end hend] at h
    cases h
    exact hend
  · by_cases hcloses : part.ClosesAt p
    · obtain ⟨q', le', hread, -⟩ := nextItem_of_closesAt hcloses
      rw [hread] at h
      cases h
    · rw [nextItem_of_open hend hcloses] at h
      have hfinds := recover_finds (Parser.ready_kept.skipsFrom hp part)
      rcases terminatedItem_cases part p with ⟨stmt, lt, -, -, heq⟩ | ⟨q', lt, lt', -, heq⟩ |
        ⟨q', le', le'', hread, heq⟩
      · rw [heq] at h
        cases h
      · rw [heq] at h
        cases h
      · rw [heq] at h
        cases h
        rw [hread] at hfinds
        exact hfinds.1

theorem finished_remaining_lt {part : Section} {le : q.remaining ≤ p.remaining}
    (hne : p.kind ≠ .eof) (h : p.nextItem part = .finished q le) : q.remaining < p.remaining := by
  by_cases hcloses : part.ClosesAt p
  · obtain ⟨q', le', hread, hlt⟩ := nextItem_of_closesAt hcloses
    rw [hread] at h
    cases h
    exact hlt
  · rw [nextItem_of_open hne hcloses, Parser.terminatedItem] at h
    split at h <;> cases h

/-- **Asking for an item passes a token**, unless the text has ended. -/
theorem nextItem_length_lt (h : p.Ready) (hne : p.kind ≠ .eof) (part : Section) :
    (p.nextItem part).after.left.length < p.left.length := by
  have hleads := (Parser.leads_kept p).nextItem h.leads part
  cases hread : p.nextItem part with
  | item stmt q lt | recovered q lt =>
    rw [hread] at hleads
    exact hleads.length_lt lt
  | finished q le =>
    rw [hread] at hleads
    exact hleads.length_lt (finished_remaining_lt hne hread)
  | ended q le =>
    have hnone : q.left = [] := Parser.left_of_end (ended_kind h hread)
    have hsome : p.left ≠ [] := mt h.left_eq_nil.mp hne
    change q.left.length < _
    rw [hnone]
    exact List.length_pos_iff.mpr hsome

/-! ## Loops -/

/-- The loop over a section: an item is asked for and the errors are set aside, until there is no
next item. It takes a number of rounds, and the section ends before the text does or not. -/
inductive Section.Loop (part : Section) : Parser → Nat → Bool → Parser → Prop
  | item {p q r : Parser} {stmt : Stmt} {lt : q.remaining < p.remaining} {rounds : Nat}
      {complete : Bool} : p.nextItem part = .item stmt q lt →
      part.Loop q.clearErrors rounds complete r → part.Loop p (rounds + 1) complete r
  | recovered {p q r : Parser} {lt : q.remaining < p.remaining} {rounds : Nat} {complete : Bool} :
      p.nextItem part = .recovered q lt → part.Loop q.clearErrors rounds complete r →
      part.Loop p (rounds + 1) complete r
  | finished {p q : Parser} {le : q.remaining ≤ p.remaining} :
      p.nextItem part = .finished q le → part.Loop p 1 true q.clearErrors
  | ended {p q : Parser} {le : q.remaining ≤ p.remaining} :
      p.nextItem part = .ended q le → part.Loop p 1 false q.clearErrors

namespace Section

variable {part : Section}

/-- **Loops end**, after no more rounds than there are tokens left and one. -/
theorem loop_ends (part : Section) {p : Parser} (h : p.Ready) :
    ∃ rounds complete last, part.Loop p rounds complete last ∧ rounds ≤ p.left.length + 1 := by
  have hleads := (Parser.leads_kept p).nextItem h.leads part
  have hrest : ∀ {q : Parser}, p.Leads q → q.remaining < p.remaining →
      ∃ rounds complete last, part.Loop q.clearErrors rounds complete last ∧
        rounds ≤ p.left.length := by
    intro q hq lt
    have : q.clearErrors.left.length < p.left.length := hq.length_lt lt
    obtain ⟨rounds, complete, last, hloop, hle⟩ :=
      loop_ends part (p := q.clearErrors) ⟨hq.ready.current, hq.ready.next⟩
    exact ⟨rounds, complete, last, hloop, by omega⟩
  cases hread : p.nextItem part with
  | item stmt q lt =>
    rw [hread] at hleads
    obtain ⟨rounds, complete, last, hloop, hle⟩ := hrest hleads lt
    exact ⟨rounds + 1, complete, last, .item hread hloop, by omega⟩
  | recovered q lt =>
    rw [hread] at hleads
    obtain ⟨rounds, complete, last, hloop, hle⟩ := hrest hleads lt
    exact ⟨rounds + 1, complete, last, .recovered hread hloop, by omega⟩
  | finished q le => exact ⟨1, true, _, .finished hread, by omega⟩
  | ended q le => exact ⟨1, false, _, .ended hread, by omega⟩
termination_by p.left.length

/-- **Compiling a section is such a loop**: it ends as the loop does, unless lowering comes to no
result. -/
theorem Loop.compileSection {p last : Parser} {rounds : Nat} {complete : Bool}
    (h : part.Loop p rounds complete last) {s : Lowering} {found : List Diagnostic}
    {r : Bool × Progress} (run : ProcLang.compileSection part p s found = .ok r) :
    r.1 = complete ∧ r.2.parser = last := by
  induction h generalizing s found with
  | @item p q _ stmt lt _ _ hread _ ih =>
    rw [ProcLang.compileSection, hread] at run
    cases hitem : s.item stmt with
    | error fault =>
      simp only [hitem] at run
      cases run
    | ok lowered =>
      simp only [hitem] at run
      exact ih run
  | recovered hread _ ih =>
    rw [ProcLang.compileSection, hread] at run
    exact ih run
  | finished hread | ended hread =>
    rw [ProcLang.compileSection, hread] at run
    cases run
    exact ⟨rfl, rfl⟩

end Section

/-- **A parser makes headway**, whatever the text is and whatever the parser was asked for before.
What it is asked for next comes to an end behind some of the tokens left, and skipping does so
behind the next semicolon. Asking for an item passes at least one token, or the text has ended and
the parser stays where it is. So the loop over a section ends, and compiling from there comes to a
result. -/
theorem session_makes_headway (tabWidth : Nat) (source : String) (actions : List Parser.Action) :
    let session := Session.run tabWidth source actions
    let p := session.parser
    (∀ action, ∃ passed, p.left = passed ++ (session.act action).parser.left) ∧
      p.recover.Finds ∧
      (∀ part : Section,
        (p.kind = .eof → ∃ le, p.nextItem part = .ended (p.report .endOfInput) le) ∧
        (p.kind ≠ .eof → (p.nextItem part).after.left.length < p.left.length) ∧
        ∃ rounds complete last, part.Loop p rounds complete last ∧ rounds ≤ p.left.length + 1 ∧
          ∀ s found r, compileSection part p s found = .ok r →
            r.1 = complete ∧ r.2.parser = last) ∧
      ∀ name moduleName, ∃ r, compileBody p name moduleName = .ok r := by
  intro session p
  have hready : p.Ready := Session.run_ready tabWidth source actions
  refine ⟨fun action => ?_, recover_finds hready, fun part => ?_, fun name moduleName => ?_⟩
  · have hkept := Parser.leads_kept p
    have hleads : ∀ {q : Parser}, p.Leads q → ∃ passed, p.left = passed ++ q.left := by
      rintro q ⟨-, ⟨passed, hpassed⟩, -⟩
      exact ⟨passed, hpassed.symm⟩
    cases action with
    | header => exact hleads (hkept.header hready.leads)
    | expr => exact hleads (hkept.expr hready.leads)
    | next part => exact hleads (hkept.nextItem hready.leads part)
    | recover => exact hleads (hkept.recover hready.leads)
    | takeErrors => exact ⟨[], rfl⟩
  · obtain ⟨rounds, complete, last, hloop, hle⟩ := part.loop_ends hready
    exact ⟨fun hend => ⟨_, nextItem_of_end hend part⟩, fun hne => nextItem_length_lt hready
      hne part, rounds, complete, last, hloop, hle, fun _ _ _ run => hloop.compileSection run⟩
  · obtain ⟨last, c, hbody, -⟩ := compileBody_reads p name moduleName
    exact ⟨_, hbody⟩

end ProcLang
