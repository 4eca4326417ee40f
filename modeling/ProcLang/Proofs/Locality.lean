import ProcLang.Proofs.AsRead
import ProcLang.Proofs.Complaints
import ProcLang.Proofs.Headway

/-!
# Errors stay where they are

An item that is wrong does not harm the next one. Only the items that hold others have semicolons
inside. Up to where one of these begins, no production goes beyond a semicolon, whatever it finds,
and it complains only if it gives no value (`Step.Calm`). So what is asked for up to a semicolon is
decided by the tokens in front of it, and the parser goes on right behind it
(`session_recovers_locally`).
-/

namespace ProcLang

open Grammar

/-- What the items begin with that hold other items. -/
def openerKinds : List TokenKind :=
  [.kwIf, .kwFor, .kwProcedure]

namespace Parser

variable {p : Parser} {semicolon : Token} {rest : List Token}

/-- The parser stands before a semicolon, and no item that holds others begins on the way to it. -/
structure Before (semicolon : Token) (rest : List Token) (p : Parser) : Prop where
  ready : p.Ready
  kind : semicolon.kind = .semicolon
  left : ∃ tokens, p.left = tokens ++ semicolon :: rest ∧
    ∀ t ∈ tokens, t.kind ≠ .semicolon ∧ t.kind ∉ openerKinds

/-- The semicolon is the current token, or it is still before the parser when that has moved on. -/
theorem Before.current (h : p.Before semicolon rest) :
    (p.kind = .semicolon ∧ p.left = semicolon :: rest) ∨
      (p.kind ≠ .semicolon ∧ p.kind ∉ openerKinds ∧ p.advance.Before semicolon rest) := by
  obtain ⟨tokens, hleft, hfree⟩ := h.left
  cases tokens with
  | nil =>
    obtain ⟨-, hcurrent, -⟩ := h.ready.of_left_cons hleft
    exact Or.inl ⟨by rw [Parser.kind, hcurrent, h.kind], hleft⟩
  | cons t tokens =>
    obtain ⟨-, rfl, hadvance⟩ := h.ready.of_left_cons hleft
    obtain ⟨⟨hne, hopener⟩, hfree⟩ := List.forall_mem_cons.mp hfree
    exact Or.inr ⟨hne, hopener, ready_kept.advance h.ready, h.kind, tokens, hadvance, hfree⟩

theorem Before.advance (h : p.Before semicolon rest) (hkind : p.kind ≠ .semicolon) :
    p.advance.Before semicolon rest := by
  rcases h.current with ⟨heq, -⟩ | ⟨-, -, hadvance⟩
  · exact absurd heq hkind
  · exact hadvance

theorem Before.kind_notMem (h : p.Before semicolon rest) : p.kind ∉ openerKinds := by
  rcases h.current with ⟨heq, -⟩ | ⟨-, hopener, -⟩
  · rw [heq]
    decide
  · exact hopener

theorem Before.reportAt (h : p.Before semicolon rest) (position : Position) (cause : SyntaxCause) :
    (p.reportAt position cause).Before semicolon rest :=
  ⟨⟨h.ready.current, h.ready.next⟩, h.kind, h.left⟩

end Parser

/-- No semicolon is passed, and there is no complaint but where a step fails. -/
def Before.law (semicolon : Token) (rest : List Token) (complaints : List SyntaxError) :
    Parser.Law where
  quiet p := p.Before semicolon rest ∧ p.complaints = complaints
  always := Parser.Before semicolon rest
  advance h hkind := ⟨h.1.advance hkind, (Parser.advance_complaints _).trans h.2⟩
  weaken := And.left
  report position cause h := h.1.reportAt position cause

/-- The step does not go beyond the next semicolon, if no item that holds others begins on the way
to it, and it complains only if it gives no value. -/
def Step.Calm {p : Parser} {α : Type} (s : Step p α) : Prop :=
  ∀ semicolon rest complaints,
    s.Gives (Before.law semicolon rest complaints) (fun _ => True) fun _ => 0

/-! ## Items -/

section Items

variable {α β : Type}

/-- What a production gives of a law, it gives of this one. -/
theorem calm_map {p : Parser} {s : Step p α} {fine : α → Prop} {size : α → Nat}
    (h : ∀ I, s.Gives I fine size) (f : α → β) : (s.map f).Calm :=
  fun _ _ _ => (h _).map fun _ _ => ⟨trivial, Nat.zero_le _⟩

/-- What begins an item that holds others is not there, so what would be behind it does not matter.
-/
theorem calm_opener (p : Parser) {kind : TokenKind} (hkind : kind ∈ openerKinds)
    {f : LaterWith p Token α} : (p.expect kind f).Calm := by
  intro _ _ _ hp
  have hnot : ¬ (p.kind = kind ∧ kind ≠ .eof) := fun h => hp.1.kind_notMem (h.1 ▸ hkind)
  rw [Parser.expect, dif_neg hnot]
  exact gives_failAt _ _ _ hp

/-- Here it does not matter which names there are. -/
def AnyName (_ : String) : Prop :=
  True

theorem anyName (I : Parser.Law) (q : Parser) :
    I.quiet q → q.kind = .identifier → AnyName (String.ofList q.current.text) :=
  fun _ _ => trivial

theorem declaration_calm (p : Parser) (item : Section → Later p Stmt) :
    (p.declaration item).Calm := by
  intro semicolon rest complaints
  refine gives_optional p rfl fun q le isGlobal => ?_
  unfold Parser.declarationRest
  split
  · rename_i ty hty
    exact calm_map (fun I => shortVariable_asRead (anyName I) hty isGlobal) _ _ _ _
  · split
    · exact calm_opener q (by decide) _ _ _
    · exact calm_map (fun I => longVariable_asRead (anyName I) q isGlobal) _ _ _ _
    · refine gives_expect q rfl fun r _ _ => gives_named r (anyName _) fun s _ name _ => ?_
      exact gives_expect s rfl fun t _ _ =>
        calm_map (fun I => typeMark_asRead (anyName I) t) _ _ _ _
    · exact gives_failAt _ _ _

theorem statement_calm (p : Parser) (item : Section → Later p Stmt) : (p.statement item).Calm := by
  unfold Parser.statement
  split
  case h_1 | h_2 => exact calm_opener p (by decide)
  case h_3 => exact fun _ _ _ =>
    gives_expect p rfl fun q _ _ => calm_map (fun I => expr_asRead (anyName I) q) _ _ _ _
  case h_4 =>
    split
    · exact calm_map (fun I => call_asRead (anyName I) p fun q _ => expr_asRead (anyName I) q) _
    · exact calm_map (fun I => assignment_asRead (anyName I) p) _
  case h_13 => exact fun _ _ _ => gives_failAt _ _ _
  all_goals exact declaration_calm p item

/-- **Items** do not go beyond a semicolon, up to where one begins that holds others. -/
theorem item_calm (part : Section) (p : Parser) : (p.item part).Calm := by
  cases part with
  | declarations =>
    rw [Parser.item]
    exact declaration_calm p _
  | statements =>
    rw [Parser.item]
    exact statement_calm p _

end Items

/-! ## The next item -/

section Next

variable {p : Parser} {part : Section} {semicolon : Token} {tokens rest : List Token}

/-- What a section is closed with, as far as a parser looks. -/
def Section.closers : Section → List TokenKind
  | .declarations => [.kwBegin]
  | .statements => [.kwEnd, .kwProgram]

theorem Section.ClosesAt.isPrefix (h : part.ClosesAt p) (hp : p.Ready)
    (hkind : semicolon.kind = .semicolon) (hleft : p.left = tokens ++ semicolon :: rest) :
    part.closers <+: tokens.map Token.kind := by
  have hsemicolon : p.kind = .kwBegin ∨ p.kind = .kwEnd → tokens ≠ [] := by
    rintro hclosing rfl
    obtain ⟨-, hcurrent, -⟩ := hp.of_left_cons hleft
    rw [Parser.kind, hcurrent, hkind] at hclosing
    rcases hclosing with h | h <;> cases h
  cases part with
  | declarations =>
    have hbegin : p.kind = .kwBegin := h
    obtain ⟨t, tokens, rfl⟩ := List.exists_cons_of_ne_nil (hsemicolon (Or.inl hbegin))
    obtain ⟨-, rfl, -⟩ := hp.of_left_cons hleft
    exact ⟨_, congrArg (· :: tokens.map Token.kind) hbegin.symm⟩
  | statements =>
    obtain ⟨hend, hprogram⟩ : p.kind = .kwEnd ∧ p.next.kind = .kwProgram := h
    obtain ⟨t, tokens, rfl⟩ := List.exists_cons_of_ne_nil (hsemicolon (Or.inr hend))
    have hnext := hp.next_kind hleft
    rw [hprogram] at hnext
    cases tokens with
    | nil =>
      have hother : TokenKind.kwProgram = semicolon.kind :=
        hnext.trans (Token.terminal_kind semicolon)
      rw [hkind] at hother
      cases hother
    | cons u tokens =>
      have hu : TokenKind.kwProgram = u.kind := hnext.trans (Token.terminal_kind u)
      obtain ⟨-, rfl, -⟩ := hp.of_left_cons hleft
      exact ⟨_, congrArg₂ (fun a b => a :: b :: tokens.map Token.kind) hend.symm hu⟩

/-- There is one way only to split tokens at their first semicolon. -/
theorem eq_of_first_semicolon {tokens' rest' : List Token} {semicolon' : Token}
    (hkind : semicolon.kind = .semicolon) (hkind' : semicolon'.kind = .semicolon)
    (hfree : ∀ t ∈ tokens, t.kind ≠ .semicolon) (hfree' : ∀ t ∈ tokens', t.kind ≠ .semicolon)
    (h : tokens ++ semicolon :: rest = tokens' ++ semicolon' :: rest') : rest = rest' := by
  have hdrop := congrArg (List.dropWhile (·.kind != .semicolon)) h
  rw [List.dropWhile_append_of_pos (by simpa using hfree),
    List.dropWhile_append_of_pos (by simpa using hfree'),
    List.dropWhile_cons_of_neg (by simp [hkind]),
    List.dropWhile_cons_of_neg (by simp [hkind'])] at hdrop
  exact (List.cons.inj hdrop).2

/-- Where an item is skipped, it is up to the semicolon. -/
theorem skipsFrom_before (h : p.Before semicolon rest) (part : Section) :
    (p.item part).skipsFrom.Before semicolon rest := by
  obtain ⟨hafter, -⟩ := item_calm part p semicolon rest p.complaints ⟨h, rfl⟩
  unfold Step.skipsFrom
  split
  · exact hafter
  · exact hafter.reportAt _ _

/-- **Asking for an item** leads right behind the semicolon. An item is given only if there is no
complaint. -/
theorem nextItem_local (h : p.Before semicolon rest) (hopen : ¬ part.ClosesAt p) :
    (∃ stmt q lt, p.nextItem part = .item stmt q lt ∧ q.left = rest ∧ ¬ p.Complains q) ∨
      ∃ q lt, p.nextItem part = .recovered q lt ∧ q.left = rest := by
  have hne : p.kind ≠ .eof := by
    obtain ⟨tokens, hleft, -⟩ := h.left
    intro hend
    rw [Parser.left_of_end hend] at hleft
    simp at hleft
  have hleads := (Parser.leads_kept p).nextItem h.ready.leads part
  obtain ⟨hafter, hquiet⟩ := item_calm part p semicolon rest p.complaints ⟨h, rfl⟩
  have hskips := skipsFrom_before h part
  have hfinds := recover_finds hskips.ready
  obtain ⟨tokens, hleft, hfree⟩ := hskips.left
  rw [nextItem_of_open hne hopen] at hleads ⊢
  rcases terminatedItem_cases part p with ⟨stmt, lt, hvalue, hkind, heq⟩ |
    ⟨q, lt, lt', hread, heq⟩ | ⟨q, le, le', hread, heq⟩
  · rw [heq] at hleads ⊢
    refine Or.inl ⟨stmt, _, lt, rfl, ?_, ?_⟩
    · rcases hafter.current with ⟨-, hbehind⟩ | ⟨hnot, -⟩
      · exact (hafter.ready.of_left_cons hbehind).2.2
      · exact absurd hkind hnot
    · have herrors : p.errors <+: (p.item part).after.advance.errors := hleads.errors
      rw [Parser.complains_iff herrors, Parser.advance_complaints, (hquiet stmt hvalue).1.2]
      exact Nat.lt_irrefl _
  · rw [hread] at hfinds
    obtain ⟨skipped, semicolon', hsplit, hkind', hskipped⟩ := hfinds
    refine Or.inr ⟨q, lt', heq, ?_⟩
    exact eq_of_first_semicolon hkind' hskips.kind hskipped (fun t ht => (hfree t ht).1)
      (hsplit.symm.trans hleft)
  · -- The semicolon is in front of the parser, so the text does not end before it.
    rw [hread] at hfinds
    refine absurd hskips.kind (hfinds.2 semicolon ?_)
    rw [hleft]
    exact List.mem_append_right _ List.mem_cons_self

/-- **An item of the grammar** in front of a semicolon is given, wherever the parser stands. -/
theorem nextItem_of_isItem (h : p.Ready) (hkind : semicolon.kind = .semicolon)
    (hleft : p.left = tokens ++ semicolon :: rest) {stmt : Stmt}
    (hitem : IsItem part (tokens.map Token.terminal) stmt) :
    ∃ read q lt, p.nextItem part = .item read q lt ∧ read.unlined = stmt ∧ q.left = rest ∧
      ¬ p.Complains q := by
  obtain ⟨scan, bare, hbare⟩ := h.bare
  have hfaces := hbare.faces
  rw [hleft, List.map_append, List.map_cons, Token.terminal_of_fixed hkind rfl] at hfaces
  obtain ⟨read, bare', lt, heq, hread, hfaces', herrors⟩ := nextItem_reads hfaces hitem
  have hagree := (Parser.bare_twins _ _).nextItem part hbare
  have hleads := (Parser.leads_kept p).nextItem h.leads part
  have hsound := nextItem_sound part bare
  rw [heq] at hagree hsound
  cases hp : p.nextItem part with
  | item stmt' q lt' =>
    rw [hp] at hagree hleads
    obtain ⟨hstmt, hbare'⟩ : stmt'.unlined = read.unlined ∧ _ := hagree
    refine ⟨stmt', q, lt', rfl, hstmt.trans hread, ?_, ?_⟩
    · -- What is left is the end of the same tokens, and as long.
      have hmap := hbare'.faces.upcoming.symm.trans hfaces'.upcoming
      have hlength : q.left.length = rest.length := by
        rw [← List.length_map Token.terminal, hmap, List.length_map]
      obtain ⟨passed, hpassed⟩ := hleads.left
      rw [hleft, ← List.singleton_append, ← List.append_assoc] at hpassed
      exact (List.append_inj' hpassed hlength).2
    · rw [hbare.complains_iff hbare' hleads.errors hsound.1, not_not]
      exact herrors
  | recovered q lt' | finished q le | ended q le =>
    rw [hp] at hagree
    exact absurd hagree id

end Next

/-- **Errors stay where they are**, whatever the text is and whatever the parser was asked for
before. If the tokens left are some up to a semicolon and a rest, where none of those in front
begins an item that holds others and they do not close the section, then asking for an item leads
right behind the semicolon. If the tokens in front are an item of the grammar, it is given without a
complaint. Otherwise they are skipped, with one. -/
theorem session_recovers_locally (tabWidth : Nat) (source : String) (actions : List Parser.Action)
    (part : Section) {tokens rest : List Token} {semicolon : Token}
    (hleft : (Session.run tabWidth source actions).parser.left = tokens ++ semicolon :: rest)
    (hkind : semicolon.kind = .semicolon)
    (hfree : ∀ t ∈ tokens, t.kind ≠ .semicolon ∧ t.kind ∉ openerKinds)
    (hopen : ¬ part.closers <+: tokens.map Token.kind) :
    let p := (Session.run tabWidth source actions).parser
    (∀ stmt, IsItem part (tokens.map Token.terminal) stmt →
      ∃ read q lt, p.nextItem part = .item read q lt ∧ read.unlined = stmt ∧ q.left = rest ∧
        ¬ p.Complains q) ∧
      ((¬ ∃ stmt, IsItem part (tokens.map Token.terminal) stmt) →
        ∃ q lt, p.nextItem part = .recovered q lt ∧ q.left = rest ∧ p.Complains q) := by
  intro p
  have hready : p.Ready := Session.run_ready tabWidth source actions
  have hcandid := nextItem_candid hready part
  refine ⟨fun stmt hitem => nextItem_of_isItem hready hkind hleft hitem, fun hnone => ?_⟩
  rcases nextItem_local ⟨hready, hkind, tokens, hleft, hfree⟩
    fun hcloses => hopen (hcloses.isPrefix hready hkind hleft) with
    ⟨stmt, q, lt, heq, hrest, hquiet⟩ | ⟨q, lt, heq, hrest⟩
  · -- What is given without a complaint is an item of the grammar, and it is these tokens.
    rw [heq] at hcandid
    obtain ⟨tokens', semicolon', hleft', -, hitem⟩ := hcandid hquiet
    rw [hrest] at hleft'
    have hsplit := List.append_inj_left' (hleft.symm.trans hleft') rfl
    exact absurd ⟨_, hsplit ▸ hitem⟩ hnone
  · rw [heq] at hcandid
    exact ⟨q, lt, heq, hrest, hcandid⟩

/-- A text with a stray plus sign in front of its first statement. -/
def strayText : String :=
  "program p is begin + x := 1; y := 2; end program."

/-- What the grammar sees of the statement with the stray sign. -/
def strayTerminals : List Terminal :=
  [.sym .plus, .name "x", .sym .assign, .integer 1]

/-- What it sees behind that. -/
def behindStray : List Terminal :=
  [.name "y", .sym .assign, .integer 2, .sym .semicolon, .sym .kwEnd, .sym .kwProgram, .sym .period]

/-- The statement is skipped with an error, and the next one is not touched. -/
theorem recovers_behind_stray :
    let p := (Session.run 4 strayText [.header, .next .declarations]).parser
    p.left.map Token.terminal = strayTerminals ++ .sym .semicolon :: behindStray ∧
      (¬ ∃ stmt, IsItem .statements strayTerminals stmt) ∧
      ∃ q lt, p.nextItem .statements = .recovered q lt ∧
        q.left.map Token.terminal = behindStray ∧ p.Complains q := by
  have hterminals :
      (Session.run 4 strayText [.header, .next .declarations]).parser.left.map Token.terminal =
        strayTerminals ++ .sym .semicolon :: behindStray := by decide +kernel
  intro p
  have hnone : ¬ ∃ stmt, IsItem .statements strayTerminals stmt := by
    rintro ⟨stmt, hstmt⟩
    exact absurd (item_starts .statements hstmt []) (by decide)
  obtain ⟨tokens, behind, hleft, htokens, hbehind⟩ := List.map_eq_append_iff.mp hterminals
  obtain ⟨semicolon, rest, rfl, hsemicolon, hrest⟩ := List.map_eq_cons_iff.mp hbehind
  have hkinds : tokens.map Token.kind = [.plus, .identifier, .assign, .integer] := by
    have hmap : tokens.map Token.kind = (tokens.map Token.terminal).map Terminal.kind := by
      rw [List.map_map]
      exact List.map_congr_left fun t _ => t.terminal_kind.symm
    rw [hmap, htokens]
    rfl
  have hkind : semicolon.kind = .semicolon := by
    rw [← Token.terminal_kind, hsemicolon]
    rfl
  have hfree : ∀ t ∈ tokens, t.kind ≠ .semicolon ∧ t.kind ∉ openerKinds := by
    intro t ht
    have hmem : t.kind ∈ tokens.map Token.kind := List.mem_map_of_mem ht
    rw [hkinds] at hmem
    generalize t.kind = kind at hmem
    revert kind
    decide
  have hopen : ¬ Section.closers .statements <+: tokens.map Token.kind := by
    rw [hkinds]
    decide
  obtain ⟨q, lt, heq, hq, hcomplains⟩ :=
    (session_recovers_locally 4 strayText [.header, .next .declarations] .statements hleft hkind
      hfree hopen).2 (htokens ▸ hnone)
  exact ⟨hterminals, hnone, q, lt, heq, hq ▸ hrest, hcomplains⟩

end ProcLang
