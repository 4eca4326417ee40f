import ProcLang.Proofs.Grammar.Program
import ProcLang.Proofs.Sessions

/-!
# Complaints

A production complains if it records an error of its own, other than the stretches that are no
tokens and that were passed on the way. One that gives no value has complained, and one that gives a
value without a complaint has read what the grammar asks for. In texts without an end token in them
and where no stretch is an error this is `Step.Sound`. It carries over to wherever a parser can
stand, since a production sees no more than the tokens left: a parser that stands in front of these
and of nothing else cannot be told apart (`bare_twins`).
-/

namespace ProcLang

open Grammar

namespace Parser

variable {p q : Parser}

/-- The errors found so far other than stretches that are no tokens. -/
def complaints (p : Parser) : List SyntaxError :=
  p.errors.filter (!·.cause.isLexical)

/-- On the way from `p` to `q` an error was recorded other than a stretch that is no token. -/
def Complains (p q : Parser) : Prop :=
  ∃ added, q.errors = p.errors ++ added ∧ ∃ e ∈ added, e.cause.isLexical = false

/-- On any way there is a complaint exactly if there are more of them behind it. -/
theorem complains_iff (h : p.errors <+: q.errors) :
    p.Complains q ↔ p.complaints.length < q.complaints.length := by
  obtain ⟨added, hadded⟩ := h
  have hsplit : q.complaints = p.complaints ++ added.filter (!·.cause.isLexical) := by
    rw [complaints, ← hadded, List.filter_append]
    rfl
  rw [hsplit, List.length_append]
  constructor
  · rintro ⟨added', hadded', e, he, hcause⟩
    obtain rfl : added = added' := List.append_cancel_left (hadded.trans hadded')
    have : 0 < (added.filter (!·.cause.isLexical)).length :=
      List.length_pos_of_mem (List.mem_filter.mpr ⟨he, by simp [hcause]⟩)
    omega
  · intro hlt
    obtain ⟨e, he⟩ := List.exists_mem_of_length_pos (by omega :
      0 < (added.filter (!·.cause.isLexical)).length)
    obtain ⟨hmem, hcause⟩ := List.mem_filter.mp he
    exact ⟨added, hadded.symm, e, hmem, by simpa using hcause⟩

theorem pull_errors_lexical (ending : Option Ending) (tokens : List Token) :
    ∀ e ∈ (pull ending tokens).errors, e.cause.isLexical = true := by
  induction tokens with
  | nil => simp [pull]
  | cons t tokens ih =>
    rw [pull]
    split
    · exact ih
    · split
      · exact List.forall_mem_cons.mpr ⟨rfl, ih⟩
      · simp

theorem advance_complaints (p : Parser) : p.advance.complaints = p.complaints := by
  unfold advance
  split
  · rfl
  · have hnone : (pull p.ending p.ahead).errors.filter (!·.cause.isLexical) = [] :=
      List.filter_eq_nil_iff.mpr fun e he => by simp [pull_errors_lexical _ _ e he]
    simp only [complaints, List.filter_append, hnone, List.append_nil]

theorem reportAt_complaints (p : Parser) (position : Position) {cause : SyntaxCause}
    (h : cause.isLexical = false) :
    (p.reportAt position cause).complaints = p.complaints ++ [⟨position, cause⟩] := by
  simp [complaints, reportAt, h]

/-! ## Nothing but the tokens left -/

/-- The parser `q` stands in front of the tokens left to `p` in a text with nothing else in it, and
it has as many errors as `p` has complaints, but for `before` ones. -/
structure Bare (scan : Scan) (before : Nat) (p q : Parser) : Prop where
  ready : p.Ready
  faces : q.Faces scan (p.left.map Token.terminal)
  complaints : p.complaints.length = before + q.errors.length

theorem Bare.kind {scan : Scan} {before : Nat} (h : Bare scan before p q) : p.kind = q.kind :=
  h.ready.kind_eq.trans h.faces.kind_eq.symm

/-- **Productions see the tokens left** and nothing else. -/
theorem bare_twins (scan : Scan) (before : Nat) : Twins .placeless (Bare scan before) where
  current {p q} h := by
    refine ⟨?_, rfl⟩
    by_cases hend : p.kind = .eof
    · rw [Token.terminal_of_fixed hend rfl, Token.terminal_of_fixed (h.kind ▸ hend) rfl]
    · have hfaces := h.faces
      rw [h.ready.left_advance hend] at hfaces
      exact hfaces.terminal.symm
  next {p q} h hend := by
    have hfaces := h.faces
    have hleft := h.ready.left_advance hend
    rw [hleft] at hfaces
    rw [h.ready.next_kind hleft, hfaces.next_kind]
  advance {p q} h := by
    by_cases hend : p.kind = .eof
    · rwa [advance, if_pos hend, advance, if_pos (h.kind ▸ hend)]
    · have hfaces := h.faces
      rw [h.ready.left_advance hend] at hfaces
      refine ⟨ready_kept.advance h.ready, hfaces.advance, ?_⟩
      rw [advance_complaints, hfaces.advance_errors, h.complaints]
  report {p q position position'} cause hcause h _ := by
    refine ⟨ready_kept.report _ hcause h.ready,
      ⟨h.faces.of.reportAt _ _, h.faces.clean, h.faces.upcoming⟩, ?_⟩
    rw [reportAt_complaints p position hcause, List.length_append, h.complaints, reportAt,
      List.length_append, Nat.add_assoc]
    rfl

/-- Wherever a parser stands, there is one with nothing but the tokens left in front of it. -/
theorem Ready.bare (h : p.Ready) : ∃ scan q, Bare scan p.complaints.length p q := by
  have hseen : ∀ t ∈ p.left, t.kind.isSeen = true := fun t ht => isSeen_of_mem_upToEnd ht
  have hkinds : ∀ t ∈ p.left, t.kind ≠ .eof ∧ t.kind.isError = false := by
    intro t ht
    have hkind := hseen t ht
    simp only [TokenKind.isSeen, Bool.and_eq_true, Bool.not_eq_true', bne_iff_ne] at hkind
    exact ⟨hkind.2, hkind.1.2⟩
  have hend : ∀ t ∈ p.left, t.kind ≠ .eof := fun t ht => (hkinds t ht).1
  have hclean : ∀ t ∈ p.left, t.kind.isError = false := fun t ht => (hkinds t ht).2
  refine ⟨⟨p.left, some default⟩, ofScan ⟨p.left, some default⟩, h,
    ⟨ofScan_of hend, hclean, ?_⟩, ?_⟩
  · rw [ofScan_upcoming hend, terminals, List.filter_eq_self.mpr hseen]
  · rw [ofScan_errors hend hclean]
    rfl

variable {scan : Scan} {before : Nat} {p' q' : Parser}

/-- There is a complaint exactly if there is an error in front of the tokens alone. -/
theorem Bare.complains_iff (h : Bare scan before p q) (h' : Bare scan before p' q')
    (herrors : p.errors <+: p'.errors) (honto : q.Onto q') :
    p.Complains p' ↔ q'.errors ≠ q.errors := by
  rw [Parser.complains_iff herrors, h.complaints, h'.complaints]
  have hle := honto.errors.length_le
  constructor
  · intro hlt heq
    rw [heq] at hlt
    omega
  · intro hne
    have : q.errors.length ≠ q'.errors.length := fun heq =>
      hne (honto.errors.eq_of_length heq).symm
    omega

/-- Where terminals were passed in front of the tokens alone, tokens were that stand for them. -/
theorem Bare.passed (h : Bare scan before p q) (h' : Bare scan before p' q')
    (hleft : p'.left <:+ p.left) {ts : List Terminal} (hts : q.upcoming = ts ++ q'.upcoming) :
    ∃ tokens, p.left = tokens ++ p'.left ∧ tokens.map Token.terminal = ts := by
  obtain ⟨tokens, htokens⟩ := hleft
  refine ⟨tokens, htokens.symm, ?_⟩
  rw [h.faces.upcoming, h'.faces.upcoming, ← htokens, List.map_append] at hts
  exact List.append_cancel_right hts

end Parser

/-! ## Candour -/

/-- A step that gives no value has complained. One that gives a value without a complaint has passed
tokens that its rule allows for it. -/
structure Step.Candid {p : Parser} {α : Type} (s : Step p α) (rule : Rule α) : Prop where
  fails : s.value = none → p.Complains s.after
  derives : ∀ {a : α}, s.value = some a → ¬ p.Complains s.after →
    ∃ tokens, p.left = tokens ++ s.after.left ∧ rule (tokens.map Token.terminal) a

/-- What the outcome of asking for an item says: an item without a complaint is one of the grammar
and a semicolon behind it, and what closes a section is there unless there is a complaint. Otherwise
there is one. -/
def Next.Candid {p : Parser} (part : Section) : Next p → Prop
  | .item stmt q _ => ¬ p.Complains q → ∃ tokens semicolon,
      p.left = tokens ++ semicolon :: q.left ∧ semicolon.kind = .semicolon ∧
        IsItem part (tokens.map Token.terminal) stmt.unlined
  | .finished q _ => ¬ p.Complains q → ∃ tokens,
      p.left = tokens ++ q.left ∧ tokens.map Token.terminal = part.closing
  | .recovered q _ | .ended q _ => p.Complains q

section Candid

variable {scan : Scan} {before : Nat} {p q : Parser}

/-- What is read in front of the tokens alone shows what is read. -/
theorem Step.Sound.candid {α β : Type} (rule : Rule β) {view : α → β} {s : Step p α} {t : Step q α}
    (h : t.Sound fun ts a => rule ts (view a)) (hbare : Parser.Bare scan before p q)
    (hagree : s.Agree (Parser.Bare scan before) view t) (hleads : p.Leads s.after) :
    s.Candid fun ts a => rule ts (view a) where
  fails hnone := by
    have hvalue := hagree.value
    rw [hnone, Option.map_none] at hvalue
    rw [hbare.complains_iff hagree.after hleads.errors h.onto]
    exact h.fails (Option.map_eq_none_iff.mp hvalue.symm)
  derives {a} hsome hquiet := by
    have hvalue := hagree.value
    rw [hsome, Option.map_some] at hvalue
    obtain ⟨b, hb, hview⟩ := Option.map_eq_some_iff.mp hvalue.symm
    rw [hbare.complains_iff hagree.after hleads.errors h.onto, Classical.not_not] at hquiet
    obtain ⟨ts, hts, hrule⟩ := h.derives hb hquiet hbare.faces.of
    obtain ⟨tokens, htokens, rfl⟩ := hbare.passed hagree.after hleads.left hts
    exact ⟨tokens, htokens, hview ▸ hrule⟩

/-- What is asked for in front of the tokens alone shows what is asked for. -/
theorem Next.Sound.candid {part : Section} {s : Next p} {t : Next q} (h : t.Sound part)
    (hbare : Parser.Bare scan before p q)
    (hagree : Next.Agree (Parser.Bare scan before) Stmt.unlined s t) (hleads : p.Leads s.after) :
    s.Candid part := by
  cases s with
  | item stmt p' lt =>
    cases t with
    | item stmt' q' lt' =>
      obtain ⟨hstmt, hbare'⟩ := hagree
      obtain ⟨honto, hread⟩ := h
      intro hquiet
      rw [hbare.complains_iff hbare' hleads.errors honto, Classical.not_not] at hquiet
      obtain ⟨ts, hts, hitem⟩ := hread hquiet hbare.faces.of
      rw [← List.singleton_append, ← List.append_assoc] at hts
      obtain ⟨passed, hpassed, hmap⟩ := hbare.passed hbare' hleads.left hts
      obtain ⟨tokens, last, rfl, rfl, hlast⟩ := List.map_eq_append_iff.mp hmap
      obtain ⟨semicolon, rfl, hsemicolon⟩ := List.map_eq_singleton_iff.mp hlast
      refine ⟨tokens, semicolon, by rw [hpassed, List.append_assoc]; rfl, ?_, hstmt ▸ hitem⟩
      rw [← Token.terminal_kind, hsemicolon]
      rfl
    | _ => exact absurd hagree id
  | recovered p' lt =>
    cases t with
    | recovered q' lt' => exact (hbare.complains_iff hagree hleads.errors h.1).mpr h.2
    | _ => exact absurd hagree id
  | finished p' le =>
    cases t with
    | finished q' le' =>
      intro hquiet
      rw [hbare.complains_iff hagree hleads.errors h.1, Classical.not_not] at hquiet
      exact hbare.passed hagree hleads.left (h.2 hquiet hbare.faces.of)
    | _ => exact absurd hagree id
  | ended p' le =>
    cases t with
    | ended q' le' => exact (hbare.complains_iff hagree hleads.errors h.1).mpr h.2
    | _ => exact absurd hagree id

theorem header_candid (h : p.Ready) :
    p.header.Candid fun ts x => ts = [.sym .kwProgram, .name x, .sym .kwIs] := by
  obtain ⟨scan, q, hbare⟩ := h.bare
  exact Step.Sound.candid (fun ts x => ts = [.sym .kwProgram, .name x, .sym .kwIs])
    (header_sound q) hbare ((Parser.bare_twins _ _).header hbare)
    ((Parser.leads_kept p).header h.leads)

theorem expr_candid (h : p.Ready) : p.expr.Candid fun ts e => IsExpr ts e.unlined := by
  obtain ⟨scan, q, hbare⟩ := h.bare
  exact (expr_sound q).candid IsExpr hbare ((Parser.bare_twins _ _).expr hbare)
    ((Parser.leads_kept p).expr h.leads)

theorem nextItem_candid (h : p.Ready) (part : Section) : (p.nextItem part).Candid part := by
  obtain ⟨scan, q, hbare⟩ := h.bare
  exact (nextItem_sound part q).candid hbare ((Parser.bare_twins _ _).nextItem part hbare)
    ((Parser.leads_kept p).nextItem h.leads part)

end Candid

/-- **No failure is silent**, whatever the text is and whatever the parser was asked for before.
Where no heading or no expression is given, where an item is skipped and where the text is over
before the section is, an error was recorded besides the stretches that are no tokens. Where an item
is given without such an error, the tokens that were passed are an item of the grammar and a
semicolon. Likewise for a heading, an expression and the end of a section. -/
theorem session_fails_aloud (tabWidth : Nat) (source : String) (actions : List Parser.Action) :
    let p := (Session.run tabWidth source actions).parser
    (p.header.Candid fun ts x => ts = [.sym .kwProgram, .name x, .sym .kwIs]) ∧
      (p.expr.Candid fun ts e => IsExpr ts e.unlined) ∧
      ∀ part, (p.nextItem part).Candid part := by
  intro p
  have hready : p.Ready := Session.run_ready tabWidth source actions
  exact ⟨header_candid hready, expr_candid hready, nextItem_candid hready⟩

end ProcLang
