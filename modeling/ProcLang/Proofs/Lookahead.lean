import ProcLang.Proofs.Requests
import ProcLang.Proofs.Sessions

/-!
# Looking ahead

A parser knows the current token and the next one. It asks the scanner for one token after another
and for none twice: `Parser.Window` says of the tokens that were asked for which of them the parser
sees, and that the stretches among them that are no tokens are the ones that were recorded as
errors. Pulling a token keeps this (`pull_gives`) and nothing else touches it, so it holds
throughout a session (`session_sees_errors_once`).
-/

namespace ProcLang

/-! ## What the scanner gives -/

namespace Cursor

/-- The cursor gives tokens one after another, and stands behind them then. -/
inductive Gives (tabWidth : Nat) : Cursor → List Token → Cursor → Prop
  | nil {k : Cursor} : Gives tabWidth k [] k
  | cons {k between after : Cursor} {t : Token} {ts : List Token} :
      k.next tabWidth = .ok (t, between) → Gives tabWidth between ts after →
      Gives tabWidth k (t :: ts) after

/-- A request finds that a count does not fit. -/
def Fails (tabWidth : Nat) (k : Cursor) : Prop :=
  ∃ seen : List Token, k.nextTokens tabWidth (seen.length + 1) = seen.map some ++ [none]

variable {tabWidth : Nat} {k between after left : Cursor} {ts us : List Token}

theorem Gives.append (h : k.Gives tabWidth ts between) (h' : between.Gives tabWidth us after) :
    k.Gives tabWidth (ts ++ us) after := by
  induction h with
  | nil => exact h'
  | cons hnext _ ih => exact .cons hnext (ih h')

/-- The tokens are what the first requests give. -/
theorem Gives.requests (h : k.Gives tabWidth ts after) (more : Nat) :
    k.nextTokens tabWidth (ts.length + more) = ts.map some ++ after.nextTokens tabWidth more := by
  induction h with
  | nil => rw [List.length_nil, Nat.zero_add, List.map_nil, List.nil_append]
  | cons hnext _ ih =>
    rw [List.length_cons, Nat.add_right_comm, nextTokens_of_next hnext, ih, List.map_cons,
      List.cons_append]

theorem Gives.fails (h : k.Gives tabWidth ts between)
    (hnext : between.next tabWidth = .error left) :
    k.Fails tabWidth := by
  refine ⟨ts, ?_⟩
  rw [h.requests, nextTokens_of_error hnext]
  rfl

/-- At the end of a text the cursor stays where it is. -/
theorem next_of_nil {t : Token} (hnil : k.ahead = []) (h : k.next tabWidth = .ok (t, after)) :
    after = k := by
  obtain ⟨-, htext, -, -, ⟨hahead, hoffset, hcaret⟩, -⟩ := next_reads h
  rw [hnil] at htext hahead
  rw [show t.text = [] from htext] at hahead hoffset hcaret
  obtain ⟨ahead, offset, caret⟩ := k
  obtain ⟨ahead', offset', caret'⟩ := after
  cases hcaret
  cases hnil
  cases hahead
  cases hoffset
  rfl

/-- Where a count does not fit there are no more tokens, and no end. -/
theorem scan_of_fault (h : k.next tabWidth = .error left) : k.scan tabWidth = ⟨[], none⟩ := by
  by_cases hnil : k.ahead = []
  · have hmark : k.caret.mark? = none := by
      unfold next at h
      split at h
      · assumption
      · rw [hnil] at h
        cases h
    rw [scan, dif_pos hnil, hmark]
    rfl
  · exact scan_of_error hnil h

end Cursor

/-! ## Errors that are no tokens -/

/-- The errors for those among tokens that are none. -/
def lexicalErrors (tokens : List Token) : List SyntaxError :=
  (tokens.filter (·.kind.isError)).map fun t => ⟨t.position, .lexical t.kind⟩

theorem lexicalErrors_append (ts us : List Token) :
    lexicalErrors (ts ++ us) = lexicalErrors ts ++ lexicalErrors us := by
  rw [lexicalErrors, List.filter_append, List.map_append]
  rfl

theorem lexicalErrors_of_isTaken {t : Token} (h : t.kind.isTaken = true) :
    lexicalErrors [t] = [] := by
  have herror : t.kind.isError = false := by
    simp only [TokenKind.isTaken, Bool.and_eq_true, Bool.not_eq_true'] at h
    exact h.2
  simp [lexicalErrors, herror]

theorem filter_lexicalErrors (ts : List Token) :
    (lexicalErrors ts).filter (·.cause.isLexical) = lexicalErrors ts := by
  refine List.filter_eq_self.mpr fun e he => ?_
  obtain ⟨t, -, rfl⟩ := List.mem_map.mp he
  rfl

/-- Behind other tokens, of a token and what is passed over after it only the token is taken. -/
theorem filter_isTaken_append {ts gap : List Token} {t : Token} (ht : t.kind.isTaken = true)
    (hgap : ∀ u ∈ gap, u.kind.isTaken = false) :
    (ts ++ [t] ++ gap).filter (·.kind.isTaken) = ts.filter (·.kind.isTaken) ++ [t] := by
  have hpassed : gap.filter (·.kind.isTaken) = [] :=
    List.filter_eq_nil_iff.mpr fun u hu => by simp [hgap u hu]
  rw [List.filter_append, List.filter_append, hpassed, List.append_nil]
  simp [ht]

/-! ## Pulling a token -/

/-- A token was pulled from what a cursor gives: the tokens of the gap were passed over, and the
cursor stands behind it. -/
structure Pulled.Comes (pulled : Pulled) (tabWidth : Nat) (k : Cursor) (gap : List Token)
    (after : Cursor) : Prop where
  gives : k.Gives tabWidth (gap ++ [pulled.token]) after
  passed : ∀ t ∈ gap, t.kind.isTaken = false
  errors : pulled.errors = lexicalErrors gap
  ahead : (after.scan tabWidth).tokens = pulled.ahead
  ending : (after.scan tabWidth).ending = (k.scan tabWidth).ending

/-- A token was pulled from what a cursor gives, or a count does not fit before it. -/
def Pulled.From (pulled : Pulled) (tabWidth : Nat) (k : Cursor) : Prop :=
  (pulled.cutShort = false ∧ ∃ gap after, pulled.Comes tabWidth k gap after) ∨
    (pulled.cutShort = true ∧ ∃ gap between left, k.Gives tabWidth gap between ∧
      between.next tabWidth = .error left)

/-- Trivia and errors are passed over alike, but for what is recorded. -/
theorem Pulled.From.cons {tabWidth : Nat} {pulled : Pulled} {k between : Cursor} {t : Token}
    (h : pulled.From tabWidth between) (hne : k.ahead ≠ [])
    (hnext : k.next tabWidth = .ok (t, between)) (ht : t.kind.isTaken = false)
    {errors : List SyntaxError} (herrors : errors = lexicalErrors [t] ++ pulled.errors) :
    { pulled with errors }.From tabWidth k := by
  rcases h with ⟨hcut, gap, after, hcomes⟩ | ⟨hcut, gap, last, left, hgives, hfault⟩
  · refine Or.inl ⟨hcut, t :: gap, after, .cons hnext hcomes.gives, ?_, ?_, hcomes.ahead, ?_⟩
    · exact List.forall_mem_cons.mpr ⟨ht, hcomes.passed⟩
    · dsimp only
      rw [herrors, hcomes.errors, ← lexicalErrors_append]
      rfl
    · rw [hcomes.ending, Cursor.scan_of_next hne hnext]
  · exact Or.inr ⟨hcut, t :: gap, last, left, .cons hnext hgives, hfault⟩

/-- **A token is pulled from what the scanner gives next.** -/
theorem pull_gives (tabWidth : Nat) (k : Cursor) :
    (Parser.pull (k.scan tabWidth).ending (k.scan tabWidth).tokens).From tabWidth k := by
  cases hnext : k.next tabWidth with
  | error left =>
    rw [Cursor.scan_of_fault hnext]
    exact Or.inr ⟨rfl, [], k, left, .nil, hnext⟩
  | ok r =>
    obtain ⟨t, between⟩ := r
    by_cases hne : k.ahead = []
    · obtain ⟨hscan, htoken⟩ := Cursor.scan_nil hne hnext
      obtain rfl := Cursor.next_of_nil hne hnext
      rw [hscan]
      refine Or.inl ⟨rfl, [], between, ?_, by simp, rfl, by rw [hscan]; rfl, rfl⟩
      exact .cons (htoken ▸ hnext) .nil
    · have := Cursor.next_length_lt hne hnext
      have hscan := Cursor.scan_of_next hne hnext
      have hrest := pull_gives tabWidth between
      rw [hscan]
      dsimp only
      rw [Parser.pull]
      split
      · rename_i htrivia
        refine hrest.cons hne hnext (by simp [TokenKind.isTaken, htrivia]) ?_
        simp [lexicalErrors, TokenKind.isError_of_isTrivia htrivia]
      · split
        · rename_i herror
          refine hrest.cons hne hnext (by simp [TokenKind.isTaken, herror]) ?_
          simp [lexicalErrors, herror]
        · refine Or.inl ⟨rfl, [], between, .cons hnext .nil, by simp, rfl, rfl, ?_⟩
          rw [hscan]
termination_by k.ahead.length

/-! ## What a parser sees -/

/-- Where a parser stands among the tokens that were asked for: the tokens `seen` and the next one.
-/
structure Parser.Window (tabWidth : Nat) (source : String) (recorded : List SyntaxError)
    (p : Parser) (seen : List Token) (k : Cursor) : Prop where
  gives : (Cursor.ofString source).Gives tabWidth (seen ++ [p.next]) k
  rest : k.scan tabWidth = ⟨p.ahead, p.ending⟩
  current : ∃ before, seen.filter (·.kind.isTaken) = before ++ [p.current]
  next : p.next.kind.isTaken = true
  errors : recorded.filter (·.cause.isLexical) = lexicalErrors seen

/-- A count did not fit, or the parser has its window. -/
def Parser.Sees (tabWidth : Nat) (source : String) (taken : List SyntaxError) (p : Parser) : Prop :=
  (p.cutShort = true ∧ (Cursor.ofString source).Fails tabWidth) ∨
    (p.cutShort = false ∧ ∃ seen k, p.Window tabWidth source (taken ++ p.errors) seen k)

section Window

variable {tabWidth : Nat} {source : String}

/-- **Moving on** moves the window by one token. -/
theorem Parser.Sees.advance {taken : List SyntaxError} {p : Parser}
    (h : p.Sees tabWidth source taken) : p.advance.Sees tabWidth source taken := by
  by_cases hend : p.kind = .eof
  · rwa [Parser.advance, if_pos hend]
  · rw [Parser.advance, if_neg hend]
    rcases h with ⟨hcut, hfails⟩ | ⟨hcut, seen, k, hwindow⟩
    · exact Or.inl ⟨by dsimp only; rw [hcut, Bool.true_or], hfails⟩
    · have hpull := pull_gives tabWidth k
      rw [hwindow.rest] at hpull
      rcases hpull with ⟨huncut, gap, after, hcomes⟩ | ⟨hcut', gap, between, left, hgives, hfault⟩
      · refine Or.inr ⟨by dsimp only; rw [hcut, huncut, Bool.or_false], seen ++ [p.next] ++ gap,
          after, ?_⟩
        obtain ⟨before, hbefore⟩ := hwindow.current
        refine ⟨?_, ?_, ⟨before ++ [p.current], ?_⟩, pull_isTaken _ _, ?_⟩
        · rw [List.append_assoc _ gap]
          exact hwindow.gives.append hcomes.gives
        · have hending := hcomes.ending
          rw [hwindow.rest] at hending
          exact congrArg₂ Scan.mk hcomes.ahead hending
        · rw [filter_isTaken_append hwindow.next hcomes.passed, hbefore]
        · have herrors := hwindow.errors
          rw [List.filter_append] at herrors
          dsimp only
          rw [List.filter_append, List.filter_append, ← List.append_assoc, herrors, hcomes.errors,
            filter_lexicalErrors, lexicalErrors_append, lexicalErrors_append,
            lexicalErrors_of_isTaken hwindow.next, List.append_nil]
      · refine Or.inl ⟨by dsimp only; rw [hcut', Bool.or_true], ?_⟩
        exact (hwindow.gives.append hgives).fails hfault

theorem Parser.sees_kept (taken : List SyntaxError) : Kept (Sees tabWidth source taken) where
  advance h := h.advance
  report {p} position cause hcause h := by
    rcases h with ⟨hcut, hfails⟩ | ⟨hcut, seen, k, hwindow⟩
    · exact Or.inl ⟨hcut, hfails⟩
    · refine Or.inr ⟨hcut, seen, k, { hwindow with errors := ?_ }⟩
      rw [← hwindow.errors, Parser.reportAt, ← List.append_assoc, List.filter_append _ [_],
        List.filter_cons_of_neg (by simp [hcause]), List.filter_nil, List.append_nil]

/-- At the start the window is on the first two tokens. -/
theorem Parser.ofString_sees : (Parser.ofString tabWidth source).Sees tabWidth source [] := by
  have hcurrent : (Parser.ofString tabWidth source).current.kind.isTaken = true := pull_isTaken _ _
  rcases pull_gives tabWidth (Cursor.ofString source) with ⟨huncut, gap, between, hcomes⟩ |
    ⟨hcut, gap, between, left, hgives, hfault⟩
  · have hsecond := pull_gives tabWidth between
    rw [hcomes.ahead, hcomes.ending] at hsecond
    rcases hsecond with ⟨huncut', gap', after, hcomes'⟩ | ⟨hcut, gap', last, left, hgives, hfault⟩
    · refine Or.inr ⟨?_, gap ++ [(Parser.ofString tabWidth source).current] ++ gap', after,
        ?_, ?_, ⟨[], ?_⟩, pull_isTaken _ _, ?_⟩
      · exact Bool.or_eq_false_iff.mpr ⟨huncut, huncut'⟩
      · rw [List.append_assoc _ gap']
        exact hcomes.gives.append hcomes'.gives
      · exact congrArg₂ Scan.mk hcomes'.ahead (hcomes'.ending.trans hcomes.ending)
      · rw [filter_isTaken_append hcurrent hcomes'.passed]
        exact congrArg (· ++ _)
          (List.filter_eq_nil_iff.mpr fun t ht => by simp [hcomes.passed t ht])
      · rw [lexicalErrors_append, lexicalErrors_append, lexicalErrors_of_isTaken hcurrent,
          List.append_nil, ← filter_lexicalErrors gap, ← filter_lexicalErrors gap',
          ← List.filter_append, ← hcomes.errors, ← hcomes'.errors]
        rfl
    · refine Or.inl ⟨Bool.or_eq_true_iff.mpr (Or.inr hcut), ?_⟩
      exact (hcomes.gives.append hgives).fails hfault
  · exact Or.inl ⟨Bool.or_eq_true_iff.mpr (Or.inl hcut), hgives.fails hfault⟩

end Window

/-- **Errors that are no tokens are recorded once.** Whatever a parser was asked for, unless the
scanner found that a count does not fit: the tokens that the scanner was asked for are those in
front of the next token and the next token itself. Without trivia and errors, the last of those in
front is the current token. The errors recorded so far that are no tokens, taken out or not, are
those in front of the next token, in order and each with its kind and position. -/
theorem session_sees_errors_once (tabWidth : Nat) (source : String) (actions : List Parser.Action) :
    let session := Session.run tabWidth source actions
    let p := session.parser
    (p.cutShort = true ∧ (Cursor.ofString source).Fails tabWidth) ∨
      (p.cutShort = false ∧ ∃ seen before,
        (Cursor.ofString source).nextTokens tabWidth (seen.length + 1) =
          (seen ++ [p.next]).map some ∧
        seen.filter (·.kind.isTaken) = before ++ [p.current] ∧ p.next.kind.isTaken = true ∧
        (session.taken ++ p.errors).filter (·.cause.isLexical) = lexicalErrors seen) := by
  intro session p
  have hsees : p.Sees tabWidth source session.taken := by
    refine Session.run_kept (fun taken => Parser.sees_kept taken) ?_ Parser.ofString_sees actions
    rintro taken q (h | ⟨hcut, seen, k, hwindow⟩)
    · exact Or.inl h
    · refine Or.inr ⟨hcut, seen, k, { hwindow with errors := ?_ }⟩
      rw [← hwindow.errors, Parser.clearErrors, List.append_nil]
  rcases hsees with h | ⟨hcut, seen, k, hwindow⟩
  · exact Or.inl h
  · obtain ⟨before, hbefore⟩ := hwindow.current
    refine Or.inr ⟨hcut, seen, before, ?_, hbefore, hwindow.next, hwindow.errors⟩
    have hrequests := hwindow.gives.requests 0
    rw [List.length_append] at hrequests
    exact hrequests.trans (List.append_nil _)

end ProcLang
