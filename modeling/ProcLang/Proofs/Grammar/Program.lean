import ProcLang.Proofs.Grammar.Complete
import ProcLang.Proofs.Grammar.Sound
import ProcLang.Proofs.Twins.Items

/-!
# The texts that are programs

A text is read as a program without an error exactly if its tokens are a program of the grammar
(`parse_iff_isProgram`). The halves are `program_sound` and `program_complete`. A character NUL
outside strings and comments would be taken for the end of the text, so there must be none.
-/

namespace ProcLang

open Grammar

/-! ## End tokens -/

theorem lookup_ne_eof {table : List (String × TokenKind)} (h : .eof ∉ table.map Prod.snd)
    {text : String} {kind : TokenKind} (hkind : table.lookup text = some kind) : kind ≠ .eof := by
  rintro rfl
  obtain ⟨front, back, rfl, -⟩ := List.lookup_eq_some_iff.mp hkind
  simp at h

namespace Lexeme

theorem delimited_kind_ne {closed unclosed kind : TokenKind} (h : closed ≠ kind ∧ unclosed ≠ kind)
    (opening cs : List Char) (split : Option (List Char × List Char)) :
    (delimited closed unclosed opening cs split).kind ≠ kind := by
  cases split with
  | none => exact h.2
  | some _ => exact h.1

theorem word_kind_ne_eof (c : Char) (cs : List Char) : (word c cs).kind ≠ .eof := by
  unfold word
  cases hword : keyword? (String.ofList (c :: cs.takeWhile isWordChar)) with
  | none =>
    simp only [hword, Option.getD_none]
    decide
  | some kind =>
    simp only [hword, Option.getD_some]
    exact lookup_ne_eof (by decide) hword

theorem number_kind_ne_eof (c : Char) (cs : List Char) : (number c cs).kind ≠ .eof := by
  unfold number
  split
  · split <;> simp
  · simp

theorem single?_eof {c : Char} (h : single? c = some .eof) : c = '\x00' := by
  unfold single? at h
  split at h <;> first | rfl | cases h

theorem ofChar_eof {c : Char} {cs : List Char} (h : (ofChar c cs).kind = .eof) :
    (ofChar c cs).text = ['\x00'] := by
  unfold ofChar at h ⊢
  split at h
  · rename_i kind hkind
    dsimp only at h
    subst h
    dsimp only
    rw [single?_eof hkind]
  · split at h
    · exact absurd h (delimited_kind_ne (by decide) _ _ _)
    · split at h
      · exact absurd h (word_kind_ne_eof c cs)
      · split at h
        · exact absurd h (number_kind_ne_eof c cs)
        · split at h <;> cases h

/-- Only a character NUL is an end token among others. -/
theorem first_eof {cs : List Char} (hne : cs ≠ []) (h : (first cs).kind = .eof) :
    (first cs).text = ['\x00'] := by
  unfold first at h ⊢
  split at h
  · exact absurd rfl hne
  · cases h
  · exact absurd h (delimited_kind_ne (by decide) _ _ _)
  · split at h
    · rename_i kind hkind
      exact absurd h (lookup_ne_eof (by decide) hkind)
    · exact ofChar_eof h
  · exact ofChar_eof h

end Lexeme

theorem Cursor.next_token {tabWidth : Nat} {k after : Cursor} {token : Token}
    (h : k.next tabWidth = .ok (token, after)) :
    token.kind = (Lexeme.first k.ahead).kind ∧ token.text = (Lexeme.first k.ahead).text := by
  unfold next at h
  split at h
  · cases h
  · dsimp only at h
    split at h <;> cases h
    exact ⟨rfl, rfl⟩

theorem Cursor.scan_eof (tabWidth : Nat) : ∀ (k : Cursor) {t : Token},
    t ∈ (k.scan tabWidth).tokens → t.kind = .eof → t.text = ['\x00']
  | k, t, ht, heof => by
    rw [scan] at ht
    split at ht
    · cases ht
    · rename_i hne
      split at ht
      · cases ht
      · rename_i token after hnext
        obtain ⟨hkind, htext⟩ := next_token hnext
        have : after.ahead.length < k.ahead.length := by
          rw [next_ahead hnext]
          exact Lexeme.first_rest_length_lt hne
        rcases List.mem_cons.mp ht with rfl | ht
        · rw [htext]
          exact Lexeme.first_eof hne (hkind ▸ heof)
        · exact scan_eof tabWidth after ht heof
termination_by k => k.ahead.length

/-- The characters NUL of a text stand in strings and comments. -/
def Scan.NulsInside (s : Scan) : Prop :=
  ∀ t ∈ s.tokens, '\x00' ∈ t.text →
    t.kind ∈ [.string, .unclosedString, .lineComment, .blockComment, .unclosedComment]

instance (s : Scan) : Decidable s.NulsInside :=
  inferInstanceAs (Decidable (∀ t ∈ s.tokens, _))

/-- A text with no other characters NUL has its end token at the end only. -/
theorem Scan.NulsInside.kind_ne_eof {tabWidth : Nat} {source : String}
    (h : (Scan.ofString tabWidth source).NulsInside) :
    ∀ t ∈ (Scan.ofString tabWidth source).tokens, t.kind ≠ .eof := by
  intro t ht heof
  have htext := Cursor.scan_eof tabWidth _ ht heof
  have hkind := h t ht (by rw [htext]; exact List.mem_cons_self)
  rw [heof] at hkind
  exact absurd hkind (by decide)

/-- Without errors and end tokens, the grammar sees all tokens but blanks and comments. -/
theorem terminals_of_clean {tokens : List Token} (hend : ∀ t ∈ tokens, t.kind ≠ .eof)
    (hclean : ∀ t ∈ tokens, t.kind.isError = false) :
    terminals tokens = (tokens.filter (!·.kind.isTrivia)).map Token.terminal := by
  unfold terminals
  congr 1
  refine List.filter_congr fun t ht => ?_
  simp [TokenKind.isSeen, hclean t ht, hend t ht]

/-! ## What is read is a program -/

/-- What closes a section. -/
def Section.closing : Section → List Terminal
  | .declarations => [.sym .kwBegin]
  | .statements => [.sym .kwEnd, .sym .kwProgram, .sym .period]

theorem header_sound (p : Parser) :
    p.header.Sound fun ts x => ts = [.sym .kwProgram, .name x, .sym .kwIs] := by
  refine sound_expect p rfl fun q _ _ => sound_expectName q fun r _ name => ?_
  exact sound_expect r rfl fun s _ _ => sound_done s rfl

theorem trailer_sound (p : Parser) :
    p.trailer.Sound fun ts _ => ts = Section.closing .statements := by
  refine sound_expect p rfl fun q _ _ => sound_expect q rfl fun r _ _ => ?_
  refine sound_expect r rfl fun s _ _ => ?_
  split
  · exact sound_done s rfl
  · exact sound_failAt _ _ _

/-- What the outcome of asking for an item says about the terminals that were passed. -/
def Next.Sound {p : Parser} (part : Section) : Next p → Prop
  | .item stmt q _ => p.Onto q ∧ ∀ {scan : Scan}, q.errors = p.errors → p.Of scan →
      ∃ ts, p.upcoming = ts ++ .sym .semicolon :: q.upcoming ∧ IsItem part ts stmt.unlined
  | .finished q _ => p.Onto q ∧ ∀ {scan : Scan}, q.errors = p.errors → p.Of scan →
      p.upcoming = part.closing ++ q.upcoming
  | .recovered q _ | .ended q _ => p.Onto q ∧ q.errors ≠ p.errors

theorem prematureEnd_sound (p : Parser) (part : Section) : p.prematureEnd.Sound part :=
  ⟨p.reportAt_onto _ _, p.reportAt_errors_ne _ _⟩

theorem terminatedItem_sound (part : Section) (p : Parser) :
    (p.terminatedItem part).Sound part := by
  have hitem := (item_sound part p).item
  unfold Parser.terminatedItem
  cases h : (p.item part).item with
  | parsed stmt q lt | skipped q lt | ended q le =>
    rw [h] at hitem
    exact hitem

theorem nextItem_sound (part : Section) (p : Parser) : (p.nextItem part).Sound part := by
  cases part with
  | declarations =>
    unfold Parser.nextItem
    dsimp only
    split
    · rename_i hkind
      refine ⟨p.advance_onto, fun _ hp => ?_⟩
      rw [hp.upcoming_advance (hkind ▸ by decide), Token.terminal_of_fixed hkind rfl]
      rfl
    · split
      · exact prematureEnd_sound p _
      · exact terminatedItem_sound _ p
  | statements =>
    unfold Parser.nextItem
    dsimp only
    split
    · have htrailer := trailer_sound p
      refine ⟨htrailer.onto, fun hsame hp => ?_⟩
      cases hvalue : p.trailer.value with
      | none => exact absurd hsame (htrailer.fails hvalue)
      | some _ =>
        obtain ⟨ts, hts, rfl⟩ := htrailer.derives hvalue hsame hp
        exact hts
    · split
      · exact prematureEnd_sound p _
      · exact terminatedItem_sound _ p

theorem items_sound (part : Section) : ∀ p : Parser, (p.items part).Sound fun ts stmts =>
    ∃ us, ts = us ++ part.closing ∧ Repeated (IsItem part) us (stmts.map Stmt.unlined)
  | p => by
    have hnext := nextItem_sound part p
    rw [Parser.items]
    cases h : p.nextItem part with
    | item stmt q lt =>
      rw [h] at hnext
      obtain ⟨honto, hread⟩ := hnext
      refine Step.Sound.behindItem honto hread ((items_sound part q).map ?_) _
      rintro _ stmts ⟨us, rfl, hus⟩ ts hts
      exact ⟨ts ++ .sym .semicolon :: us, by simp, .cons hts hus⟩
    | recovered q lt =>
      rw [h] at hnext
      exact Step.Sound.failed hnext.1 hnext.2 (items_sound part q) _
    | finished q le =>
      rw [h] at hnext
      refine Step.Sound.within (· = part.closing) hnext.1
        (fun hsame hp => ⟨_, hnext.2 hsame hp, rfl⟩) (sound_done q ?_) _
      rintro _ rfl
      exact ⟨[], by simp, .nil⟩
    | ended q le =>
      rw [h] at hnext
      exact ⟨hnext.1, fun _ => hnext.2, fun hvalue => by cases hvalue⟩
termination_by p => p.remaining

/-- **Programs** are read as the grammar has them. -/
theorem program_sound (p : Parser) :
    p.program.Sound fun ts program => IsProgram ts program.unlined := by
  refine (header_sound p).andThen fun q _ name => ?_
  refine (items_sound .declarations q).andThen fun r _ declarations => ?_
  refine (items_sound .statements r).map ?_
  rintro _ statements ⟨us, rfl, hus⟩ _ ⟨ts, rfl, hts⟩ _ rfl
  rw [Program.unlined, blockUnlined_eq_map, blockUnlined_eq_map]
  have hprogram : IsProgram _ _ := .intro (x := name) hts hus
  simpa only [Section.closing, List.cons_append, List.append_assoc, List.nil_append] using hprogram

/-! ## Nothing stands behind it -/

variable {p : Parser}

theorem expect_value {p : Parser} {α : Type} {kind : TokenKind} {f : LaterWith p Token α} {a : α}
    (h : (p.expect kind f).value = some a) :
    p.kind = kind ∧ ∃ lt, (f p.advance lt p.current).value = some a ∧
      (p.expect kind f).after = (f p.advance lt p.current).after := by
  unfold Parser.expect at h ⊢
  split at h
  · rename_i hkind
    rw [dif_pos hkind]
    exact ⟨hkind.1, _, h, rfl⟩
  · cases h

/-- What the last three tokens were. -/
theorem trailer_value {p : Parser} (h : p.trailer.value = some ()) :
    p.kind = .kwEnd ∧ p.advance.kind = .kwProgram ∧ p.advance.advance.kind = .period ∧
      p.advance.advance.advance.kind = .eof ∧
      p.trailer.after = p.advance.advance.advance := by
  obtain ⟨hend, _, h, hafter⟩ := expect_value h
  obtain ⟨hprogram, _, h, hafter'⟩ := expect_value h
  obtain ⟨hperiod, _, h, hafter''⟩ := expect_value h
  split at h
  · rename_i heof
    rw [if_pos heof] at hafter''
    exact ⟨hend, hprogram, hperiod, heof, hafter.trans (hafter'.trans hafter'')⟩
  · cases h

/-- Statements that are read without an error end with the last tokens of a program. -/
theorem items_trailer {I : Parser → Prop} (kept : Parser.Kept I) (p : Parser) (hp : I p)
    {stmts : List Stmt} (hvalue : (p.items .statements).value = some stmts)
    (herrors : (p.items .statements).after.errors = []) :
    ∃ q : Parser, I q ∧ q.trailer.value = some () ∧
      (p.items .statements).after = q.trailer.after := by
  have hnext := kept.twins.nextItem .statements ⟨rfl, hp⟩
  have hitems := Parser.items.eq_1 .statements p
  cases h : p.nextItem .statements with
  | item stmt q lt =>
    rw [h] at hnext hitems
    rw [hitems] at hvalue herrors ⊢
    obtain ⟨rest, hrest, -⟩ := Option.map_eq_some_iff.mp hvalue
    exact items_trailer kept q hnext.2.2 hrest herrors
  | recovered q lt =>
    rw [h] at hnext hitems
    rw [hitems] at hvalue herrors ⊢
    exact items_trailer kept q hnext.2 hvalue herrors
  | ended q le =>
    rw [h] at hitems
    rw [hitems] at hvalue
    cases hvalue
  | finished q le =>
    rw [h] at hitems
    rw [hitems] at herrors ⊢
    unfold Parser.nextItem at h
    dsimp only at h
    split at h
    · -- The value of the trailer is dropped; that it had one follows from the missing error.
      cases h
      have htrailer := trailer_sound p
      have hnone : p.errors = [] := by
        have hle := htrailer.onto.errors
        rw [show p.trailer.after.errors = [] from herrors] at hle
        exact List.prefix_nil.mp hle
      refine ⟨p, hp, ?_, rfl⟩
      cases hv : p.trailer.value with
      | none => exact absurd (herrors.trans hnone.symm) (htrailer.fails hv)
      | some u => rfl
    · split at h
      · cases h
      · unfold Parser.terminatedItem at h
        split at h <;> cases h
termination_by p.remaining

/-- So does a program. -/
theorem program_trailer {I : Parser → Prop} (kept : Parser.Kept I) (hp : I p) {program : Program}
    (hvalue : p.program.value = some program) (herrors : p.program.after.errors = []) :
    ∃ q : Parser, I q ∧ q.trailer.value = some () ∧ p.program.after = q.trailer.after := by
  have hheader := (kept.twins.header ⟨rfl, hp⟩).after.2
  unfold Parser.program at hvalue herrors ⊢
  cases hname : p.header.value with
  | none =>
    rw [Step.andThen_of_none hname] at hvalue
    cases hvalue
  | some name =>
    rw [Step.andThen_of_some hname] at hvalue herrors ⊢
    dsimp only [Step.within] at hvalue herrors ⊢
    have hdeclarations := (kept.twins.items .declarations ⟨rfl, hheader⟩).after.2
    cases hitems : (p.header.after.items .declarations).value with
    | none =>
      rw [Step.andThen_of_none hitems] at hvalue
      cases hvalue
    | some declarations =>
      rw [Step.andThen_of_some hitems] at hvalue herrors ⊢
      dsimp only [Step.within, Step.map] at hvalue herrors ⊢
      obtain ⟨statements, hstatements, -⟩ := Option.map_eq_some_iff.mp hvalue
      exact items_trailer kept _ hdeclarations hstatements herrors

/-! ## A program is read -/

section Complete

variable {scan : Scan}

theorem trailer_reads (hp : p.Faces scan (Section.closing .statements)) :
    p.trailer.Reads scan (fun _ => True) [] := by
  refine Parser.Faces.expect hp fun q _ _ hq => Parser.Faces.expect hq fun r _ _ hr => ?_
  refine Parser.Faces.expect hr fun s _ _ hs => ?_
  rw [if_pos (show s.kind = .eof from hs.kind_eq)]
  exact reads_done hs trivial

theorem nextItem_reads {part : Section} {ts rest : List Terminal} {stmt : Stmt}
    (hp : p.Faces scan (ts ++ .sym .semicolon :: rest)) (hstmt : IsItem part ts stmt) :
    ∃ read q lt, p.nextItem part = .item read q lt ∧ read.unlined = stmt ∧ q.Faces scan rest ∧
      q.errors = p.errors := by
  have hkind : p.kind ∈ statementKinds := hp.kind_eq ▸ item_starts part hstmt _
  have hne : ∀ kind, kind ∉ statementKinds → p.kind ≠ kind := fun kind hnot heq =>
    hnot (heq ▸ hkind)
  obtain ⟨read, q, lt, hparsed, hread, hq, herrors⟩ := (item_complete part p hp hstmt rfl).item
  refine ⟨read, q, lt, ?_, hread, hq, herrors⟩
  unfold Parser.nextItem Parser.terminatedItem
  cases part with
  | declarations =>
    dsimp only
    rw [if_neg (hne .kwBegin (by decide)), if_neg (hne .eof (by decide)), hparsed]
  | statements =>
    dsimp only
    rw [if_neg fun h => hne .kwEnd (by decide) h.1, if_neg (hne .eof (by decide)), hparsed]

theorem items_reads {part : Section} {ts : List Terminal} {stmts : List Stmt}
    (h : Repeated (IsItem part) ts stmts) : ∀ {p : Parser} {rest : List Terminal},
      p.Faces scan (ts ++ (part.closing ++ rest)) → (part = .statements → rest = []) →
      (p.items part).Reads scan (fun read => read.map Stmt.unlined = stmts) rest := by
  induction h with
  | nil =>
    intro p rest hp hrest
    rw [Parser.items]
    cases part with
    | declarations =>
      have hfinished : p.nextItem .declarations = .finished p.advance p.advance_remaining_le :=
        if_pos (show p.kind = .kwBegin from hp.kind_eq)
      rw [hfinished]
      refine Step.Reads.behind hp (fun hq => ?_) _
      exact reads_done hq rfl
    | statements =>
      cases hrest rfl
      have hkind : p.kind = .kwEnd ∧ p.next.kind = .kwProgram :=
        ⟨hp.kind_eq, Parser.Faces.next_kind hp⟩
      have hfinished : p.nextItem .statements = .finished p.trailer.after p.trailer.le :=
        if_pos hkind
      obtain ⟨-, -, -, hafter, herrors⟩ := trailer_reads hp
      rw [hfinished]
      refine Step.Reads.within herrors ?_ _
      exact reads_done hafter rfl
  | cons hts hus ih =>
    intro p rest hp hrest
    rw [List.append_assoc] at hp
    obtain ⟨read, q, lt, hitem, hread, hq, herrors⟩ := nextItem_reads hp hts
    rw [Parser.items, hitem]
    refine Step.Reads.within herrors ?_ _
    exact (ih hq hrest).map fun reads hreads => by rw [List.map_cons, hread, hreads]

/-- **Programs** of the grammar are read. -/
theorem program_complete {ts : List Terminal} {tree : Program} (hp : p.Faces scan ts)
    (h : IsProgram ts tree) : p.program.Reads scan (·.unlined = tree) [] := by
  obtain ⟨hdeclarations, hstatements⟩ := h
  simp only [List.cons_append, List.append_assoc] at hp
  have hheader : p.header.Reads scan (· = _) _ :=
    hp.expect fun q _ _ hq => hq.expectName fun r _ hr => hr.expect fun s _ _ hs =>
      reads_done hs rfl
  refine hheader.andThen fun q _ name hq hname => ?_
  have hother : Section.declarations ≠ .statements := by decide
  refine (items_reads hdeclarations hq fun h => absurd h hother).andThen
    fun r _ declarations hr hdeclarations => ?_
  refine (items_reads hstatements hr fun _ => rfl).map fun statements hstatements => ?_
  rw [Program.unlined, blockUnlined_eq_map, blockUnlined_eq_map, hdeclarations, hstatements, hname]

end Complete

theorem finish_eq_ok {α : Type} {s : Step p α} {a : α} :
    s.finish = .ok ⟨some a, []⟩ ↔
      s.after.cutShort = false ∧ s.value = some a ∧ s.after.errors = [] := by
  unfold Step.finish
  cases s.after.cutShort <;> simp

/-- At the end of a text without an error, all of it was seen. -/
theorem Parser.Of.seen {scan : Scan} (h : p.Of scan) (hend : p.kind = .eof)
    (herrors : p.errors = []) (hcut : p.cutShort = false) :
    p.upcoming = [] ∧ scan.ending.isSome ∧ ∀ t ∈ scan.tokens, t.kind.isError = false := by
  have hnext := h.ended hend
  refine ⟨h.upcoming_end hend, ?_, ?_⟩
  · rw [← h.ending, Option.isSome_iff_ne_none]
    intro hnone
    rw [h.cut hnext hnone] at hcut
    cases hcut
  · obtain ⟨passed, hsplit, hpassed⟩ := h.passed
    rw [h.last hnext, List.append_nil] at hsplit
    rw [hsplit]
    exact hpassed herrors

/-- **The parser accepts the grammar.** If the characters NUL of a text stand in strings and
comments, it is read as a program without an error exactly if it can be scanned to its end, no
stretch of it is an error, and its tokens other than blanks and comments are those of a program in
the grammar. What is read is then the tree that they stand for there, lines aside. -/
theorem parse_iff_isProgram (tabWidth : Nat) (source : String)
    (hnul : (Scan.ofString tabWidth source).NulsInside) (tree : Program) :
    (∃ program, Program.parse tabWidth source = .ok ⟨some program, []⟩ ∧ program.unlined = tree) ↔
      (Scan.ofString tabWidth source).ending.isSome ∧
      (∀ t ∈ (Scan.ofString tabWidth source).tokens, t.kind.isError = false) ∧
      IsProgram (((Scan.ofString tabWidth source).tokens.filter (!·.kind.isTrivia)).map
        Token.terminal) tree := by
  have hend := hnul.kind_ne_eof
  have hof : (Parser.ofString tabWidth source).Of _ := Parser.ofScan_of hend
  have hupcoming : (Parser.ofString tabWidth source).upcoming = _ := Parser.ofScan_upcoming hend
  unfold Program.parse
  constructor
  · rintro ⟨program, hparse, rfl⟩
    obtain ⟨hcut, hvalue, herrors⟩ := finish_eq_ok.mp hparse
    have hsound := program_sound (Parser.ofString tabWidth source)
    have hsame : (Parser.ofString tabWidth source).errors = [] :=
      List.prefix_nil.mp (herrors ▸ hsound.onto.errors)
    obtain ⟨ts, hts, hprogram⟩ := hsound.derives hvalue (herrors.trans hsame.symm) hof
    obtain ⟨q, -, htrailer, hafter⟩ := @program_trailer _ (fun _ => True)
      ⟨fun _ => trivial, fun _ _ _ _ => trivial⟩ trivial _ hvalue herrors
    have hstop : (Parser.ofString tabWidth source).program.after.kind = .eof := by
      obtain ⟨-, -, -, heof, hlast⟩ := trailer_value htrailer
      rw [hafter, hlast, heof]
    obtain ⟨hrest, hending, hclean⟩ := (hsound.onto.of hof).seen hstop herrors hcut
    refine ⟨hending, hclean, ?_⟩
    rw [hrest, List.append_nil, hupcoming] at hts
    rw [← terminals_of_clean hend hclean, hts]
    exact hprogram
  · rintro ⟨hending, hclean, hprogram⟩
    rw [← terminals_of_clean hend hclean] at hprogram
    obtain ⟨program, hvalue, htree, hafter, herrors⟩ :=
      program_complete ⟨hof, hclean, hupcoming⟩ hprogram
    refine ⟨program, finish_eq_ok.mpr ⟨?_, hvalue, ?_⟩, htree⟩
    · refine Bool.eq_false_iff.mpr fun hcut => ?_
      rw [← hafter.of.ending, hafter.of.whole hcut] at hending
      cases hending
    · exact herrors.trans (Parser.ofScan_errors hend hclean)

/-- A program with operators of one level side by side, and characters NUL in a comment and a
string. -/
def groupedText : String :=
  "program p is /* \x00 */ begin s := \"\x00\"; x := 3 - -2 - y * 4; end program ."

/-- What is read from it. -/
def grouped : Program where
  name := "p"
  declarations := []
  statements :=
    [.assign (.whole "s" false 1) (.literal (.string "\x00") 1 none) 1,
      .assign (.whole "x" false 1)
        (.binary .sub
          (.binary .sub (.literal (.integer 3) 1 none) (.literal (.integer (-2)) 1 none) 1 none)
          (.binary .mul (.read (.whole "y" false 1) 1 none) (.literal (.integer 4) 1 none) 1 none)
          1 none)
        1]

/-- What the grammar sees of it. -/
def groupedTerminals : List Terminal :=
  [.sym .kwProgram, .name "p", .sym .kwIs, .sym .kwBegin,
    .name "s", .sym .assign, .string "\x00", .sym .semicolon,
    .name "x", .sym .assign, .integer 3, .sym .minus, .sym .minus, .integer 2, .sym .minus,
    .name "y", .sym .star, .integer 4, .sym .semicolon,
    .sym .kwEnd, .sym .kwProgram, .sym .period]

/-- The text is a program of the grammar, since it is read without an error. -/
theorem isProgram_grouped :
    (Scan.ofString 4 groupedText).NulsInside ∧
      Program.parse 4 groupedText = .ok ⟨some grouped, []⟩ ∧
      IsProgram groupedTerminals grouped.unlined := by
  have inside : (Scan.ofString 4 groupedText).NulsInside := by decide +kernel
  have parsed : Program.parse 4 groupedText = .ok ⟨some grouped, []⟩ := by with_unfolding_all rfl
  have seen : ((Scan.ofString 4 groupedText).tokens.filter (!·.kind.isTrivia)).map Token.terminal =
      groupedTerminals := by decide +kernel
  obtain ⟨-, -, hprogram⟩ := (parse_iff_isProgram 4 groupedText inside _).mp ⟨grouped, parsed, rfl⟩
  exact ⟨inside, parsed, seen ▸ hprogram⟩

end ProcLang
