import ProcLang.Proofs.Tiling

/-!
# Behind the end of a program

A parser pulls its tokens from a scan, and what it passes over between them is trivia unless it
records an error (`pull_clean`). `Parser.Within` says where in the scan a parser stands, and every
production keeps it (`within_kept`). So behind `end program .` nothing but trivia was passed over
when a program is read without an error, up to the token at which the parser stopped.

That token need not be the end of the text: a character NUL is an end token as well
(`parse_stops`), and what stands behind it is not looked at (`parse_ignores_rest`).
-/

namespace ProcLang

/-! ## Where a parser stands -/

/-- Without an error only trivia are passed over. The token pulled is the next other one, or the
end. -/
theorem pull_clean {ending : Option Ending} {tokens : List Token}
    (herrors : (Parser.pull ending tokens).errors = [])
    (hcut : (Parser.pull ending tokens).cutShort = false) :
    ∃ gap, (∀ t ∈ gap, t.kind.isTrivia = true) ∧
      (tokens = gap ++ (Parser.pull ending tokens).token :: (Parser.pull ending tokens).ahead ∨
        tokens = gap ∧ ∃ e, ending = some e ∧ (Parser.pull ending tokens).token = e.token) := by
  induction tokens with
  | nil =>
    refine ⟨[], by simp, Or.inr ⟨rfl, ?_⟩⟩
    cases ending with
    | none => cases hcut
    | some e => exact ⟨e, rfl, rfl⟩
  | cons t tokens ih =>
    rw [Parser.pull] at herrors hcut ⊢
    by_cases htrivia : t.kind.isTrivia = true
    · rw [if_pos htrivia] at herrors hcut ⊢
      obtain ⟨gap, hgap, hsplit⟩ := ih herrors hcut
      refine ⟨t :: gap, List.forall_mem_cons.mpr ⟨htrivia, hgap⟩, ?_⟩
      rcases hsplit with hsplit | ⟨hsplit, hend⟩
      · exact Or.inl (congrArg (t :: ·) hsplit)
      · exact Or.inr ⟨congrArg (t :: ·) hsplit, hend⟩
    · rw [if_neg htrivia] at herrors hcut ⊢
      split at herrors
      · cases herrors
      · rename_i herror
        rw [if_neg herror]
        exact ⟨[], by simp, Or.inl rfl⟩

/-- What is left behind a token that was pulled is the end of what was there before. -/
theorem pull_ahead_suffix (ending : Option Ending) (tokens : List Token) :
    (Parser.pull ending tokens).ahead <:+ tokens := by
  induction tokens with
  | nil => exact List.suffix_rfl
  | cons t tokens ih =>
    rw [Parser.pull]
    split
    · exact ih.trans (List.suffix_cons t tokens)
    · split
      · exact ih.trans (List.suffix_cons t tokens)
      · exact List.suffix_cons t tokens

/-- A token was pulled and passed over nothing but trivia, as far as the errors tell. -/
structure Pulled.Plain (pulled : Pulled) (p : Parser) : Prop where
  errors : p.errors = [] → pulled.errors = []
  cutShort : p.cutShort = false → pulled.cutShort = false

/-- The parser stands in the scan: its tokens were pulled from the rest of the scan one after the
other. -/
def Parser.Within (s : Scan) (p : Parser) : Prop :=
  p.ending = s.ending ∧ ∃ tokens first second, tokens <:+ s.tokens ∧
    Parser.pull s.ending tokens = first ∧ Parser.pull s.ending first.ahead = second ∧
    p.current = first.token ∧ p.next = second.token ∧ p.ahead = second.ahead ∧
    first.Plain p ∧ second.Plain p

namespace Parser

variable {s : Scan} {p : Parser}

theorem advance_of_kind (h : p.kind ≠ .eof) :
    p.advance =
      { p with
        current := p.next
        next := (pull p.ending p.ahead).token
        ahead := (pull p.ending p.ahead).ahead
        errors := p.errors ++ (pull p.ending p.ahead).errors
        cutShort := p.cutShort || (pull p.ending p.ahead).cutShort } :=
  if_neg h

theorem ofScan_within (s : Scan) : (ofScan s).Within s := by
  refine ⟨rfl, s.tokens, _, _, List.suffix_rfl, rfl, rfl, rfl, rfl, rfl, ⟨?_, ?_⟩, ⟨?_, ?_⟩⟩
  · exact fun h => (List.append_eq_nil_iff.mp h).1
  · exact fun h => (Bool.or_eq_false_iff.mp h).1
  · exact fun h => (List.append_eq_nil_iff.mp h).2
  · exact fun h => (Bool.or_eq_false_iff.mp h).2

theorem Within.advance (h : p.Within s) : p.advance.Within s := by
  by_cases hend : p.kind = .eof
  · rw [show p.advance = p from if_pos hend]
    exact h
  · obtain ⟨hending, tokens, first, second, hsuffix, rfl, rfl, -, hnext, hahead, -, hplain⟩ := h
    rw [advance_of_kind hend, hending, hahead]
    refine ⟨rfl, _, _, _, (pull_ahead_suffix _ _).trans hsuffix, rfl, rfl, hnext, rfl, rfl,
      ⟨?_, ?_⟩, ⟨?_, ?_⟩⟩
    · exact fun h => hplain.errors (List.append_eq_nil_iff.mp h).1
    · exact fun h => hplain.cutShort (Bool.or_eq_false_iff.mp h).1
    · exact fun h => (List.append_eq_nil_iff.mp h).2
    · exact fun h => (Bool.or_eq_false_iff.mp h).2

theorem Within.reportAt (h : p.Within s) (position : Position) (cause : SyntaxCause) :
    (p.reportAt position cause).Within s := by
  obtain ⟨hending, tokens, first, second, hsuffix, hfirst, hsecond, hcurrent, hnext, hahead,
    hplain, hplain'⟩ := h
  exact ⟨hending, tokens, first, second, hsuffix, hfirst, hsecond, hcurrent, hnext, hahead,
    ⟨fun h => absurd h (by simp [Parser.reportAt]), hplain.cutShort⟩,
    ⟨fun h => absurd h (by simp [Parser.reportAt]), hplain'.cutShort⟩⟩

end Parser

/-- Every production keeps a parser within its scan. -/
theorem within_kept (s : Scan) : Parser.Kept (·.Within s) :=
  ⟨Parser.Within.advance, fun position cause _ h => h.reportAt position cause⟩

/-! ## The end of a program -/

/-- A token that is not an end token stands in the scan behind trivia. -/
theorem pull_clean_token {ending : Option Ending} {tokens : List Token}
    (herrors : (Parser.pull ending tokens).errors = [])
    (hcut : (Parser.pull ending tokens).cutShort = false)
    (hkind : (Parser.pull ending tokens).token.kind ≠ .eof) :
    ∃ gap, (∀ t ∈ gap, t.kind.isTrivia = true) ∧
      tokens = gap ++ (Parser.pull ending tokens).token :: (Parser.pull ending tokens).ahead := by
  obtain ⟨gap, hgap, hsplit | ⟨-, e, -, he⟩⟩ := pull_clean herrors hcut
  · exact ⟨gap, hgap, hsplit⟩
  · rw [he] at hkind
    exact absurd rfl hkind

/-- The end of a program in its scan: the tokens `read`, of which the last two are `end program`,
the period, trivia, and what was not read. The parser stopped in front of that, at an end token in
the scan or at the end of the scan. -/
structure Scan.ProgramEnd (s : Scan) (stop : Token) (read : List Token) (period : Token)
    (gap rest : List Token) : Prop where
  tokens : s.tokens = read ++ period :: gap ++ rest
  before : [.kwEnd, .kwProgram] <:+ (read.filter (!·.kind.isTrivia)).map Token.kind
  isPeriod : period.kind = .period
  isTrivia : ∀ t ∈ gap, t.kind.isTrivia = true
  isEnd : stop.kind = .eof
  stopped : (rest = [] ∧ ∃ e, s.ending = some e ∧ stop = e.token) ∨ ∃ more, rest = stop :: more

theorem filter_of_trivia {gap : List Token} (h : ∀ t ∈ gap, t.kind.isTrivia = true) :
    gap.filter (!·.kind.isTrivia) = [] :=
  List.filter_eq_nil_iff.mpr fun t ht => by simp [h t ht]

/-- The last two tokens that are not trivia. -/
theorem kinds_suffix {lead gap gap' : List Token} {t u : Token} (ht : t.kind.isTrivia = false)
    (hu : u.kind.isTrivia = false) (hgap : ∀ t ∈ gap, t.kind.isTrivia = true)
    (hgap' : ∀ t ∈ gap', t.kind.isTrivia = true) :
    [t.kind, u.kind] <:+
      ((lead ++ t :: gap ++ u :: gap').filter (!·.kind.isTrivia)).map Token.kind := by
  refine ⟨(lead.filter (!·.kind.isTrivia)).map Token.kind, ?_⟩
  rw [List.filter_append, List.filter_append, List.filter_cons_of_pos (by simp [ht]),
    List.filter_cons_of_pos (by simp [hu]), filter_of_trivia hgap, filter_of_trivia hgap']
  simp only [List.map_append, List.map_cons, List.map_nil, List.append_assoc, List.cons_append,
    List.nil_append]

/-- Behind the last tokens of a program. -/
theorem trailer_programEnd {s : Scan} {q : Parser} (hq : q.Within s)
    (hvalue : q.trailer.value = some ()) (herrors : q.trailer.after.errors = [])
    (hcut : q.trailer.after.cutShort = false) :
    ∃ read period gap rest, s.ProgramEnd q.trailer.after.current read period gap rest := by
  obtain ⟨hend, hprogram, hperiod, heof, hafter⟩ := trailer_value hvalue
  rw [hafter] at herrors hcut ⊢
  have hone := Parser.advance_of_kind (show q.kind ≠ .eof by rw [hend]; decide)
  have htwo := Parser.advance_of_kind (show q.advance.kind ≠ .eof by rw [hprogram]; decide)
  have hthree :=
    Parser.advance_of_kind (show q.advance.advance.kind ≠ .eof by rw [hperiod]; decide)
  rw [hthree] at herrors hcut heof ⊢
  rw [htwo] at hperiod heof herrors hcut ⊢
  rw [hone] at hprogram hperiod heof herrors hcut ⊢
  obtain ⟨hending, tokens, _, _, ⟨lead, hlead⟩, rfl, rfl, hcurrent, hnext, hahead, hplain,
    hplain'⟩ := hq
  simp only [Parser.kind, hending, hahead, hcurrent, hnext] at hend hprogram hperiod heof
  simp only [hending, hahead, List.append_eq_nil_iff, Bool.or_eq_false_iff] at herrors hcut
  dsimp only
  rw [hending, hahead]
  obtain ⟨⟨⟨herrors, herrors3⟩, herrors4⟩, -⟩ := herrors
  obtain ⟨⟨⟨hcut, hcut3⟩, hcut4⟩, -⟩ := hcut
  obtain ⟨gap1, -, hsplit1⟩ := pull_clean_token (hplain.errors herrors) (hplain.cutShort hcut)
    (by rw [hend]; decide)
  obtain ⟨gap2, hgap2, hsplit2⟩ := pull_clean_token (hplain'.errors herrors)
    (hplain'.cutShort hcut) (by rw [hprogram]; decide)
  obtain ⟨gap3, hgap3, hsplit3⟩ :=
    pull_clean_token herrors3 hcut3 (by rw [hperiod]; decide)
  obtain ⟨gap, hgap, hsplit⟩ := pull_clean herrors4 hcut4
  generalize Parser.pull s.ending tokens = first at *
  generalize Parser.pull s.ending first.ahead = second at *
  generalize Parser.pull s.ending second.ahead = third at *
  generalize Parser.pull s.ending third.ahead = fourth at *
  have hread : s.tokens = (lead ++ gap1 ++ first.token :: gap2 ++ second.token :: gap3) ++
      third.token :: third.ahead := by
    rw [← hlead, hsplit1, hsplit2, hsplit3]
    simp only [List.append_assoc, List.cons_append]
  have hbefore : [.kwEnd, .kwProgram] <:+
      ((lead ++ gap1 ++ first.token :: gap2 ++ second.token :: gap3).filter
        (!·.kind.isTrivia)).map Token.kind := by
    have := @kinds_suffix (lead ++ gap1) gap2 gap3 first.token second.token (by rw [hend]; rfl)
      (by rw [hprogram]; rfl) hgap2 hgap3
    rwa [hend, hprogram] at this
  rcases hsplit with hsplit | ⟨hsplit, e, he, hstop⟩
  · refine ⟨_, third.token, gap, fourth.token :: fourth.ahead, ?_, hbefore, hperiod, hgap, heof,
      Or.inr ⟨_, rfl⟩⟩
    rw [hread, hsplit]
    simp only [List.append_assoc, List.cons_append]
  · refine ⟨_, third.token, gap, [], ?_, hbefore, hperiod, hgap, heof,
      Or.inl ⟨rfl, e, he, hstop⟩⟩
    rw [hread, hsplit, List.append_nil]

/-- **Reading a program without an error** ends behind `end program .` and trivia. -/
theorem program_programEnd {s : Scan} {program : Program}
    (hvalue : (Parser.ofScan s).program.value = some program)
    (herrors : (Parser.ofScan s).program.after.errors = [])
    (hcut : (Parser.ofScan s).program.after.cutShort = false) :
    ∃ read period gap rest,
      s.ProgramEnd (Parser.ofScan s).program.after.current read period gap rest := by
  obtain ⟨q, hq, htrailer, hafter⟩ :=
    program_trailer (within_kept s) (Parser.ofScan_within s) hvalue herrors
  rw [hafter] at herrors hcut ⊢
  exact trailer_programEnd hq htrailer herrors hcut

/-- **Nothing but trivia stands between the end of a program and the place where the parser
stopped** if the program is read without an error. That place is the end of the text, or a character
NUL. -/
theorem parse_stops {tabWidth : Nat} {source : String} {program : Program}
    (h : Program.parse tabWidth source = .ok ⟨some program, []⟩) :
    ∃ read period gap unread,
      read ++ period :: gap <+: (Scan.ofString tabWidth source).tokens ∧
      source.toList = tokenTexts (read ++ period :: gap) ++ unread ∧
      [.kwEnd, .kwProgram] <:+ (read.filter (!·.kind.isTrivia)).map Token.kind ∧
      period.kind = .period ∧ (∀ t ∈ gap, t.kind.isTrivia = true) ∧
      let stop := (Parser.ofString tabWidth source).program.after.current
      stop.kind = .eof ∧ stop.span.lo = utf8Length (tokenTexts (read ++ period :: gap)) ∧
      (stop.span.lo = utf8Length source.toList ∧ unread = [] ∨
        stop.span.lo < utf8Length source.toList ∧ ∃ more, unread = '\x00' :: more) := by
  obtain ⟨hcut, hvalue, herrors⟩ := finish_eq_ok.mp h
  obtain ⟨read, period, gap, rest, hend⟩ := program_programEnd hvalue herrors hcut
  have hprefix : read ++ period :: gap <+: (Scan.ofString tabWidth source).tokens :=
    ⟨rest, hend.tokens.symm⟩
  rcases hend.stopped with ⟨rfl, e, he, hstop⟩ | ⟨more, rfl⟩
  · obtain ⟨last, hpasses, hlast⟩ := Cursor.scan_passes tabWidth (Cursor.ofString source)
    obtain ⟨hnil, -, hoffset⟩ := hlast e he
    have htokens : (Scan.ofString tabWidth source).tokens = read ++ period :: gap := by
      rw [hend.tokens, List.append_nil]
    change Cursor.Passes _ _ (tokenTexts (Scan.ofString tabWidth source).tokens) _ at hpasses
    rw [htokens] at hpasses
    have htext : source.toList = tokenTexts (read ++ period :: gap) := by
      rw [← List.append_nil (tokenTexts _), ← hnil]
      exact hpasses.ahead
    have hlo : (Parser.ofString tabWidth source).program.after.current.span.lo =
        utf8Length (tokenTexts (read ++ period :: gap)) := by
      change (Parser.ofScan _).program.after.current.span.lo = _
      rw [hstop]
      exact hoffset.trans (hpasses.offset.trans (Nat.zero_add _))
    refine ⟨read, period, gap, [], hprefix, by rw [List.append_nil, htext], hend.before,
      hend.isPeriod, hend.isTrivia, hend.isEnd, hlo, Or.inl ⟨?_, rfl⟩⟩
    rw [hlo, htext]
  · obtain ⟨here, after, hpasses, -, hreads⟩ :=
      Cursor.scan_split tabWidth (Cursor.ofString source) hend.tokens
    have htext : source.toList = tokenTexts (read ++ period :: gap) ++ here.ahead := hpasses.ahead
    have hnul := Cursor.scan_eof tabWidth (Cursor.ofString source)
      (hend.tokens ▸ List.mem_append_right _ List.mem_cons_self) hend.isEnd
    have hunread : here.ahead = '\x00' :: after.ahead := by
      rw [hreads.passes.ahead, hnul]
      rfl
    have hlo : (Parser.ofString tabWidth source).program.after.current.span.lo =
        utf8Length (tokenTexts (read ++ period :: gap)) := by
      change (Parser.ofScan _).program.after.current.span.lo = _
      rw [hreads.span]
      exact hpasses.offset.trans (Nat.zero_add _)
    refine ⟨read, period, gap, here.ahead, hprefix, htext, hend.before, hend.isPeriod,
      hend.isTrivia, hend.isEnd, hlo, Or.inr ⟨?_, after.ahead, hunread⟩⟩
    rw [hlo, htext, hunread, utf8Length_append, utf8Length_cons]
    have := Char.utf8Size_pos '\x00'
    omega

theorem parse_of_isOk {tabWidth : Nat} {source : String}
    (h : (Program.parse tabWidth source).toOption.any Parsed.isOk = true) :
    ∃ program, Program.parse tabWidth source = .ok ⟨some program, []⟩ := by
  cases hparse : Program.parse tabWidth source with
  | error fault =>
    rw [hparse] at h
    cases h
  | ok parsed =>
    obtain ⟨value, errors⟩ := parsed
    rw [hparse] at h
    obtain ⟨hvalue, herrors⟩ := Bool.and_eq_true_iff.mp h
    obtain ⟨program, rfl⟩ := Option.isSome_iff_exists.mp hvalue
    obtain rfl := List.isEmpty_iff.mp herrors
    exact ⟨program, rfl⟩

/-- A program with a comment and a line break behind it. -/
def commentedText : String :=
  "program p is begin end program . // done\n"

/-- It is read to its end. -/
theorem parse_stops_behind_comment :
    ∃ program, Program.parse 4 commentedText = .ok ⟨some program, []⟩ ∧
      ∃ read period gap, period.kind = .period ∧ (∀ t ∈ gap, t.kind.isTrivia = true) ∧
        commentedText.toList = tokenTexts (read ++ period :: gap) := by
  obtain ⟨program, parsed⟩ := @parse_of_isOk 4 commentedText (by decide +kernel)
  obtain ⟨read, period, gap, unread, -, htext, -, hperiod, hgap, -, -, hstop⟩ := parse_stops parsed
  refine ⟨program, parsed, read, period, gap, hperiod, hgap, ?_⟩
  rcases hstop with ⟨-, rfl⟩ | ⟨-, more, rfl⟩
  · rw [htext, List.append_nil]
  · have hnul : '\x00' ∈ commentedText.toList := by
      rw [htext]
      simp
    exact absurd hnul (by decide)

/-- A program with a character NUL and a name behind it. -/
def nulText : String :=
  "program p is begin end program .\x00x"

/-- **What stands behind a character NUL is ignored**: the program is read without an error, but the
parser stopped in front of the last two characters, which are no trivia. -/
theorem parse_ignores_rest :
    (∃ program, Program.parse 4 nulText = .ok ⟨some program, []⟩) ∧
      (Parser.ofString 4 nulText).program.after.current.span.lo + 2 = utf8Length nulText.toList ∧
      ((Scan.ofString 4 nulText).tokens.reverse.take 3).map Token.kind =
        [.identifier, .eof, .period] :=
  ⟨parse_of_isOk (by decide +kernel), by decide +kernel, by decide +kernel⟩

end ProcLang
