import Mathlib.Data.List.Forall2
import ProcLang.Proofs.AtOnce

/-!
# Layout plays no part

Blanks, comments and the width of a tab decide where tokens stand, and nothing else. What compiling
does with two texts that have the same tokens, places and trivia apart, is followed side by side:

* parsers are compared without places and trivia (`Parser.placeless`). What they pull is the same
  then (`pull_placeless`), so they are twins (`placeless_twins`);
* states of lowering are compared without the lines of their findings (`Lowering.unlined`), and are
  twins as well (`unlined_twins`).

The places come back in the lines and columns of diagnostics only (`compile_placeless`).
-/

namespace ProcLang

/-! ## Without places -/

/-- The token without its place. -/
def Token.placeless (t : Token) : Token :=
  { t with position := default, span := default }

/-- The tokens that are not trivia, without their places. -/
def placelessTokens (tokens : List Token) : List Token :=
  (tokens.filter (!·.kind.isTrivia)).map Token.placeless

/-- The error without its place. -/
def SyntaxError.placeless (e : SyntaxError) : SyntaxError :=
  { e with position := default }

/-- What was pulled, without places and trivia. -/
def Pulled.placeless (pulled : Pulled) : Pulled where
  token := pulled.token.placeless
  ahead := placelessTokens pulled.ahead
  errors := pulled.errors.map SyntaxError.placeless
  cutShort := pulled.cutShort

/-- The parser without places and trivia. -/
def Parser.placeless (p : Parser) : Parser where
  current := p.current.placeless
  next := p.next.placeless
  ahead := placelessTokens p.ahead
  ending := p.ending.map fun _ => default
  errors := p.errors.map SyntaxError.placeless
  cutShort := p.cutShort

/-- Pulling a token does not depend on places and trivia. -/
theorem pull_placeless (ending : Option Ending) (tokens : List Token) :
    Parser.pull (ending.map fun _ => default) (placelessTokens tokens) =
      (Parser.pull ending tokens).placeless := by
  induction tokens with
  | nil => cases ending <;> rfl
  | cons t tokens ih =>
    rw [Parser.pull]
    by_cases htrivia : t.kind.isTrivia = true
    · have hskip : placelessTokens (t :: tokens) = placelessTokens tokens := by
        simp [placelessTokens, htrivia]
      rw [if_pos htrivia, hskip, ih]
    · have hkeep : placelessTokens (t :: tokens) = t.placeless :: placelessTokens tokens := by
        simp [placelessTokens, htrivia]
      have hkind : t.placeless.kind = t.kind := rfl
      rw [if_neg htrivia, hkeep, Parser.pull, hkind, if_neg htrivia, ih]
      split <;> rfl

theorem Parser.placeless_kind (p : Parser) : p.placeless.kind = p.kind := rfl

/-- Moving on does not depend on places and trivia. -/
theorem Parser.placeless_advance (p : Parser) : p.advance.placeless = p.placeless.advance := by
  by_cases hend : p.kind = .eof
  · rw [advance, if_pos hend, advance, if_pos (p.placeless_kind.trans hend)]
  · have hpull := pull_placeless p.ending p.ahead
    rw [advance, if_neg hend, advance, if_neg (p.placeless_kind ▸ hend)]
    simp only [placeless, hpull, Pulled.placeless, List.map_append]

theorem Parser.placeless_reportAt (p : Parser) (position : Position) (cause : SyntaxCause) :
    (p.reportAt position cause).placeless = p.placeless.reportAt default cause := by
  simp only [placeless, reportAt, List.map_append, List.map_cons, List.map_nil,
    SyntaxError.placeless]

/-- **Parsers that differ in places and trivia only** cannot be told apart, places aside. -/
theorem placeless_twins : Twins .placeless fun p q => p.placeless = q.placeless where
  current h := ⟨congrArg (fun p => p.current.terminal) h, rfl⟩
  next h _ := congrArg (fun p => p.next.kind) h
  advance h := by rw [Parser.placeless_advance, Parser.placeless_advance, h]
  report cause _ h _ := by rw [Parser.placeless_reportAt, Parser.placeless_reportAt, h]

/-! ## Without lines -/

/-- The diagnostic without its place. Whether it has a column stays. -/
def Diagnostic.placeless (d : Diagnostic) : Diagnostic :=
  { d with line := 0, column := d.column.map fun _ => 0 }

/-- The error without its line. -/
def LowerError.unlined (e : LowerError) : LowerError :=
  { e with line := 0 }

/-- The state without the lines of what was found. -/
def Lowering.unlined (s : Lowering) : Lowering :=
  { s with
    warnings := s.warnings.map Diagnostic.placeless
    errors := s.errors.map LowerError.unlined }

variable {p q : Parser} {s t : Lowering}

theorem Lowering.unlined_eq_iff : s.unlined = t.unlined ↔
    s.builder = t.builder ∧ s.symbols = t.symbols ∧ s.frames = t.frames ∧
      s.warnings.map Diagnostic.placeless = t.warnings.map Diagnostic.placeless ∧
      s.errors.map LowerError.unlined = t.errors.map LowerError.unlined := by
  simp only [unlined, Lowering.mk.injEq]

/-- **States that differ in the lines of their findings only** are twins. -/
theorem unlined_twins : Lowering.Twins fun s t => s.unlined = t.unlined where
  builder h := (Lowering.unlined_eq_iff.mp h).1
  symbols h := (Lowering.unlined_eq_iff.mp h).2.1
  frames h := (Lowering.unlined_eq_iff.mp h).2.2.1
  change builder symbols frames h := by
    rw [Lowering.unlined_eq_iff] at h ⊢
    exact ⟨rfl, rfl, rfl, h.2.2.2⟩
  report line line' cause h := by
    rw [Lowering.unlined_eq_iff] at h ⊢
    simp only [h, List.map_append, List.map_cons, List.map_nil, LowerError.unlined, and_self]
  warn line line' message h := by
    rw [Lowering.unlined_eq_iff] at h ⊢
    simp only [h, List.map_append, List.map_cons, List.map_nil, Diagnostic.placeless,
      Diagnostic.warning, Option.map_none, and_self]

theorem diagnostics_placeless (h : s.unlined = t.unlined) :
    s.diagnostics.map Diagnostic.placeless = t.diagnostics.map Diagnostic.placeless := by
  obtain ⟨-, -, -, hwarnings, herrors⟩ := Lowering.unlined_eq_iff.mp h
  have hlower : ∀ e : LowerError,
      (Diagnostic.ofLowerError e).placeless = .ofLowerError e.unlined := fun _ => rfl
  have hmap : ∀ u : Lowering, (u.errors.map Diagnostic.ofLowerError).map Diagnostic.placeless =
      (u.errors.map LowerError.unlined).map Diagnostic.ofLowerError := fun u => by
    simp only [List.map_map, Function.comp_def, hlower]
  rw [Lowering.diagnostics, Lowering.diagnostics, List.map_append, List.map_append, hwarnings,
    hmap, hmap, herrors]

theorem Parser.diagnostics_placeless (h : p.placeless = q.placeless) :
    p.diagnostics.map Diagnostic.placeless = q.diagnostics.map Diagnostic.placeless := by
  have hsyntax : ∀ e : SyntaxError, (Diagnostic.ofSyntaxError e).placeless =
      (Diagnostic.ofSyntaxError e.placeless).placeless := fun _ => rfl
  have hmap : ∀ r : Parser, r.diagnostics.map Diagnostic.placeless =
      (r.errors.map SyntaxError.placeless).map fun e => (Diagnostic.ofSyntaxError e).placeless :=
    fun r => by
      simp only [Parser.diagnostics, List.map_map, Function.comp_def]
      exact List.map_congr_left fun e _ => hsyntax e
  rw [hmap, hmap, show p.errors.map SyntaxError.placeless = q.errors.map SyntaxError.placeless from
    congrArg (·.errors) h]

/-! ## Side by side -/

/-- **An item** and the same item with other lines are lowered alike. -/
theorem item_placeless {s t s' : Lowering} {stmt stmt' : Stmt} {found : List Diagnostic}
    (hs : s.unlined = t.unlined) (hstmt : stmt.unlined = stmt'.unlined)
    (run : s.item stmt = .ok (s', found)) :
    ∃ t' found', t.item stmt' = .ok (t', found') ∧ s'.unlined = t'.unlined ∧
      found.map Diagnostic.placeless = found'.map Diagnostic.placeless := by
  obtain ⟨lowered, s1, hlower, rfl, rfl⟩ := item_inv run
  -- Both items are lowered as the one without lines is.
  have hleft := unlined_twins.stmt stmt s t hs
  have hright := unlined_twins.stmt stmt' t t rfl
  rw [hlower] at hleft
  obtain ⟨_, u, hunlined, -, hsu⟩ := hleft.of_ok
  rw [← hstmt, hunlined] at hright
  obtain ⟨lowered', t1, hlower', -, htu⟩ := hright.to_ok
  have hst : s1.unlined = t1.unlined := hsu.trans htu.symm
  refine ⟨t1.clearFindings, t1.diagnostics, ?_, ?_, diagnostics_placeless hst⟩
  · rw [Lowering.item, hlower']
    rfl
  · rw [Lowering.unlined_eq_iff] at hst ⊢
    exact ⟨hst.1, hst.2.1, hst.2.2.1, rfl, rfl⟩

/-- Two compilations stand at places that differ in layout only. -/
structure Progress.Alike (a b : Progress) : Prop where
  parser : a.parser.placeless = b.parser.placeless
  lowering : a.lowering.unlined = b.lowering.unlined
  diagnostics :
    a.diagnostics.map Diagnostic.placeless = b.diagnostics.map Diagnostic.placeless

theorem Parser.placeless_clearErrors (h : p.placeless = q.placeless) :
    p.clearErrors.placeless = q.clearErrors.placeless := by
  simp only [placeless, Parser.mk.injEq] at h
  simp only [placeless, clearErrors, h, List.map_nil]

/-- **A section** is compiled alike. -/
theorem compileSection_placeless (part : Section) {p q : Parser} {s t : Lowering}
    {found found' : List Diagnostic} {complete : Bool} {a : Progress}
    (hp : p.placeless = q.placeless) (hs : s.unlined = t.unlined)
    (hfound : found.map Diagnostic.placeless = found'.map Diagnostic.placeless)
    (run : compileSection part p s found = .ok (complete, a)) :
    ∃ b, compileSection part q t found' = .ok (complete, b) ∧ a.Alike b := by
  have hnext := placeless_twins.nextItem part hp
  have hadd : ∀ {p' q' : Parser}, p'.placeless = q'.placeless →
      (found ++ p'.diagnostics).map Diagnostic.placeless =
        (found' ++ q'.diagnostics).map Diagnostic.placeless := fun h => by
    rw [List.map_append, List.map_append, hfound, Parser.diagnostics_placeless h]
  rw [compileSection] at run ⊢
  cases hpn : p.nextItem part with
  | item stmt p' lt =>
    cases hqn : q.nextItem part with
    | item stmt' q' lt' =>
      rw [hpn, hqn] at hnext
      obtain ⟨hstmt, hrest⟩ := hnext
      rw [hpn] at run
      cases hitem : s.item stmt with
      | error fault =>
        simp only [hitem] at run
        cases run
      | ok r =>
        obtain ⟨s', here⟩ := r
        obtain ⟨t', here', hitem', hs', hhere⟩ := item_placeless hs hstmt hitem
        simp only [hitem] at run
        simp only [hitem']
        have : p'.clearErrors.remaining < p.remaining := lt
        refine compileSection_placeless part (Parser.placeless_clearErrors hrest) hs' ?_ run
        have hboth := congrArg (· ++ here.map Diagnostic.placeless) (hadd hrest)
        simpa only [List.map_append, hhere] using hboth
    | recovered | finished | ended => simp [hpn, hqn, Next.Agree] at hnext
  | recovered p' lt =>
    cases hqn : q.nextItem part with
    | recovered q' lt' =>
      rw [hpn, hqn] at hnext
      rw [hpn] at run
      have : p'.clearErrors.remaining < p.remaining := lt
      exact compileSection_placeless part (Parser.placeless_clearErrors hnext) hs (hadd hnext) run
    | item | finished | ended => simp [hpn, hqn, Next.Agree] at hnext
  | finished p' le =>
    cases hqn : q.nextItem part with
    | finished q' le' =>
      rw [hpn, hqn] at hnext
      rw [hpn] at run
      cases run
      exact ⟨_, rfl, Parser.placeless_clearErrors hnext, hs, hadd hnext⟩
    | item | recovered | ended => simp [hpn, hqn, Next.Agree] at hnext
  | ended p' le =>
    cases hqn : q.nextItem part with
    | ended q' le' =>
      rw [hpn, hqn] at hnext
      rw [hpn] at run
      cases run
      exact ⟨_, rfl, Parser.placeless_clearErrors hnext, hs, hadd hnext⟩
    | item | recovered | finished => simp [hpn, hqn, Next.Agree] at hnext
termination_by p.remaining

/-- **Both sections** are compiled alike. -/
theorem compileSections_placeless {found found' : List Diagnostic} {a : Progress}
    (hp : p.placeless = q.placeless) (hs : s.unlined = t.unlined)
    (hfound : found.map Diagnostic.placeless = found'.map Diagnostic.placeless)
    (run : compileSections p s found = .ok a) :
    ∃ b, compileSections q t found' = .ok b ∧ a.Alike b := by
  unfold compileSections at run ⊢
  cases hfirst : compileSection .declarations p s found with
  | error fault =>
    rw [hfirst] at run
    cases run
  | ok r =>
    obtain ⟨complete, a1⟩ := r
    obtain ⟨b1, hfirst', h1⟩ := compileSection_placeless .declarations hp hs hfound hfirst
    rw [hfirst] at run
    rw [hfirst']
    cases complete with
    | false =>
      cases run
      exact ⟨b1, rfl, h1⟩
    | true =>
      cases hsecond : compileSection .statements a1.parser a1.lowering a1.diagnostics with
      | error fault =>
        simp only [bind, Except.bind, if_true, hsecond] at run
        cases run
      | ok r =>
        obtain ⟨complete', a2⟩ := r
        obtain ⟨b2, hsecond', h2⟩ :=
          compileSection_placeless .statements h1.parser h1.lowering h1.diagnostics hsecond
        simp only [bind, Except.bind, if_true, hsecond] at run
        cases run
        simp only [bind, Except.bind, if_true, hsecond']
        exact ⟨b2, rfl, h2⟩

/-! ## Programs -/

/-- **A body** is compiled alike. -/
theorem compileBody_placeless (hp : p.placeless = q.placeless) (name moduleName : String) :
    ∃ last c last' c', compileBody p name moduleName = .ok (last, c) ∧
      compileBody q name moduleName = .ok (last', c') ∧ last.placeless = last'.placeless ∧
      c.module = c'.module ∧
      c.diagnostics.map Diagnostic.placeless = c'.diagnostics.map Diagnostic.placeless := by
  obtain ⟨a, run, -, st, hst, h, -⟩ :=
    @compileSections_run _ p.errors _ _ _ (between_invariant fun p _ => anyHeadings_has p)
      p.clearErrors List.prefix_rfl (Stage.start_between trivial moduleName name _ p.diagnostics)
  obtain ⟨m, s, hfinish, -⟩ := h.finish
  rw [hst] at hfinish
  obtain ⟨b, run', hab⟩ := compileSections_placeless (Parser.placeless_clearErrors hp) rfl
    (Parser.diagnostics_placeless hp) run
  have hboth := unlined_twins.finish a.lowering b.lowering hab.lowering
  rw [hfinish] at hboth
  obtain ⟨m', s', hfinish', rfl, -⟩ := hboth.of_ok
  have hbegin := begin_run moduleName name
  refine ⟨a.parser, ⟨m, a.diagnostics⟩, b.parser, ⟨m, b.diagnostics⟩, ?_, ?_, hab.parser, rfl,
    hab.diagnostics⟩
  · simp only [compileBody, hbegin, List.append_nil, run, hfinish, bind, Except.bind, pure,
      Except.pure]
  · simp only [compileBody, hbegin, List.append_nil, run', hfinish', bind, Except.bind, pure,
      Except.pure]

/-- The start of a text does not depend on layout. -/
theorem ofScan_placeless (s : Scan) : (Parser.ofScan s).placeless =
    Parser.ofScan ⟨placelessTokens s.tokens, s.ending.map fun _ => default⟩ := by
  have hfirst := pull_placeless s.ending s.tokens
  have hsecond := pull_placeless s.ending (Parser.pull s.ending s.tokens).ahead
  unfold Parser.ofScan
  dsimp only
  rw [hfirst]
  dsimp only [Pulled.placeless]
  rw [hsecond]
  simp only [Parser.placeless, Pulled.placeless, List.map_append]

/-- What is seen of a scan when places and trivia are left out: the kinds and texts of the other
tokens. -/
def Scan.seen (s : Scan) : List (TokenKind × List Char) :=
  (s.tokens.filter (!·.kind.isTrivia)).map fun t => (t.kind, t.text)

theorem placelessTokens_of_seen {s t : Scan} (h : s.seen = t.seen) :
    placelessTokens s.tokens = placelessTokens t.tokens := by
  have hmap : ∀ u : Scan, placelessTokens u.tokens =
      u.seen.map fun r => { kind := r.1, text := r.2, position := default, span := default } :=
    fun u => by simp only [placelessTokens, Scan.seen, List.map_map]; rfl
  rw [hmap, hmap, h]

/-- Diagnostics that are the same but for their places. -/
def Diagnostic.Alike (d e : Diagnostic) : Prop :=
  d.severity = e.severity ∧ d.message = e.message ∧ d.column.isSome = e.column.isSome

theorem Diagnostic.alike_of_placeless {d e : Diagnostic} (h : d.placeless = e.placeless) :
    d.Alike e := by
  obtain ⟨severity, line, column, message⟩ := d
  obtain ⟨severity', line', column', message'⟩ := e
  simp only [placeless, Diagnostic.mk.injEq] at h
  refine ⟨h.1, h.2.2.2, ?_⟩
  simpa using congrArg Option.isSome h.2.2.1

theorem forall₂_alike {found found' : List Diagnostic}
    (h : found.map Diagnostic.placeless = found'.map Diagnostic.placeless) :
    List.Forall₂ Diagnostic.Alike found found' := by
  rw [← List.forall₂_eq_eq_eq, List.forall₂_map_left_iff, List.forall₂_map_right_iff] at h
  exact h.imp fun _ _ => Diagnostic.alike_of_placeless

/-- **Layout and the width of a tab do not influence compiling**: two texts that can be scanned and
have the same tokens, trivia and places aside, give the same module and the same diagnostics, but
for the lines and columns of these. -/
theorem compile_placeless {source source' : String} {tabWidth tabWidth' : Nat}
    (moduleName : Option String) (hend : (Scan.ofString tabWidth source).ending.isSome = true)
    (hend' : (Scan.ofString tabWidth' source').ending.isSome = true)
    (hseen : (Scan.ofString tabWidth source).seen = (Scan.ofString tabWidth' source').seen) :
    ∃ c c', compile source ⟨tabWidth, moduleName⟩ = .ok c ∧
      compile source' ⟨tabWidth', moduleName⟩ = .ok c' ∧ c.module = c'.module ∧
      List.Forall₂ Diagnostic.Alike c.diagnostics c'.diagnostics := by
  have hstart : (Parser.ofString tabWidth source).placeless =
      (Parser.ofString tabWidth' source').placeless := by
    obtain ⟨e, he⟩ := Option.isSome_iff_exists.mp hend
    obtain ⟨e', he'⟩ := Option.isSome_iff_exists.mp hend'
    rw [Parser.ofString, Parser.ofString, ofScan_placeless, ofScan_placeless,
      placelessTokens_of_seen hseen, he, he']
    rfl
  obtain ⟨c, hc⟩ := @compile_of_scan source ⟨tabWidth, moduleName⟩ hend
  obtain ⟨c', hc'⟩ := @compile_of_scan source' ⟨tabWidth', moduleName⟩ hend'
  refine ⟨c, c', hc, hc', ?_⟩
  obtain ⟨hvalue, hafter⟩ := placeless_twins.header hstart
  rw [Option.map_id_fun, id, id] at hvalue
  have answer : ∀ {x : Except Fault Compilation} {cut : Bool} {a b : Compilation}, x = .ok a →
      x = (if cut then .error .overflow else .ok b) → a = b := by
    intro x cut a b ha hb
    rw [ha] at hb
    split at hb
    · cases hb
    · exact Except.ok.inj hb
  cases hname : (Parser.ofString tabWidth source).header.value with
  | none =>
    obtain rfl := answer hc (compile_of_none hname)
    obtain rfl := answer hc' (compile_of_none (hvalue.symm.trans hname))
    exact ⟨rfl, forall₂_alike (Parser.diagnostics_placeless hafter)⟩
  | some name =>
    obtain ⟨last, d, last', d', hbody, hbody', -, hmodule, hfound⟩ :=
      compileBody_placeless hafter name (moduleName.getD name)
    obtain rfl := answer hc (compile_of_body hname hbody)
    obtain rfl := answer hc' (compile_of_body (hvalue.symm.trans hname) hbody')
    exact ⟨hmodule, forall₂_alike hfound⟩

/-- A program on one line, with a variable that is not declared. -/
def oneLineText : String :=
  "program p is begin x:=1; end program."

/-- The same program on several lines, with a tab and a comment. -/
def severalLinesText : String :=
  "program p is // p\nbegin\n\tx := /* one */ 1;\nend program.\n"

/-- Both are compiled to the same module, with one error each. -/
theorem compile_placeless_lines :
    (Scan.ofString 4 oneLineText).ending.isSome = true ∧
      (Scan.ofString 8 severalLinesText).ending.isSome = true ∧
      (Scan.ofString 4 oneLineText).seen = (Scan.ofString 8 severalLinesText).seen ∧
      ∃ c c', compile oneLineText ⟨4, none⟩ = .ok c ∧ compile severalLinesText ⟨8, none⟩ = .ok c' ∧
        c.module = c'.module ∧ List.Forall₂ Diagnostic.Alike c.diagnostics c'.diagnostics := by
  have hend : (Scan.ofString 4 oneLineText).ending.isSome = true := by decide +kernel
  have hend' : (Scan.ofString 8 severalLinesText).ending.isSome = true := by decide +kernel
  have hseen : (Scan.ofString 4 oneLineText).seen = (Scan.ofString 8 severalLinesText).seen := by
    decide +kernel
  exact ⟨hend, hend', hseen, compile_placeless none hend hend' hseen⟩

end ProcLang
