import ProcLang.Proofs.Compiled
import ProcLang.Proofs.Twins.Lowering

/-!
# Compiling at once

A program is compiled item by item: an item is lowered before the next one is read, and the errors
in its text are set aside. `Program.lower` lowers a program that was read as a whole. The two agree
on every text: diagnostics with a column come from the text and diagnostics without one from
lowering, so that the two kinds can be told apart once they are mixed (`withColumn`,
`withoutColumn`).
-/

namespace ProcLang

/-! ## Lowering a program that was read -/

/-- Lowers items in order, and gives the state behind them and the diagnostics for them: the
warnings of an item and behind them its errors, of which the next item sees nothing. -/
def Lowering.items (s : Lowering) : List Stmt → Except Fault (Lowering × List Diagnostic)
  | [] => .ok (s, [])
  | stmt :: stmts => do
    let (_, between) ← stmt.lower s
    let (after, later) ← items { between with warnings := [], errors := [] } stmts
    return (after, between.warnings ++ between.errors.map .ofLowerError ++ later)

/-- Compiles a program that was read as a whole. -/
def Program.lower (program : Program) (moduleName : String) : Except Fault Compilation := do
  let (_, begun) ← Lower.beginProgram program.name (Lowering.new moduleName)
  let (after, diagnostics) ← begun.items (program.declarations ++ program.statements)
  let (module, _) ← Lower.finish after
  return { module, diagnostics }

/-- The first of the items is lowered as it is when the program is compiled item by item. -/
theorem Lowering.items_first (s : Lowering) (stmt : Stmt) (stmts : List Stmt) :
    s.items (stmt :: stmts) = do
      let (between, findings) ← s.item stmt
      let (after, later) ← between.items stmts
      return (after, findings ++ later) := by
  rw [items, item]
  cases stmt.lower s <;> rfl

theorem Lowering.items_cons {s between after : Lowering} {stmt : Stmt} {stmts : List Stmt}
    {findings later : List Diagnostic} (h : s.item stmt = .ok (between, findings))
    (h' : between.items stmts = .ok (after, later)) :
    s.items (stmt :: stmts) = .ok (after, findings ++ later) := by
  rw [items_first, h]
  simp only [bind, Except.bind, h']
  rfl

variable {found : List Diagnostic} {s after : Lowering} {source : String} {options : Options}

/-- The first of the items is lowered before the others. -/
theorem Lowering.items_cons_inv {stmt : Stmt} {stmts : List Stmt}
    (h : s.items (stmt :: stmts) = .ok (after, found)) :
    ∃ between findings later, s.item stmt = .ok (between, findings) ∧
      between.items stmts = .ok (after, later) ∧ found = findings ++ later := by
  rw [items_first] at h
  cases hitem : s.item stmt with
  | error fault =>
    rw [hitem] at h
    cases h
  | ok r =>
    rw [hitem] at h
    cases hrest : r.1.items stmts with
    | error fault =>
      simp only [bind, Except.bind, hrest] at h
      cases h
    | ok r' =>
      simp only [bind, Except.bind, hrest] at h
      cases h
      exact ⟨r.1, r.2, r'.2, rfl, hrest, rfl⟩

theorem Lowering.items_append {between : Lowering} {stmts more : List Stmt}
    {findings later : List Diagnostic} (h : s.items stmts = .ok (between, findings))
    (h' : between.items more = .ok (after, later)) :
    s.items (stmts ++ more) = .ok (after, findings ++ later) := by
  induction stmts generalizing s findings with
  | nil =>
    cases h
    exact h'
  | cons stmt stmts ih =>
    obtain ⟨s1, first, rest, hitem, hrest, rfl⟩ := items_cons_inv h
    rw [List.cons_append, List.append_assoc]
    exact items_cons hitem (ih hrest)

/-! ## Diagnostics with and without a column -/

/-- The diagnostics that have a column. -/
def withColumn (found : List Diagnostic) : List Diagnostic :=
  found.filter (·.column.isSome)

/-- The diagnostics that have no column. -/
def withoutColumn (found : List Diagnostic) : List Diagnostic :=
  found.filter (·.column.isNone)

theorem withColumn_append (a b : List Diagnostic) :
    withColumn (a ++ b) = withColumn a ++ withColumn b :=
  List.filter_append a b

theorem withoutColumn_append (a b : List Diagnostic) :
    withoutColumn (a ++ b) = withoutColumn a ++ withoutColumn b :=
  List.filter_append a b

@[simp]
theorem withColumn_syntaxErrors (errors : List SyntaxError) :
    withColumn (errors.map .ofSyntaxError) = errors.map .ofSyntaxError := by
  refine List.filter_eq_self.mpr fun d hd => ?_
  obtain ⟨e, -, rfl⟩ := List.mem_map.mp hd
  rfl

@[simp]
theorem withoutColumn_syntaxErrors (errors : List SyntaxError) :
    withoutColumn (errors.map .ofSyntaxError) = [] := by
  refine List.filter_eq_nil_iff.mpr fun d hd => ?_
  obtain ⟨e, -, rfl⟩ := List.mem_map.mp hd
  exact Bool.false_ne_true

/-- None of the diagnostics has a column. -/
def Columnless (found : List Diagnostic) : Prop :=
  ∀ d ∈ found, d.column = none

theorem Columnless.withColumn (h : Columnless found) : withColumn found = [] :=
  List.filter_eq_nil_iff.mpr fun d hd => by rw [h d hd]; exact Bool.false_ne_true

theorem Columnless.withoutColumn (h : Columnless found) : withoutColumn found = found :=
  List.filter_eq_self.mpr fun d hd => by rw [h d hd]; rfl

/-- Lowering finds nothing that has a column. -/
theorem columnless_twins : Lowering.Twins fun s t =>
    s.builder = t.builder ∧ s.symbols = t.symbols ∧ s.frames = t.frames ∧
      Columnless s.warnings where
  builder h := h.1
  symbols h := h.2.1
  frames h := h.2.2.1
  change _ _ _ h := ⟨rfl, rfl, rfl, h.2.2.2⟩
  report _ _ _ h := h
  warn line line' message h := by
    refine ⟨h.1, h.2.1, h.2.2.1, fun d hd => ?_⟩
    rcases List.mem_append.mp hd with hd | hd
    · exact h.2.2.2 d hd
    · rw [List.mem_singleton.mp hd]
      rfl

/-- What is found in the meaning of an item has no column. -/
theorem item_columnless {stmt : Stmt} {findings : List Diagnostic} (hs : Columnless s.warnings)
    (h : s.item stmt = .ok (after, findings)) :
    Columnless findings ∧ Columnless after.warnings := by
  have hstmt := columnless_twins.stmt stmt s s ⟨rfl, rfl, rfl, hs⟩
  obtain ⟨lowered, s', hlower, rfl, rfl⟩ := item_inv h
  rw [hlower] at hstmt
  obtain ⟨-, -, -, -, -, -, -, hwarnings⟩ := hstmt.of_ok
  refine ⟨fun d hd => ?_, fun d hd => by cases hd⟩
  rcases List.mem_append.mp hd with hd | hd
  · exact hwarnings d hd
  · obtain ⟨e, -, rfl⟩ := List.mem_map.mp hd
    rfl

/-! ## Programs -/

/-- Behind some items the diagnostics without a column are those of lowering these, and the others
are the errors in the text. -/
structure Sorted (begun : Lowering) (done : List Stmt) (errors : List SyntaxError) (s : Lowering)
    (found : List Diagnostic) : Prop where
  lowered : begun.items done = .ok (s, withoutColumn found)
  text : withColumn found = errors.map .ofSyntaxError
  columnless : Columnless s.warnings

theorem sorted_invariant {begun : Lowering} {items : List Stmt} :
    ItemInvariant items fun done errors s found =>
      Between anyHeadings begun items done s found ∧ Sorted begun done errors s found := by
  refine between_and (fun more h => ⟨?_, ?_, h.columnless⟩) fun stmt _ h run => ?_
  · rw [withoutColumn_append, withoutColumn_syntaxErrors, List.append_nil]
    exact h.lowered
  · rw [withColumn_append, withColumn_syntaxErrors, h.text, List.map_append]
  · obtain ⟨hfindings, hafter⟩ := item_columnless h.columnless run
    refine ⟨?_, ?_, hafter⟩
    · rw [withoutColumn_append, hfindings.withoutColumn]
      exact Lowering.items_append h.lowered (by
        simpa using @Lowering.items_cons _ _ _ _ [] _ _ run rfl)
    · rw [withColumn_append, hfindings.withColumn, List.append_nil, h.text]

/-- **A body is compiled as it is read**, whatever is wrong with it. -/
theorem compileBody_reads (p : Parser) (name moduleName : String) :
    ∃ last c, compileBody p name moduleName = .ok (last, c) ∧
      last = p.body.after.clearErrors ∧ withColumn c.diagnostics = p.body.after.diagnostics ∧
      ∀ declarations statements, p.body.value = some (declarations, statements) →
        Program.lower ⟨name, declarations, statements⟩ moduleName =
          .ok { module := c.module, diagnostics := withoutColumn c.diagnostics } := by
  have hstart : Sorted (Stage.start moduleName name).state [] p.errors
      (Stage.start moduleName name).state p.diagnostics :=
    ⟨by rw [Parser.diagnostics, withoutColumn_syntaxErrors]; rfl, withColumn_syntaxErrors _,
      fun d hd => by cases hd⟩
  obtain ⟨progress, ⟨⟨st, hst, h, -⟩, hsorted⟩, run⟩ := compileBody_run sorted_invariant p name
    moduleName List.prefix_rfl ⟨Stage.start_between trivial moduleName name _ _, hstart⟩
  obtain ⟨m, s, hfinish, -⟩ := h.finish
  rw [hst] at hfinish
  refine ⟨_, _, run m s hfinish, rfl, hsorted.text, fun declarations statements hsome => ?_⟩
  have hitems := hsorted.lowered
  rw [readings_of_body ((body_setAside p).1 ▸ hsome)] at hitems
  have hbegun : Lower.beginProgram name (Lowering.new moduleName) =
      .ok (.ok (), (Stage.start moduleName name).state) := rfl
  simp only [Program.lower, hbegun, hitems, hfinish, bind, Except.bind, pure, Except.pure]

/-- A text without a heading. -/
theorem compile_of_none (h : (sourceHeader source options).value = none) :
    compile source options =
      if (sourceHeader source options).after.cutShort then
        .error .overflow
      else
        .ok { module := { name := options.moduleName.getD "" }
              diagnostics := (sourceHeader source options).after.diagnostics } := by
  rw [compile, h]
  rfl

/-- A text with a heading. -/
theorem compile_of_body {name : String} {last : Parser} {c : Compilation}
    (h : (sourceHeader source options).value = some name)
    (hbody : compileBody (sourceHeader source options).after name
      (options.moduleName.getD name) = .ok (last, c)) :
    compile source options = if last.cutShort then .error .overflow else .ok c := by
  rw [compile, h]
  dsimp only
  rw [hbody]
  rfl

/-- **Compiling item by item agrees with compiling at once**, for every text. If a count does not
fit, neither the program can be read nor the text compiled. Otherwise the diagnostics with a column
are the errors that reading the whole program gives, in order; and if that gives a program, with or
without errors, its module and its diagnostics are those of the text that have no column. -/
theorem compile_at_once (source : String) (options : Options) :
    (Program.parse options.tabWidth source = .error .overflow ∧
      compile source options = .error .overflow) ∨
    ∃ parsed c, Program.parse options.tabWidth source = .ok parsed ∧
      compile source options = .ok c ∧
      c.diagnostics.filter (·.column.isSome) = parsed.errors.map .ofSyntaxError ∧
      ∀ program, parsed.value = some program →
        program.lower (options.moduleName.getD program.name) =
          .ok { module := c.module, diagnostics := c.diagnostics.filter (·.column.isNone) } := by
  have hprogram := program_eq_body (Parser.ofString options.tabWidth source)
  cases hname : (sourceHeader source options).value with
  | none =>
    rw [Step.andThen_of_none hname] at hprogram
    have hcompile := compile_of_none hname
    have hparse : Program.parse options.tabWidth source =
        if (sourceHeader source options).after.cutShort then
          .error .overflow
        else
          .ok ⟨none, (sourceHeader source options).after.errors⟩ := by
      rw [Program.parse, Step.finish, hprogram]
    split at hcompile
    · rename_i hcut
      exact Or.inl ⟨hparse.trans (if_pos hcut), hcompile⟩
    · rename_i hcut
      refine Or.inr ⟨_, _, hparse.trans (if_neg hcut), hcompile, withColumn_syntaxErrors _, ?_⟩
      intro program hvalue
      cases hvalue
  | some name =>
    obtain ⟨last, c, hbody, rfl, htext, hlowered⟩ := compileBody_reads
      (sourceHeader source options).after name (options.moduleName.getD name)
    rw [Step.andThen_of_some hname] at hprogram
    have hcompile := compile_of_body hname hbody
    have hparse : Program.parse options.tabWidth source =
        if (sourceHeader source options).after.body.after.cutShort then
          .error .overflow
        else
          .ok ⟨(sourceHeader source options).after.body.value.map fun sections =>
              { name, declarations := sections.1, statements := sections.2 },
            (sourceHeader source options).after.body.after.errors⟩ := by
      rw [Program.parse, Step.finish, hprogram]
      rfl
    split at hcompile
    · rename_i hcut
      exact Or.inl ⟨hparse.trans (if_pos hcut), hcompile⟩
    · rename_i hcut
      refine Or.inr ⟨_, c, hparse.trans (if_neg hcut), hcompile, htext, ?_⟩
      intro program hvalue
      obtain ⟨⟨declarations, statements⟩, hsections, rfl⟩ := Option.map_eq_some_iff.mp hvalue
      exact hlowered declarations statements hsections

/-! ## Texts that can be scanned -/

/-- The scan has an end, and no token was wanted behind it. -/
def Parser.Whole (p : Parser) : Prop :=
  p.ending.isSome = true ∧ p.cutShort = false

theorem pull_whole {ending : Option Ending} (h : ending.isSome = true) (tokens : List Token) :
    (Parser.pull ending tokens).cutShort = false := by
  induction tokens with
  | nil =>
    obtain ⟨e, rfl⟩ := Option.isSome_iff_exists.mp h
    rfl
  | cons t tokens ih =>
    rw [Parser.pull]
    split
    · exact ih
    · split
      · exact ih
      · rfl

/-- A parser is not cut short if the scan has an end. -/
theorem whole_twins : Twins .sharp fun p q => p = q ∧ p.Whole := by
  refine Parser.Kept.twins ⟨fun {p} h => ?_, fun _ _ _ h => h⟩
  unfold Parser.advance
  split
  · exact h
  · refine ⟨h.1, ?_⟩
    change (p.cutShort || (Parser.pull p.ending p.ahead).cutShort) = false
    rw [h.2, pull_whole h.1, Bool.or_false]

theorem ofScan_whole {s : Scan} (h : s.ending.isSome = true) : (Parser.ofScan s).Whole := by
  refine ⟨h, ?_⟩
  change ((Parser.pull s.ending s.tokens).cutShort || _) = false
  rw [pull_whole h, pull_whole h, Bool.or_false]

theorem body_whole {p : Parser} (h : p.Whole) : p.body.after.Whole := by
  have hbody : p.body.Agree (fun p q => p = q ∧ p.Whole) (fun _ => ()) p.body :=
    (whole_twins.items .declarations ⟨rfl, h⟩).andThen fun _ _ _ _ _ _ h' _ =>
      (whole_twins.items .statements h').map fun _ _ _ => rfl
  exact hbody.after.2

/-- **A text that can be scanned to its end can be compiled.** -/
theorem compile_of_scan (h : (Scan.ofString options.tabWidth source).ending.isSome = true) :
    ∃ c, compile source options = .ok c := by
  have hwhole : (sourceHeader source options).after.Whole :=
    (whole_twins.header ⟨rfl, ofScan_whole h⟩).after.2
  have uncut : ∀ {p : Parser}, p.Whole → ¬ p.cutShort = true := fun h => by
    rw [h.2]
    exact Bool.false_ne_true
  cases hname : (sourceHeader source options).value with
  | none => exact ⟨_, (compile_of_none hname).trans (if_neg (uncut hwhole))⟩
  | some name =>
    obtain ⟨last, c, hbody, rfl, -⟩ := compileBody_reads
      (sourceHeader source options).after name (options.moduleName.getD name)
    exact ⟨c, (compile_of_body hname hbody).trans (if_neg (uncut (body_whole hwhole)))⟩

end ProcLang
