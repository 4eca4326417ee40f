import ProcLang.Proofs.Reached

/-!
# Unique names

A name that is handed out ends in a point and a number, and so does no name that is chosen
(`Chosen.ne_numbered`). So it never clashes with a name in the module, whatever has been and will be
lowered:

* `Lowering.Later`: the states that can come behind a state when a program is compiled;
* `Lowering.ClashesOnly`: the only names that were found taken since are those of some procedures;
* `stmt_finds`: a statement finds no names taken but those of the procedures that it declares;
* `unique_names_never_clash`: no unique name is handed out twice or taken by something else, and so
  strings and global variables always get their names.
-/

namespace ProcLang

open Ir Naming Relation Stage

namespace Lowering

variable {s s' s'' : Lowering}

/-- A state of compiling that comes later: lowering took steps, and between two items of the program
the findings were taken out. -/
def Later : Lowering → Lowering → Prop :=
  ReflTransGen fun s s' => Step (isWord · = true) s s' ∨ s' = s.clearFindings

theorem Later.of_steps (h : ReflTransGen (Step (isWord · = true)) s s') : s.Later s' :=
  ReflTransGen.mono (fun _ _ => Or.inl) _ _ h

theorem Later.counter (h : s.Later s') : s.symbols.nextUnique ≤ s'.symbols.nextUnique := by
  induction h with
  | refl => exact Nat.le_refl _
  | tail _ step ih =>
    rcases step with step | rfl
    · exact Nat.le_trans ih step.counter
    · exact ih

theorem Later.sourced (h : s.Later s') (hs : s.Sourced) : s'.Sourced := by
  induction h with
  | refl => exact hs
  | tail _ step ih =>
    rcases step with step | rfl
    · exact ih.step step
    · exact ih

/-! ## Names that are found taken -/

/-- Errors were added. Those that say that a name is taken are about names of the list. -/
def ClashesOnly (names : List String) (s s' : Lowering) : Prop :=
  ∃ new, s'.errors = s.errors ++ new ∧
    ∀ e ∈ new, ∀ x, e.cause = .nameTaken x → x.name ∈ names

variable {names : List String}

theorem ClashesOnly.same (h : s'.errors = s.errors) : ClashesOnly names s s' :=
  ⟨[], by rw [h, List.append_nil], fun e he => by cases he⟩

theorem ClashesOnly.free {new : List LowerError} (h : s'.errors = s.errors ++ new)
    (hfree : ∀ e ∈ new, e.cause.Free) : ClashesOnly names s s' := by
  refine ⟨new, h, fun e he x hx => ?_⟩
  have := hfree e he
  rw [hx] at this
  exact this.elim

theorem ClashesOnly.trans (h1 : ClashesOnly names s s') (h2 : ClashesOnly names s' s'') :
    ClashesOnly names s s'' := by
  obtain ⟨new1, herrors1, hnames1⟩ := h1
  obtain ⟨new2, herrors2, hnames2⟩ := h2
  refine ⟨new1 ++ new2, by rw [herrors2, herrors1, List.append_assoc], fun e he => ?_⟩
  rcases List.mem_append.mp he with he | he
  · exact hnames1 e he
  · exact hnames2 e he

theorem ClashesOnly.mono {more : List String} (h : ClashesOnly names s s') (hsub : names ⊆ more) :
    ClashesOnly more s s' := by
  obtain ⟨new, herrors, hnames⟩ := h
  exact ⟨new, herrors, fun e he x hx => hsub (hnames e he x hx)⟩

/-- A plain step finds no name taken, since unique names are free. -/
theorem Plain.clashes {declared : String → Prop} (h : s.Fresh) (step : Plain declared s s') :
    ClashesOnly names s s' := by
  cases step with
  | report free => exact .free rfl free
  | @clash hint taken line =>
    rw [h.uniqueName hint] at taken
    cases taken
  | _ => exact .same rfl

/-- The same for other steps, where no procedure can be declared. -/
theorem Step.clashes (h : s.Fresh) (step : Step (fun _ => False) s s') :
    ClashesOnly names s s' := by
  cases step with
  | plain step => exact step.clashes h
  | refuse known => exact known.elim
  | _ => exact .same rfl

end Lowering

/-- From a state whose names are sourced, every run ends at such a state, and found no names taken
but those of the list. -/
def Finds {α : Type} (names : List String) (s : Lowering) (x : Lower α) : Prop :=
  s.Sourced → ∀ a s', x s = .ok (a, s') → s'.Sourced ∧ s.ClashesOnly names s'

section Finds

variable {α β : Type} {names : List String} {s : Lowering} {x : Lower α}

theorem Finds.bind {f : α → Lower β} (hx : Finds names s x)
    (hf : ∀ a s', x s = .ok (a, s') → Finds names s' (f a)) : Finds names s (x >>= f) := by
  intro h b s'' run
  obtain ⟨a, s', run1, run2⟩ := run_bind_inv run
  obtain ⟨h', hclash⟩ := hx h a s' run1
  obtain ⟨h'', hclash'⟩ := hf a s' run1 h' b s'' run2
  exact ⟨h'', hclash.trans hclash'⟩

theorem Finds.mono {more : List String} (hx : Finds names s x) (hsub : names ⊆ more) :
    Finds more s x := by
  intro h a s' run
  obtain ⟨h', hclash⟩ := hx h a s' run
  exact ⟨h', hclash.mono hsub⟩

/-- Steps find no name taken if none of them does. -/
theorem Goes.finds_of {step : Lowering → Lowering → Prop}
    (hwords : ∀ {s s'}, step s s' → Lowering.Step (isWord · = true) s s')
    (hclash : ∀ {s s'}, s.Fresh → step s s' → Lowering.ClashesOnly names s s')
    (hx : Goes step s x) : Finds names s x := by
  intro h a s' run
  have steps := hx a s' run
  clear run
  induction steps with
  | refl => exact ⟨h, .same rfl⟩
  | tail _ step ih => exact ⟨ih.1.step (hwords step), ih.2.trans (hclash ih.1.fresh step)⟩

theorem Goes.finds (hx : Goes (Lowering.Step fun _ => False) s x) : Finds names s x :=
  hx.finds_of (·.mono False.elim) fun h step => step.clashes h

theorem Walks.finds_plain {n : Nat} (hx : Walks (Lowering.Plain (isWord · = true)) n s x) :
    Finds names s x :=
  hx.goes.finds_of .plain fun h step => step.clashes h

theorem Walks.finds {n : Nat} (hx : Walks (Lowering.Step fun _ => False) n s x) : Finds names s x :=
  hx.goes.finds

end Finds

/-! ## The path of the scopes -/

namespace Lowering

variable {s s' s1 s2 : Lowering}

/-- What the names of procedures that are declared here start with. -/
def path (s : Lowering) : String :=
  SymbolTable.path s.symbols.locals.dropLast

theorem path_build {α : Type} {y : Build α} {a : α} (run : Lower.build y s = .ok (a, s')) :
    s'.path = s.path := by
  obtain ⟨b, -, rfl⟩ := build_inv run
  rfl

theorem path_fallThrough {target : Ir.Cursor} {ended : Bool}
    (run : Lower.fallThrough target s = .ok (ended, s')) : s'.path = s.path := by
  obtain ⟨ended', s1, run1, run2⟩ := run_bind_inv run
  cases ended' with
  | true =>
    cases run2
    exact path_build run1
  | false =>
    obtain ⟨_, s2, run3, run4⟩ := run_bind_inv run2
    cases run4
    exact (path_build run3).trans (path_build run1)

namespace Reached

theorem path_stmt (h : s.Reached) {stmt : Stmt} {r : Result × Stmt}
    (run : stmt.lower s = .ok (r, s')) : s'.path = s.path := by
  obtain ⟨st, rfl, hs⟩ := h.sound
  obtain ⟨st', rfl, -, hflows, -⟩ := (stmt_flows stmt hs).of_run run
  exact hflows.path

theorem path_block (h : s.Reached) {stmts : List Stmt} {r : Result × List Stmt}
    (run : lowerBlock none stmts s = .ok (r, s')) : s'.path = s.path := by
  obtain ⟨st, rfl, hs⟩ := h.sound
  obtain ⟨st', rfl, -, hflows, -⟩ := (block_flows stmts hs).of_run run
  exact hflows.path

theorem path_arm (h : s.Reached) {cond : Expr} {alternative : Bool}
    {r : Expr × Ir.Cursor × Ir.Cursor}
    (run : Lower.openBranch cond alternative s = .ok (r, s')) : s'.path = s.path := by
  obtain ⟨st, rfl, hs⟩ := h.sound
  obtain ⟨base, -, hflows, hopen⟩ := openBranch_continues hs cond alternative
  obtain ⟨st', rfl, -, hroams, -⟩ := hopen.of_run run
  exact hroams.path.trans hflows.path

theorem path_body (h : s.Reached) {line : Nat} {dest dest' : Place} {value value' cond cond' : Expr}
    {blocks : Lower.LoopBlocks}
    (run1 : Lower.openLoop line dest value s = .ok ((dest', value', blocks), s1))
    (run2 : Lower.openRound cond blocks s1 = .ok (cond', s2)) : s2.path = s.path := by
  obtain ⟨st, rfl, hs⟩ := h.sound
  obtain ⟨base, hbase, hflows, hopen⟩ := openLoop_continues hs line dest value
  obtain ⟨st1, rfl, hs1, hroams1, c, b, e, hblocks, -, hb, he, hp⟩ := hopen.of_run run1
  cases hblocks
  obtain ⟨st2, rfl, -, hroams2, -⟩ :=
    (openRound_continues hs1 hbase hroams1 cond _ hb he hp).of_run run2
  exact hroams2.path.trans hflows.path

theorem path_procedure (h : s.Reached) {line : Nat} {heading : Heading} {opened : Lower.Opened}
    (run1 : Lower.openProcedure line heading s = .ok (some opened, s1))
    (run2 : Lower.enterProcedure heading.name opened s1 = .ok ((), s2)) :
    s2.path = s.path ++ heading.name ++ "." := by
  obtain ⟨st, rfl, hs⟩ := h.sound
  obtain ⟨inner, rfl, -, hpath⟩ := procedure_of_run hs run1 run2
  exact hpath

end Reached

end Lowering

/-! ## Statements -/

/-- A procedure may find its own name taken. -/
theorem openProcedure_finds {s : Lowering} (line : Nat) {heading : Heading}
    (hword : isWord heading.name = true) :
    Finds [s.path ++ heading.name] s (Lower.openProcedure line heading) := by
  intro h a s' run
  refine ⟨h.goes (openProcedure_walks line hword) run, ?_⟩
  by_cases hproper : heading.Proper
  · obtain ⟨ret, params, -, hrun⟩ := Lower.openProcedure_proper s line hproper
    rw [hrun] at run
    split at run
    · cases run
      refine .free rfl fun e he => ?_
      rw [List.mem_singleton.mp he]
      trivial
    · split at run
      · cases run
        refine ⟨_, rfl, fun e he x hx => ?_⟩
        rw [List.mem_singleton.mp he] at hx
        cases hx
        exact List.mem_singleton.mpr rfl
      · cases run
        exact .same rfl
  · rw [Lower.openProcedure_improper s line hproper] at run
    cases run
    exact .free rfl Heading.findings_free

/-- A procedure finds in its body what the body finds. -/
theorem procedure_finds {α : Type} {names : List String} {s : Lowering} (line : Nat) (name : String)
    (opened : Lower.Opened) {body : Lower (Result × α)}
    (hbody : ∀ s', Lower.enterProcedure name opened s = .ok ((), s') → Finds names s' body) :
    Finds names s (Lower.procedure line name opened body) := by
  rw [Lower.procedure_eq]
  refine Finds.bind (walks_get (walks_pure s)).finds ?_
  rintro _ _ ⟨⟩
  refine (enterProcedure_walks _ _).finds.bind fun _ s1 run1 =>
    (hbody s1 run1).bind fun r s2 _ => ?_
  exact (closeProcedure_walks _ _ _ _ _ _).finds

mutual

/-- **A statement** finds no names taken but those of the procedures that it declares. -/
theorem stmt_finds : ∀ (stmt : Stmt) {s : Lowering}, s.Reached →
    stmt.DeclaresOnly (isWord · = true) →
    Finds ((stmt.procedures s.path).map Prod.fst) s stmt.lower
  | .assign dest value line, s, _, _ =>
    (@stmt_walks (fun _ => False) (.assign dest value line) trivial s).finds
  | .call call line, s, _, _ =>
    (@stmt_walks (fun _ => False) (.call call line) trivial s).finds
  | .declareType name mark isGlobal line, s, _, _ =>
    (@stmt_walks (fun _ => False) (.declareType name mark isGlobal line) trivial s).finds
  | .result value line, s, _, _ =>
    (@stmt_walks (fun _ => False) (.result value line) trivial s).finds
  | .declare decl line, s, _, hword => by
    rw [Stmt.lower]
    exact Walks.finds_plain (Walks.giving (declareVariable_walks hword s) _)
  | .branch cond yes none line, s, h, hwords => by
    rw [branch_eq, Stmt.procedures]
    refine (openBranch_walks cond false s).finds.bind fun r s1 run1 => ?_
    have hyes := block_finds yes none (.arm h run1) hwords
    rw [h.path_arm run1] at hyes
    exact hyes.bind fun _ s2 _ => Walks.finds ((fallThrough_walks _).next fun _ _ =>
      (moveTo_walks _).giving _)
  | .branch cond yes (some no) line, s, h, hwords => by
    rw [branchElse_eq, Stmt.procedures, List.map_append]
    refine (openBranch_walks cond true s).finds.bind ?_
    rintro ⟨lowered, noBlock, merge⟩ s1 run1
    have hyes := block_finds yes none (.arm h run1) hwords.1
    rw [h.path_arm run1] at hyes
    refine (hyes.mono (List.subset_append_left _ _)).bind fun _ s2 run2 => ?_
    refine (fallThrough_walks _).finds.bind fun _ s3 run3 => ?_
    refine (moveTo_walks _).finds.bind fun _ s4 run4 => ?_
    have hno := block_finds no none (.alternative h run1 hwords.1 run2 run3 run4) hwords.2
    have hpath : s4.path = s.path := by
      rw [Lowering.path_build run4, Lowering.path_fallThrough run3,
        (Lowering.Reached.arm h run1).path_block run2, h.path_arm run1]
    rw [hpath] at hno
    refine (hno.mono (List.subset_append_right _ _)).bind fun _ s5 _ => ?_
    refine Walks.finds (n := 1 + (1 + 1)) ?_
    refine (fallThrough_walks _).next fun _ _ => (moveTo_walks _).next fun _ _ => ?_
    split
    · exact Walks.giving (terminator_walks rfl) _
    · exact (walks_pure _).free
  | .loop dest value cond body line, s, h, hwords => by
    rw [loop_eq, Stmt.procedures]
    refine (openLoop_walks line dest value s).finds.bind ?_
    rintro ⟨dest', value', blocks⟩ s1 run1
    refine (openRound_walks cond blocks s1).finds.bind fun cond' s2 run2 => ?_
    have hbody := block_finds body none (.body h run1 run2) hwords
    rw [h.path_body run1 run2] at hbody
    exact hbody.bind fun _ s3 _ => Walks.finds ((fallThrough_walks _).next fun _ _ =>
      (moveTo_walks _).giving _)
  | .procedure heading body line, s, h, hwords => by
    rw [Stmt.lower, Stmt.procedures, List.map_cons]
    refine ((openProcedure_finds line hwords.1).mono ?_).bind fun opened s1 run1 => ?_
    · exact List.cons_subset_cons _ (List.nil_subset _)
    cases opened with
    | none => exact (walks_pure _).finds
    | some opened =>
      refine (procedure_finds line _ opened fun s2 run2 => ?_).bind fun _ _ _ =>
        (walks_pure _).finds
      have hbody := block_finds body none (.procedure h hwords.1 run1 run2) hwords.2
      rw [h.path_procedure run1 run2] at hbody
      exact hbody.mono (List.subset_cons_self _ _)

/-- **Statements in order** find no names taken but those of the procedures that they declare. -/
theorem block_finds : ∀ (stmts : List Stmt) (last : Result) {s : Lowering}, s.Reached →
    BlockDeclaresOnly (isWord · = true) stmts →
    Finds ((blockProcedures s.path stmts).map Prod.fst) s (lowerBlock last stmts)
  | [], last, s, _, _ => by
    rw [lowerBlock]
    exact (walks_pure _).finds
  | stmt :: stmts, last, s, h, hwords => by
    rw [lowerBlock, blockProcedures, List.map_append]
    refine ((stmt_finds stmt h hwords.1).mono (List.subset_append_left _ _)).bind ?_
    intro r s1 run1
    have hrest := block_finds stmts (r.1.or last) (.stmt h hwords.1 run1) hwords.2
    rw [h.path_stmt run1] at hrest
    exact (hrest.mono (List.subset_append_right _ _)).bind fun _ _ _ => (walks_pure _).finds

end

/-! ## No clashes -/

/-- A string gets a unique name, if that is free. -/
theorem Lower.literal_named {s : Lowering}
    (hfree : s.module.hasSymbol (s.symbols.uniqueName "str") = false) (line : Nat) (text : String) :
    literal line (.string text) s = .ok (some (.address (s.symbols.uniqueName "str"), .string),
      { s with symbols := s.symbols.tick }.withGlobal
        ⟨s.symbols.uniqueName "str", .array (Build.textLength text) .i8, .text text⟩) := by
  have hadd : build (.globalText (s.symbols.uniqueName "str") text)
      { s with symbols := s.symbols.tick } = _ := build_run (Build.addGlobal_new hfree)
  rw [literal, run_bind (uniqueName_run s _), run_bind hadd]
  rfl

/-- A name that was handed out is never handed out again. -/
theorem Lowering.Later.uniqueName_ne {s s' : Lowering} (h : s.Later s') {hint : String} {n : Nat}
    (hn : n < s.symbols.nextUnique) (hint' : String) :
    s'.symbols.uniqueName hint' ≠ numbered hint n := by
  intro heq
  have hcounter := h.counter
  have hnumber : s'.symbols.nextUnique = n := (numbered_inj heq).2
  omega

/-- **Generated names never clash.** A unique name is none that the module has, none that is chosen
for anything, and it is not handed out again; every name in the module, then and later, was chosen
or handed out. So strings always get a name, and so do global variables whose own names are taken.
The only names that are found taken are those of procedures. -/
theorem unique_names_never_clash {s : Lowering} (h : s.Reached) :
    (∀ hint unique s1, Lower.uniqueName hint s = .ok (unique, s1) →
      unique ∉ s.module.names ∧ (∀ name, Chosen name → name ≠ unique) ∧
        ∀ s', s1.Later s' →
          (∀ hint', s'.symbols.uniqueName hint' ≠ unique) ∧
            ∀ name ∈ s'.module.names, Chosen name ∨ Issued s'.symbols.nextUnique name) ∧
    (∀ line text, Lower.literal line (.string text) s =
      .ok (some (.address (s.symbols.uniqueName "str"), .string),
        { s with symbols := s.symbols.tick }.withGlobal
          ⟨s.symbols.uniqueName "str", .array (Build.textLength text) .i8, .text text⟩)) ∧
    (∀ line name storage ty kind, s.module.hasSymbol name = true →
      Lower.globalStorage line name storage ty kind s =
        .ok (some ⟨name, .address (s.symbols.uniqueName name), ty, kind,
            some (s.symbols.uniqueName name), none⟩,
          { s with symbols := s.symbols.tick }.withGlobal
            ⟨s.symbols.uniqueName name, storage, .variable⟩)) ∧
    (∀ (stmt : Stmt) r s', stmt.DeclaresOnly (isWord · = true) → stmt.lower s = .ok (r, s') →
      s.Later s' ∧ s.ClashesOnly ((stmt.procedures s.path).map Prod.fst) s') ∧
    (∀ m s', Lower.finish s = .ok (m, s') → s.Later s' ∧ s.ClashesOnly [] s') := by
  refine ⟨?_, Lower.literal_named
    (h.fresh.uniqueName _), fun line name storage ty kind htaken => ?_,
    fun stmt r s' hwords run => ?_, fun m s' run => ?_⟩
  · rintro hint _ _ ⟨⟩
    refine ⟨fun hmem => ?_, fun name hchosen => hchosen.ne_numbered _ _, fun s' hlater => ?_⟩
    · exact Nat.lt_irrefl _ (h.fresh _ _ hmem)
    · refine ⟨hlater.uniqueName_ne (Nat.lt_succ_self _), hlater.sourced fun name hmem => ?_⟩
      exact (h.sourced name hmem).imp id (·.mono (Nat.le_succ _))
  · exact Lower.globalStorage_renamed htaken (h.fresh.uniqueName name) line storage ty kind
  · exact ⟨.of_steps (stmt_goes hwords s r s' run), (stmt_finds stmt h hwords h.sourced r s' run).2⟩
  · exact ⟨.of_steps (finish_goes s m s' run), ((finish_goes s).finds h.sourced m s' run).2⟩

/-- A procedure with a string. -/
def greeting : Stmt :=
  .procedure ⟨"f", .builtin .integer, [], false⟩
    [.call (.call "putstring" [.literal (.string "hi") 1 none] 1 none) 1,
      .result (.literal (.integer 0) 1 none) 1] 1

/-- Behind it a name was handed out and the name of the procedure is taken. The next string has a
name of its own, and so has a global variable with the name of the procedure. -/
theorem names_behind_greeting :
    ∃ s : Lowering, s.Reached ∧ "t.f.str.0" ∈ s.module.names ∧ s.module.hasSymbol "f" = true ∧
      Lower.literal 2 (.string "hi") s = .ok (some (.address "t.str.1", .string),
        { s with symbols := s.symbols.tick }.withGlobal
          ⟨"t.str.1", .array (Build.textLength "hi") .i8, .text "hi"⟩) ∧
      Lower.globalStorage 2 "f" .i32 .integer .variable s =
        .ok (some ⟨"f", .address "t.f.1", .integer, .variable, some "t.f.1", none⟩,
          { s with symbols := s.symbols.tick }.withGlobal ⟨"t.f.1", .i32, .variable⟩) := by
  have hrun : ((greeting.lower (Stage.start "m" "t").state).toOption.map fun r =>
      (r.2.module.names, r.2.module.hasSymbol "f", r.2.symbols.uniqueName "str",
        r.2.symbols.uniqueName "f")) =
      some (["t.f.str.0", "putstring", "main", "f"], true, "t.str.1", "t.f.1") := by decide +kernel
  obtain ⟨⟨r, s⟩, hmem, hs⟩ := Option.map_eq_some_iff.mp hrun
  simp only [Prod.mk.injEq] at hs
  obtain ⟨hnames, htaken, hstring, hglobal⟩ := hs
  have hwords : greeting.DeclaresOnly (isWord · = true) := ⟨by decide, trivial, trivial, trivial⟩
  have hreached : s.Reached :=
      .stmt (.start (begin_run "m" "t")) hwords (eq_ok_of_mem_toOption hmem)
  obtain ⟨-, hstrings, hglobals, -⟩ := unique_names_never_clash hreached
  refine ⟨s, hreached, by rw [hnames]; decide, htaken, ?_, ?_⟩
  · rw [← hstring]
    exact hstrings 2 "hi"
  · rw [← hglobal]
    exact hglobals 2 "f" .i32 .integer .variable htaken

end ProcLang
