import ProcLang.Proofs.Meaning.Reading
import ProcLang.Proofs.Outline.Labels
import ProcLang.Proofs.Trailing

/-!
# Outlines determine programs

The outline of a program says all about it but the lines of expressions, of mentions of variables
and of declared variables. Two programs that were read have the same outline if and only if they
agree in the rest (`parse_outline_eq_iff`).

The entries of an outline follow the tree (`Stmt.entry`). By the layout and the labels, the text of
an outline determines its entries, and the entries determine the tree (`Expr.entry_inj`,
`Stmt.entry_inj`): what a line is about tells the constructor, and its text and the entries below
tell the rest.
-/

namespace ProcLang

open Outline Ir

/-! ## Entries -/

mutual

/-- The entry for an expression. -/
def Expr.entry : Expr → Entry Label
  | .literal value _ _ => .node value.label []
  | .read place _ _ => place.entry
  | .not operand _ _ => .node ⟨"", .not, ""⟩ [operand.entry]
  | .binary op lhs rhs _ _ => .node ⟨"", .binary, op.name⟩ [lhs.entry, rhs.entry]
  | .call callee args _ _ => .node ⟨"", .call, " " ++ callee⟩ (argEntries args)

/-- The entry for a mention of a variable. -/
def Place.entry : Place → Entry Label
  | .whole name negated _ => .node ⟨if negated then "-" else "", .var, name⟩ []
  | .element name index negated _ => .node ⟨if negated then "-" else "", .var, name⟩ [index.entry]

/-- The entries for arguments. -/
def argEntries : List Expr → List (Entry Label)
  | [] => []
  | arg :: args => arg.entry :: argEntries args

end

/-- The entry for an assignment. -/
def assignEntry (dest : Place) (value : Expr) (line : Nat) : Entry Label :=
  .node ⟨"", .assign, lineNote line⟩ [dest.entry, value.entry]

mutual

/-- The entry for a statement. -/
def Stmt.entry : Stmt → Entry Label
  | .assign dest value line => assignEntry dest value line
  | .declare decl line =>
    .node ⟨globalMarker decl.isGlobal, .var, decl.signature ++ lineNote line⟩ []
  | .declareType name mark isGlobal line =>
    .node ⟨globalMarker isGlobal, .type, name ++ (" is " ++ (mark.render ++ lineNote line))⟩ []
  | .branch cond yes none line =>
    .node ⟨"", .branch, lineNote line⟩ [cond.entry, .node ⟨"", .yes, ""⟩ (blockEntries yes)]
  | .branch cond yes (some no) line =>
    .node ⟨"", .branch, lineNote line⟩
      [cond.entry, .node ⟨"", .yes, ""⟩ (blockEntries yes), .node ⟨"", .no, ""⟩ (blockEntries no)]
  | .loop dest value cond body line =>
    .node ⟨"", .loop, lineNote line⟩
      [assignEntry dest value line, cond.entry, .node ⟨"", .body, ""⟩ (blockEntries body)]
  | .result value line => .node ⟨"", .result, lineNote line⟩ [value.entry]
  | .procedure heading body line =>
    .node ⟨globalMarker heading.isGlobal, .procedure, heading.rest line⟩ (blockEntries body)
  | .call call line => .node ⟨"", .call, lineNote line⟩ [call.entry]

/-- The entries for statements that follow each other. -/
def blockEntries : List Stmt → List (Entry Label)
  | [] => []
  | stmt :: stmts => stmt.entry :: blockEntries stmts

end

/-- The line between the declarations of a program and its statements. -/
def mainEntry : Entry Label := .node ⟨"", .main, ""⟩ []

/-- The entry for a program. -/
def Program.entry (program : Program) : Entry Label :=
  .node ⟨"", .program, program.name⟩
    (blockEntries program.declarations ++ mainEntry :: blockEntries program.statements)

/-! ## The text of an outline -/

theorem Literal.label_text (value : Literal) : value.label.text = value.outline := by
  cases value <;> rfl

mutual

theorem Expr.render_entry (level : Nat) : ∀ e : Expr,
    e.entry.render Label.text level = e.outline level
  | .literal value _ _ => by
    rw [Expr.entry, Entry.render, renderAll, Literal.label_text, String.append_empty, Expr.outline]
  | .read place _ _ => by rw [Expr.entry, place.render_entry level, Expr.outline]
  | .not operand _ _ => by simp [Expr.entry, Expr.outline, operand.render_entry]
  | .binary op lhs rhs _ _ => by
    simp [Expr.entry, Expr.outline, lhs.render_entry, rhs.render_entry, String.append_assoc]
  | .call callee args _ _ => by
    simp [Expr.entry, Expr.outline, render_argEntries _ args, ← String.append_assoc]

theorem Place.render_entry (level : Nat) : ∀ place : Place,
    place.entry.render Label.text level = place.outline level
  | .whole name negated _ => by simp [Place.entry, Place.outline]
  | .element name index negated _ => by simp [Place.entry, Place.outline, index.render_entry]

theorem render_argEntries (level : Nat) : ∀ args : List Expr,
    renderAll Label.text level (argEntries args) = outlineArgs level args
  | [] => rfl
  | arg :: args => by
    rw [argEntries, renderAll, arg.render_entry, render_argEntries level args, outlineArgs]

end

theorem render_assignEntry (level : Nat) (dest : Place) (value : Expr) (line : Nat) :
    (assignEntry dest value line).render Label.text level =
      outlineAssign level dest value line := by
  simp [assignEntry, outlineAssign, Place.render_entry, Expr.render_entry, String.append_assoc]

mutual

theorem Stmt.render_entry (level : Nat) : ∀ stmt : Stmt,
    stmt.entry.render Label.text level = stmt.outline level
  | .assign dest value line => render_assignEntry level dest value line
  | .declare decl line => by simp [Stmt.entry, Stmt.outline, String.append_assoc]
  | .declareType name mark isGlobal line => by simp [Stmt.entry, Stmt.outline, String.append_assoc]
  | .branch cond yes none line => by
    simp [Stmt.entry, Stmt.outline, String.append_assoc, Expr.render_entry,
      render_blockEntries _ yes]
  | .branch cond yes (some no) line => by
    simp [Stmt.entry, Stmt.outline, String.append_assoc, Expr.render_entry,
      render_blockEntries _ yes, render_blockEntries _ no]
  | .loop dest value cond body line => by
    simp [Stmt.entry, Stmt.outline, String.append_assoc, Expr.render_entry,
      render_assignEntry, render_blockEntries _ body]
  | .result value line => by simp [Stmt.entry, Stmt.outline, Expr.render_entry]
  | .procedure heading body line => by
    simp [Stmt.entry, Stmt.outline, Heading.rest, Heading.outline, commaSeparated,
      String.append_assoc, render_blockEntries _ body]
  | .call call line => by simp [Stmt.entry, Stmt.outline, Expr.render_entry]

theorem render_blockEntries (level : Nat) : ∀ stmts : List Stmt,
    renderAll Label.text level (blockEntries stmts) = outlineBlock level stmts
  | [] => rfl
  | stmt :: stmts => by
    rw [blockEntries, renderAll, stmt.render_entry, render_blockEntries level stmts, outlineBlock]

end

theorem Program.render_entry (program : Program) :
    program.entry.render Label.text 0 = program.outline := by
  simp [Program.entry, mainEntry, renderAll_append, Program.outline, render_blockEntries,
    String.append_assoc]

/-! ## Entries of trees that were read -/

mutual

theorem Expr.AsRead.entry_fair : ∀ {e : Expr}, e.AsRead Identifier → e.entry.Fair Label.Fair
  | .literal value _ _, _ => ⟨value.label_fair, trivial⟩
  | .read _ _ _, h => h.1.entry_fair
  | .not _ _ _, h => ⟨label_fair (by decide) (by decide), h.1.entry_fair, trivial⟩
  | .binary op _ _ _ _, h =>
    ⟨label_fair (by decide) (by cases op <;> decide), h.1.entry_fair, h.2.1.entry_fair, trivial⟩
  | .call _ _ _ _, h =>
    ⟨label_fair (by decide) (oneLine_append.mpr ⟨by decide, oneLine_name h.1⟩),
      argEntries_fair h.2.1⟩

theorem Place.AsRead.entry_fair : ∀ {place : Place}, place.AsRead Identifier →
    place.entry.Fair Label.Fair
  | .whole _ negated _, h => ⟨label_fair (by cases negated <;> decide) (oneLine_name h), trivial⟩
  | .element _ _ negated _, h =>
    ⟨label_fair (by cases negated <;> decide) (oneLine_name h.1), h.2.entry_fair, trivial⟩

theorem argEntries_fair : ∀ {args : List Expr}, ArgsAsRead Identifier args →
    AllFair Label.Fair (argEntries args)
  | [], _ => trivial
  | _ :: _, h => ⟨h.1.entry_fair, argEntries_fair h.2⟩

end

theorem assignEntry_fair {dest : Place} {value : Expr} (hdest : dest.AsRead Identifier)
    (hvalue : value.AsRead Identifier) (line : Nat) :
    (assignEntry dest value line).Fair Label.Fair :=
  ⟨label_fair (by decide) (oneLine_note line), hdest.entry_fair, hvalue.entry_fair, trivial⟩

mutual

theorem Stmt.AsRead.entry_fair : ∀ {stmt : Stmt}, stmt.AsRead Identifier →
    stmt.entry.Fair Label.Fair
  | .assign _ _ line, h => assignEntry_fair h.1 h.2 line
  | .declare decl line, h =>
    ⟨label_fair (by cases decl.isGlobal <;> decide)
      (oneLine_append.mpr ⟨oneLine_signature h, oneLine_note line⟩), trivial⟩
  | .declareType name mark isGlobal line, h => by
    refine ⟨label_fair (by cases isGlobal <;> decide) ?_, trivial⟩
    simp only [oneLine_append]
    exact ⟨oneLine_name h.1, by decide, oneLine_mark h.2, oneLine_note line⟩
  | .branch _ _ none line, h =>
    ⟨label_fair (by decide) (oneLine_note line), h.1.entry_fair,
      ⟨label_fair (by decide) (by decide), blockEntries_fair h.2⟩, trivial⟩
  | .branch _ _ (some _) line, h =>
    ⟨label_fair (by decide) (oneLine_note line), h.1.entry_fair,
      ⟨label_fair (by decide) (by decide), blockEntries_fair h.2.1⟩,
      ⟨label_fair (by decide) (by decide), blockEntries_fair h.2.2⟩, trivial⟩
  | .loop _ _ _ _ line, h =>
    ⟨label_fair (by decide) (oneLine_note line), assignEntry_fair h.1 h.2.1 line,
      h.2.2.1.entry_fair, ⟨label_fair (by decide) (by decide), blockEntries_fair h.2.2.2⟩, trivial⟩
  | .result _ line, h => ⟨label_fair (by decide) (oneLine_note line),
    Expr.AsRead.entry_fair h, trivial⟩
  | .procedure heading _ line, h =>
    ⟨label_fair (by cases heading.isGlobal <;> decide) (oneLine_heading h.1 line),
      blockEntries_fair h.2⟩
  | .call _ line, h => ⟨label_fair (by decide) (oneLine_note line),
    Expr.AsRead.entry_fair h, trivial⟩

theorem blockEntries_fair : ∀ {stmts : List Stmt}, BlockAsRead Identifier stmts →
    AllFair Label.Fair (blockEntries stmts)
  | [], _ => trivial
  | _ :: _, h => ⟨h.1.entry_fair, blockEntries_fair h.2⟩

end

/-! ## Trees from entries -/

theorem BinaryOp.name_inj {op op' : BinaryOp} (h : op.name = op'.name) : op = op' := by
  cases op <;> cases op' <;> first | rfl | exact absurd h (by decide)

theorem negation_inj {negated negated' : Bool}
    (h : (if negated then "-" else "") = if negated' then "-" else "") : negated = negated' := by
  cases negated <;> cases negated' <;> first | rfl | exact absurd h (by decide)

theorem globalMarker_inj {isGlobal isGlobal' : Bool}
    (h : globalMarker isGlobal = globalMarker isGlobal') : isGlobal = isGlobal' := by
  cases isGlobal <;> cases isGlobal' <;> first | rfl | exact absurd h (by decide)

/-- What an entry is about. -/
def Outline.Entry.kind : Entry Label → Kind
  | .node label _ => label.kind

/-- What the entry for an expression is about. -/
def Expr.kind : Expr → Kind
  | .literal value _ _ => value.label.kind
  | .read _ _ _ => .var
  | .not _ _ _ => .not
  | .binary _ _ _ _ _ => .binary
  | .call _ _ _ _ => .call

theorem Expr.kind_entry (e : Expr) : e.entry.kind = e.kind := by
  cases e with
  | read place => cases place <;> rfl
  | _ => rfl

theorem Expr.kind_eq {e e' : Expr} (h : e.entry = e'.entry) : e.kind = e'.kind := by
  rw [← kind_entry, h, kind_entry]

mutual

/-- **Expressions** that were read are determined by their entries, but for the lines. -/
theorem Expr.entry_inj : ∀ {e e' : Expr}, e.AsRead Identifier → e'.AsRead Identifier →
    e.entry = e'.entry → e.unlined = e'.unlined
  | .literal value _ _, e', h, h', heq => by
    cases e' with
    | literal value' _ _ =>
      rw [Expr.unlined, Expr.unlined, Literal.label_inj h.1 h'.1 (Entry.node.inj heq).1, h.2, h'.2]
    | _ => cases value <;> cases Expr.kind_eq heq
  | .read place _ _, e', h, h', heq => by
    rcases e' with ⟨⟨⟩⟩ | _ | _ | _ | _ <;> cases Expr.kind_eq heq
    rw [Expr.unlined, Expr.unlined, Place.entry_inj h.1 h'.1 heq, h.2, h'.2]
  | .not operand _ _, e', h, h', heq => by
    rcases e' with ⟨⟨⟩⟩ | _ | _ | _ | _ <;> cases Expr.kind_eq heq
    simp only [Expr.entry, Entry.node.injEq, List.cons.injEq] at heq
    rw [Expr.unlined, Expr.unlined, Expr.entry_inj h.1 h'.1 heq.2.1, h.2, h'.2]
  | .binary op lhs rhs _ _, e', h, h', heq => by
    rcases e' with ⟨⟨⟩⟩ | _ | _ | _ | _ <;> cases Expr.kind_eq heq
    simp only [Expr.entry, Entry.node.injEq, Label.mk.injEq, List.cons.injEq] at heq
    obtain ⟨⟨-, -, hop⟩, hlhs, hrhs, -⟩ := heq
    rw [Expr.unlined, Expr.unlined, BinaryOp.name_inj hop, Expr.entry_inj h.1 h'.1 hlhs,
      Expr.entry_inj h.2.1 h'.2.1 hrhs, h.2.2, h'.2.2]
  | .call callee args _ _, e', h, h', heq => by
    rcases e' with ⟨⟨⟩⟩ | _ | _ | _ | _ <;> cases Expr.kind_eq heq
    simp [Expr.entry] at heq
    rw [Expr.unlined, Expr.unlined, heq.1, argEntries_inj h.2.1 h'.2.1 heq.2, h.2.2, h'.2.2]

theorem Place.entry_inj : ∀ {place place' : Place}, place.AsRead Identifier →
    place'.AsRead Identifier → place.entry = place'.entry → place.unlined = place'.unlined
  | .whole name negated _, .whole name' negated' _, _, _, heq => by
    obtain ⟨hnegated, hname⟩ := Label.mk.inj (Entry.node.inj heq).1
    rw [Place.unlined, Place.unlined, negation_inj hnegated, hname.2]
  | .whole _ _ _, .element _ _ _ _, _, _, heq => by cases (Entry.node.inj heq).2
  | .element _ _ _ _, .whole _ _ _, _, _, heq => by cases (Entry.node.inj heq).2
  | .element name index negated _, .element name' index' negated' _, h, h', heq => by
    obtain ⟨hlabel, hbelow⟩ := Entry.node.inj heq
    obtain ⟨hnegated, -, hname⟩ := Label.mk.inj hlabel
    rw [Place.unlined, Place.unlined, negation_inj hnegated, hname,
      Expr.entry_inj h.2 h'.2 (List.cons.inj hbelow).1]

theorem argEntries_inj : ∀ {args args' : List Expr}, ArgsAsRead Identifier args →
    ArgsAsRead Identifier args' → argEntries args = argEntries args' →
      argsUnlined args = argsUnlined args'
  | [], [], _, _, _ => rfl
  | [], _ :: _, _, _, heq => by cases heq
  | _ :: _, [], _, _, heq => by cases heq
  | arg :: args, arg' :: args', h, h', heq => by
    obtain ⟨harg, hargs⟩ := List.cons.inj heq
    rw [argsUnlined, argsUnlined, Expr.entry_inj h.1 h'.1 harg, argEntries_inj h.2 h'.2 hargs]

end

mutual

/-- A statement without the lines of its expressions and of the variables in it. -/
def Stmt.bare : Stmt → Stmt
  | .assign dest value line => .assign dest.unlined value.unlined line
  | .declare decl line => .declare decl.unlined line
  | .declareType name mark isGlobal line => .declareType name mark isGlobal line
  | .branch cond yes none line => .branch cond.unlined (blockBare yes) none line
  | .branch cond yes (some no) line =>
    .branch cond.unlined (blockBare yes) (some (blockBare no)) line
  | .loop dest value cond body line =>
    .loop dest.unlined value.unlined cond.unlined (blockBare body) line
  | .result value line => .result value.unlined line
  | .procedure heading body line => .procedure heading.unlined (blockBare body) line
  | .call call line => .call call.unlined line

/-- Statements without the lines of their expressions and of the variables in them. -/
def blockBare : List Stmt → List Stmt
  | [] => []
  | stmt :: stmts => stmt.bare :: blockBare stmts

end

/-- A program without the lines of its expressions and of the variables in it. -/
def Program.bare (program : Program) : Program :=
  { program with
    declarations := blockBare program.declarations
    statements := blockBare program.statements }

theorem note_inj {line line' : Nat} (h : lineNote line = lineNote line') : line = line' :=
  ((reads_note line).unique (reads_note line') (congrArg (· ++ "") h)).1

theorem assignEntry_inj {dest dest' : Place} {value value' : Expr} {line line' : Nat}
    (h : dest.AsRead Identifier ∧ value.AsRead Identifier)
    (h' : dest'.AsRead Identifier ∧ value'.AsRead Identifier)
    (heq : assignEntry dest value line = assignEntry dest' value' line') :
    dest.unlined = dest'.unlined ∧ value.unlined = value'.unlined ∧ line = line' := by
  obtain ⟨hnote, hdest, hvalue⟩ : lineNote line = lineNote line' ∧ dest.entry = dest'.entry ∧
    value.entry = value'.entry := by simpa [assignEntry] using heq
  exact ⟨Place.entry_inj h.1 h'.1 hdest, Expr.entry_inj h.2 h'.2 hvalue, note_inj hnote⟩

/-- What the entry for a statement is about. -/
def Stmt.kind : Stmt → Kind
  | .assign _ _ _ => .assign
  | .declare _ _ => .var
  | .declareType _ _ _ _ => .type
  | .branch _ _ _ _ => .branch
  | .loop _ _ _ _ _ => .loop
  | .result _ _ => .result
  | .procedure _ _ _ => .procedure
  | .call _ _ => .call

theorem Stmt.kind_entry (stmt : Stmt) : stmt.entry.kind = stmt.kind := by
  cases stmt with
  | branch _ _ no => cases no <;> rfl
  | _ => rfl

theorem Stmt.kind_eq {stmt stmt' : Stmt} (h : stmt.entry = stmt'.entry) :
    stmt.kind = stmt'.kind := by
  rw [← kind_entry, h, kind_entry]

mutual

/-- **Statements** that were read are determined by their entries, but for the lines inside. -/
theorem Stmt.entry_inj : ∀ {stmt stmt' : Stmt}, stmt.AsRead Identifier → stmt'.AsRead Identifier →
    stmt.entry = stmt'.entry → stmt.bare = stmt'.bare
  | .assign dest value line, stmt', h, h', heq => by
    cases stmt' <;> cases Stmt.kind_eq heq
    obtain ⟨hdest, hvalue, rfl⟩ := assignEntry_inj h h' heq
    rw [Stmt.bare, Stmt.bare, hdest, hvalue]
  | .declare decl line, stmt', h, h', heq => by
    cases stmt' <;> cases Stmt.kind_eq heq
    rename_i decl' line'
    obtain ⟨hglobal, -, hrest⟩ := Label.mk.inj (Entry.node.inj heq).1
    have hread := reads_declaration h' line'
    rw [← globalMarker_inj hglobal] at hread
    obtain ⟨hsame, -⟩ := (reads_declaration h line).unique hread (congrArg (· ++ "") hrest)
    obtain ⟨hdecl, rfl⟩ := Prod.mk.inj hsame
    rw [Stmt.bare, Stmt.bare, hdecl]
  | .declareType name mark isGlobal line, stmt', h, h', heq => by
    cases stmt' <;> cases Stmt.kind_eq heq
    obtain ⟨hglobal, -, hrest⟩ := Label.mk.inj (Entry.node.inj heq).1
    obtain ⟨hdecl, -⟩ := (reads_typeDeclaration h.1 h.2 line).unique
      (reads_typeDeclaration h'.1 h'.2 _) (congrArg (· ++ "") hrest)
    cases hdecl
    rw [globalMarker_inj hglobal]
  | .branch cond yes none line, stmt', h, h', heq => by
    cases stmt' <;> cases Stmt.kind_eq heq
    rename_i no' _
    cases no' <;> simp [Stmt.entry] at heq
    rw [Stmt.bare, Stmt.bare, Expr.entry_inj h.1 h'.1 heq.2.1, blockEntries_inj h.2 h'.2 heq.2.2,
      note_inj heq.1]
  | .branch cond yes (some no) line, stmt', h, h', heq => by
    cases stmt' <;> cases Stmt.kind_eq heq
    rename_i no' _
    cases no' <;> simp [Stmt.entry] at heq
    rw [Stmt.bare, Stmt.bare, Expr.entry_inj h.1 h'.1 heq.2.1, note_inj heq.1,
      blockEntries_inj h.2.1 h'.2.1 heq.2.2.1, blockEntries_inj h.2.2 h'.2.2 heq.2.2.2]
  | .loop dest value cond body line, stmt', h, h', heq => by
    cases stmt' <;> cases Stmt.kind_eq heq
    simp [Stmt.entry] at heq
    obtain ⟨hdest, hvalue, rfl⟩ := assignEntry_inj ⟨h.1, h.2.1⟩ ⟨h'.1, h'.2.1⟩ heq.2.1
    rw [Stmt.bare, Stmt.bare, hdest, hvalue, Expr.entry_inj h.2.2.1 h'.2.2.1 heq.2.2.1,
      blockEntries_inj h.2.2.2 h'.2.2.2 heq.2.2.2]
  | .result value line, stmt', h, h', heq => by
    cases stmt' <;> cases Stmt.kind_eq heq
    simp [Stmt.entry] at heq
    rw [Stmt.bare, Stmt.bare, Expr.entry_inj h h' heq.2, note_inj heq.1]
  | .procedure heading body line, stmt', h, h', heq => by
    cases stmt' <;> cases Stmt.kind_eq heq
    rename_i heading' body' line'
    obtain ⟨hlabel, hbody⟩ := Entry.node.inj heq
    obtain ⟨hglobal, -, hrest⟩ := Label.mk.inj hlabel
    have hread := reads_heading h'.1 line'
    rw [← globalMarker_inj hglobal] at hread
    obtain ⟨hsame, -⟩ := (reads_heading h.1 line).unique hread (congrArg (· ++ "") hrest)
    obtain ⟨hheading, rfl⟩ := Prod.mk.inj hsame
    rw [Stmt.bare, Stmt.bare, hheading, blockEntries_inj h.2 h'.2 hbody]
  | .call call line, stmt', h, h', heq => by
    cases stmt' <;> cases Stmt.kind_eq heq
    simp [Stmt.entry] at heq
    rw [Stmt.bare, Stmt.bare, Expr.entry_inj h h' heq.2, note_inj heq.1]

theorem blockEntries_inj : ∀ {stmts stmts' : List Stmt}, BlockAsRead Identifier stmts →
    BlockAsRead Identifier stmts' → blockEntries stmts = blockEntries stmts' →
      blockBare stmts = blockBare stmts'
  | [], [], _, _, _ => rfl
  | [], _ :: _, _, _, heq => by cases heq
  | _ :: _, [], _, _, heq => by cases heq
  | stmt :: stmts, stmt' :: stmts', h, h', heq => by
    obtain ⟨hstmt, hstmts⟩ := List.cons.inj heq
    rw [blockBare, blockBare, Stmt.entry_inj h.1 h'.1 hstmt, blockEntries_inj h.2 h'.2 hstmts]

end

/-! ## Trees without lines have the same entries -/

mutual

theorem Expr.entry_unlined : ∀ e : Expr, e.unlined.entry = e.entry
  | .literal _ _ _ => rfl
  | .read place _ _ => place.entry_unlined
  | .not operand _ _ => by rw [Expr.unlined, Expr.entry, operand.entry_unlined, Expr.entry]
  | .binary _ lhs rhs _ _ => by
    rw [Expr.unlined, Expr.entry, lhs.entry_unlined, rhs.entry_unlined, Expr.entry]
  | .call _ args _ _ => by rw [Expr.unlined, Expr.entry, argEntries_unlined args, Expr.entry]

theorem Place.entry_unlined : ∀ place : Place, place.unlined.entry = place.entry
  | .whole _ _ _ => rfl
  | .element _ index _ _ => by rw [Place.unlined, Place.entry, index.entry_unlined, Place.entry]

theorem argEntries_unlined : ∀ args : List Expr, argEntries (argsUnlined args) = argEntries args
  | [] => rfl
  | arg :: args => by
    rw [argsUnlined, argEntries, arg.entry_unlined, argEntries_unlined args, argEntries]

end

mutual

theorem Stmt.entry_bare : ∀ stmt : Stmt, stmt.bare.entry = stmt.entry
  | .assign dest value _ => by
    simp only [Stmt.bare, Stmt.entry, assignEntry, dest.entry_unlined, value.entry_unlined]
  | .declare _ _ => rfl
  | .declareType _ _ _ _ => rfl
  | .branch cond yes none _ => by
    simp only [Stmt.bare, Stmt.entry, cond.entry_unlined, entries_bare yes]
  | .branch cond yes (some no) _ => by
    simp only [Stmt.bare, Stmt.entry, cond.entry_unlined, entries_bare yes, entries_bare no]
  | .loop dest value cond body _ => by
    simp only [Stmt.bare, Stmt.entry, assignEntry, dest.entry_unlined, value.entry_unlined,
      cond.entry_unlined, entries_bare body]
  | .result value _ => by simp only [Stmt.bare, Stmt.entry, value.entry_unlined]
  | .procedure heading body _ => by
    simp only [Stmt.bare, Stmt.entry, Heading.rest, Heading.unlined, List.map_map,
      entries_bare body]
    rfl
  | .call call _ => by simp only [Stmt.bare, Stmt.entry, call.entry_unlined]

theorem entries_bare : ∀ stmts : List Stmt, blockEntries (blockBare stmts) = blockEntries stmts
  | [] => rfl
  | stmt :: stmts => by
    rw [blockBare, blockEntries, stmt.entry_bare, entries_bare stmts, blockEntries]

end

theorem Program.entry_bare (program : Program) : program.bare.entry = program.entry := by
  rw [entry, bare, entries_bare, entries_bare, entry]

/-! ## Programs -/

/-- The literals of the program are ordinary, its names are those of identifiers, and its
expressions have no types. -/
structure Program.AsRead (program : Program) : Prop where
  name : Identifier program.name
  declarations : BlockAsRead Identifier program.declarations
  statements : BlockAsRead Identifier program.statements

theorem parse_asRead {tabWidth : Nat} {source : String} {program : Program}
    {errors : List SyntaxError}
    (parsed : Program.parse tabWidth source = .ok ⟨some program, errors⟩) : program.AsRead := by
  have hword : ∀ q : Parser, q.Worded → q.kind = .identifier →
      Identifier (String.ofList q.current.text) := fun q hq hkind => hq.current hkind
  have hheader := (header_gives hword _).yields (ofString_worded tabWidth source)
  have hitems := fun part p => yields_items (fun q => (item_asRead hword part q).yields) p
  obtain ⟨name, hname, rfl, hdeclarations, hstatements⟩ := program_value (parse_value parsed)
  obtain ⟨hafter, hread⟩ := hitems .declarations _ hheader.1
  exact ⟨hheader.2 _ hname, blockAsRead_iff.mpr (hread _ hdeclarations),
    blockAsRead_iff.mpr ((hitems .statements _ hafter).2 _ hstatements)⟩

theorem Program.AsRead.entry_fair {program : Program} (h : program.AsRead) :
    program.entry.Fair Label.Fair :=
  ⟨label_fair (by decide) (oneLine_name h.name), allFair_append (blockEntries_fair h.declarations)
    ⟨⟨label_fair (by decide) (by decide), trivial⟩, blockEntries_fair h.statements⟩⟩

/-- The declarations of a program end where its statements begin. -/
theorem mainEntry_notMem : ∀ stmts : List Stmt, mainEntry ∉ blockEntries stmts
  | [], h => by cases h
  | stmt :: stmts, h => by
    rcases List.mem_cons.mp h with heq | hmem
    · have hkind : Kind.main = stmt.kind := (congrArg Entry.kind heq).trans stmt.kind_entry
      cases stmt <;> cases hkind
    · exact mainEntry_notMem stmts hmem

theorem Program.entry_inj {program program' : Program} (h : program.AsRead) (h' : program'.AsRead)
    (heq : program.entry = program'.entry) : program.bare = program'.bare := by
  obtain ⟨hlabel, hbelow⟩ := Entry.node.inj heq
  obtain ⟨hdeclarations, hstatements⟩ :=
    split_at_first (mainEntry_notMem _) (mainEntry_notMem _) hbelow
  rw [bare, bare, (Label.mk.inj hlabel).2.2, blockEntries_inj h.declarations h'.declarations
    hdeclarations, blockEntries_inj h.statements h'.statements hstatements]

/-- **Outlines determine programs**, but for the lines of expressions, of mentions of variables and
of declared variables. Whatever two texts are read as, with or without errors, has the same outline
if and only if it agrees in the rest. -/
theorem parse_outline_eq_iff {tabWidth tabWidth' : Nat} {source source' : String}
    {program program' : Program} {errors errors' : List SyntaxError}
    (parsed : Program.parse tabWidth source = .ok ⟨some program, errors⟩)
    (parsed' : Program.parse tabWidth' source' = .ok ⟨some program', errors'⟩) :
    program.outline = program'.outline ↔ program.bare = program'.bare := by
  have h := parse_asRead parsed
  have h' := parse_asRead parsed'
  constructor
  · intro htext
    have hover : Shallow 1 [] := .inl rfl
    rw [← Program.render_entry, ← Program.render_entry] at htext
    exact Program.entry_inj h h' (render_inj labelled h.entry_fair h'.entry_fair hover hover
      (congrArg (String.toList · ++ []) htext)).1
  · intro hbare
    rw [← Program.render_entry, ← Program.entry_bare, hbare, Program.entry_bare,
      Program.render_entry]

/-- A text with a sum on one line. -/
def flatText : String :=
  "program p is integer x; begin x := x + 1; end program."

/-- The same text with the sum on two lines. -/
def foldedText : String :=
  "program p is integer x; begin x := x +\n 1; end program."

/-- The outline does not show where the sum is broken. -/
theorem outline_flat_eq_folded :
    ∃ program program', Program.parse 4 flatText = .ok ⟨some program, []⟩ ∧
    Program.parse 4 foldedText = .ok ⟨some program', []⟩ ∧ program.outline = program'.outline ∧
    program.bare = program'.bare := by
  obtain ⟨program, parsed⟩ := @parse_of_isOk 4 flatText (by decide +kernel)
  obtain ⟨program', parsed'⟩ := @parse_of_isOk 4 foldedText (by decide +kernel)
  have same : (Program.parse 4 flatText).toOption.bind (·.value.map Program.outline) =
      (Program.parse 4 foldedText).toOption.bind (·.value.map Program.outline) := by
    decide +kernel
  rw [parsed, parsed'] at same
  have houtline := Option.some.inj same
  exact ⟨program, program', parsed, parsed', houtline,
    (parse_outline_eq_iff parsed parsed').mp houtline⟩

end ProcLang
