import ProcLang.Proofs.AsRead
import ProcLang.Proofs.Decimals
import ProcLang.Proofs.Outline.Layout
import ProcLang.Proofs.QuotedText
import ProcLang.Proofs.Reading.Instr

/-!
# Labels

A line of an outline has a word that says what it is about, with a marker in front of it if
something is global or negated, and some text behind it. No word with its marker begins another one,
so that the parts of a line are determined by its text (`labelled`). The texts behind the words read
back: those of literals (`Literal.label_inj`), declarations (`reads_declaration`,
`reads_typeDeclaration`) and headings of procedures (`reads_heading`), if the names in them are
those of identifiers.
-/

namespace ProcLang

open Ir Ir.Reader Naming

namespace Outline

/-- What a line of an outline is about. -/
inductive Kind where
  | integer | float | bool | string | var | not | binary | call | assign | branch | yes | no | loop
  | body | result | type | procedure | program | main
deriving DecidableEq

/-- The word for what a line is about. -/
@[simp]
def Kind.word : Kind → String
  | integer => "integer "
  | float => "float "
  | bool => "bool "
  | string => "string "
  | var => "variable "
  | not => "unary Not"
  | binary => "binary "
  | call => "call"
  | assign => "assign"
  | branch => "if"
  | yes => "then"
  | no => "else"
  | loop => "for"
  | body => "do"
  | result => "return"
  | type => "type "
  | procedure => "procedure "
  | program => "program "
  | main => "begin"

/-- A line of an outline. -/
structure Label where
  marker : String
  kind : Kind
  rest : String

/-- The text of a line. -/
@[simp]
def Label.text (label : Label) : String :=
  label.marker ++ label.kind.word ++ label.rest

/-- What lines can be about, with the markers in front. -/
def kinds : List (String × Kind) :=
  [("", .integer), ("", .float), ("", .bool), ("", .string), ("", .var), ("", .not), ("", .binary),
    ("", .call), ("", .assign), ("", .branch), ("", .yes), ("", .no), ("", .loop), ("", .body),
    ("", .result), ("", .type), ("", .procedure), ("", .program), ("", .main), ("-", .var),
    ("global ", .var), ("global ", .type), ("global ", .procedure)]

/-- The text has no end of a line in it. -/
def OneLine (text : String) : Prop :=
  '\n' ∉ text.toList

instance (text : String) : Decidable (OneLine text) :=
  inferInstanceAs (Decidable (¬ _))

theorem oneLine_append {s t : String} : OneLine (s ++ t) ↔ OneLine s ∧ OneLine t := by
  rw [OneLine, String.toList_append, List.mem_append, not_or]
  rfl

/-- The marker can stand in front of the word, and the text behind it has no end of a line in it. -/
structure Label.Fair (label : Label) : Prop where
  kind : (label.marker, label.kind) ∈ kinds
  rest : OneLine label.rest

theorem label_fair {marker rest : String} {kind : Kind} (hkind : (marker, kind) ∈ kinds)
    (hrest : OneLine rest) : Label.Fair ⟨marker, kind, rest⟩ :=
  ⟨hkind, hrest⟩

/-- **Labels** are determined by their texts. -/
theorem labelled : Labelled Label.text Label.Fair where
  start := by
    rintro ⟨marker, kind, rest⟩ h
    have hstart : kinds.all (fun k => (k.1 ++ k.2.word).toList.head?.any (· != ' ')) = true := by
      decide
    have hany := List.all_eq_true.mp hstart _ h.kind
    rw [Label.text, String.toList_append, List.head?_append]
    dsimp only at hany ⊢
    cases hhead : (marker ++ kind.word).toList.head? with
    | none =>
      rw [hhead] at hany
      cases hany
    | some c =>
      rw [hhead] at hany
      exact ⟨c, rfl, bne_iff_ne.mp hany⟩
  line := by
    rintro ⟨marker, kind, rest⟩ h
    have hline : kinds.all (fun k => OneLine (k.1 ++ k.2.word)) = true := by decide
    have hfront := of_decide_eq_true (List.all_eq_true.mp hline _ h.kind)
    exact (oneLine_append (t := rest)).mpr ⟨hfront, h.rest⟩
  inj := by
    rintro ⟨marker, kind, rest⟩ ⟨marker', kind', rest'⟩ h h' htext
    have hreads : ∀ k ∈ kinds, Ir.Reads Whatever (oneOf (kinds.map fun k => (k.1 ++ k.2.word, k)))
        (k.1 ++ k.2.word) k :=
      fun k hk => reads_oneOf (by decide) (List.mem_map_of_mem hk)
    obtain ⟨heq, rfl⟩ := (hreads _ h.kind).unique (hreads _ h'.kind) htext
    cases heq
    rfl

end Outline

open Outline

/-! ## Literals -/

/-- The line of a literal. -/
def Literal.label : Literal → Label
  | integer value => ⟨"", .integer, toString value⟩
  | float value => ⟨"", .float, value.render⟩
  | bool value => ⟨"", .bool, if value then "true" else "false"⟩
  | string value => ⟨"", .string, Text.quoted value⟩

theorem oneLine_of_legible {name : String} (h : Legible name) : OneLine name :=
  fun hmem => Bool.false_ne_true (h '\n' hmem)

theorem oneLine_nat (n : Nat) : OneLine (toString n) :=
  fun hmem => Bool.false_ne_true (isDigit_of_mem_toString hmem)

theorem oneLine_int : ∀ n : Int, OneLine (toString n)
  | .ofNat n => oneLine_nat n
  | .negSucc n => (oneLine_append (s := "-")).mpr ⟨by decide, oneLine_nat (n + 1)⟩

theorem Literal.label_fair (value : Literal) : value.label.Fair := by
  cases value with
  | integer value => exact Outline.label_fair (by decide) (oneLine_int value)
  | float value =>
    refine Outline.label_fair (by decide) fun hmem => ?_
    rcases Binary32.mem_render hmem with h | h <;> exact absurd h (by decide)
  | bool value => cases value <;> exact Outline.label_fair (by decide) (by decide)
  | string value => exact Outline.label_fair (by decide) (Text.lineFeed_not_mem_quoted value)

theorem int_of_text {m n : Int} (h : toString m = toString n) : m = n := by
  have hend : Ended [] := fun c hc => by cases hc
  have hm := reads_int m [] hend
  rw [h, reads_int n [] hend] at hm
  cases hm
  rfl

/-- **Literals** are told apart by their lines. -/
theorem Literal.label_inj {a b : Literal} (ha : a.Ordinary) (hb : b.Ordinary)
    (h : a.label = b.label) : a = b := by
  have hrest := congrArg Label.rest h
  cases a <;> cases b
  case integer.integer m n => exact congrArg _ (int_of_text hrest)
  case float.float x y => exact congrArg _ (Binary32.render_inj ha hb hrest)
  case bool.bool x y => cases x <;> cases y <;> simp [label] at hrest ⊢
  case string.string s t => exact congrArg _ (Text.quoted_inj hrest)
  all_goals cases congrArg Label.kind h

/-! ## Declarations -/

namespace Outline

/-- Takes a type mark. -/
def typeMark : Reader TypeMark := do
  let word ← name
  if word = "enum" then
    expect " \x7b"
    let variants ← list "\x7d" name
    return .enum variants
  else
    return ((keyword? word).bind TokenKind.type?).elim (.named word) .builtin

/-- Takes the bound of an array, if there is one. -/
def bound : Reader (Option Int) := do
  if ← accept "[" then
    let n ← int
    expect "]"
    return some n
  else
    return none

/-- Takes a name with its type. -/
def signature (isGlobal : Bool) : Reader VariableDecl := do
  let word ← name
  expect ": "
  let mark ← typeMark
  let length ← bound
  return ⟨word, mark, isGlobal, length, 0⟩

/-- Takes a line number. -/
def note : Reader Nat := do
  expect " (L"
  let line ← nat
  expect ")"
  return line

/-- Takes the declaration of a variable. -/
def declaration (isGlobal : Bool) : Reader (VariableDecl × Nat) := do
  let decl ← signature isGlobal
  let line ← note
  return (decl, line)

/-- Takes the declaration of a type. -/
def typeDeclaration : Reader (String × TypeMark × Nat) := do
  let word ← name
  expect " is "
  let mark ← typeMark
  let line ← note
  return (word, mark, line)

/-- Takes the heading of a procedure. -/
def heading (isGlobal : Bool) : Reader (Heading × Nat) := do
  let word ← name
  expect "("
  let params ← list ") : " (signature false)
  let result ← typeMark
  let line ← note
  return (⟨word, result, params, isGlobal⟩, line)

end Outline

/-- The name is that of an identifier. -/
abbrev Identifier (name : String) : Prop :=
  isIdentifier name = true

theorem legible_of_identifier {name : String} (h : Identifier name) : Legible name :=
  legible_of_isWord (isWord_of_isIdentifier h)

theorem keyword?_of_identifier {name : String} (h : Identifier name) : keyword? name = none :=
  Option.isNone_iff_eq_none.mp (Bool.and_eq_true_iff.mp h).2

theorem identifier_head {name : String} (h : Identifier name) {d : Char}
    (hd : Lexeme.isLetter d = false) : ∃ c, name.toList.head? = some c ∧ c ≠ d := by
  obtain ⟨c, cs, htext, hc, -⟩ := toList_of_isWord (isWord_of_isIdentifier h)
  refine ⟨c, by rw [htext]; rfl, ?_⟩
  rintro rfl
  rw [hc] at hd
  cases hd

theorem reads_typeMark {mark : TypeMark} (h : mark.AsRead Identifier) :
    Ir.Reads Ended typeMark mark.render mark := by
  cases mark with
  | builtin ty => cases ty <;> exact (reads_name (by decide)).ends rfl
  | named name =>
    have hkeyword := keyword?_of_identifier h
    have hne : name ≠ "enum" := by
      rintro rfl
      cases hkeyword
    refine (reads_name (legible_of_identifier h)).ends ?_
    rw [if_neg hne, hkeyword]
    rfl
  | enum variants =>
    have hlist : Ir.Reads Ended (list "\x7d" name) (commaSeparated (variants.map id) ++ "\x7d")
        variants :=
      reads_listed rfl (by decide) (stops_append rfl rfl) (stops_append rfl rfl)
        (fun x hx => reads_name (legible_of_identifier (h x hx)))
        fun x hx => identifier_head (h x hx) rfl
    rw [List.map_id] at hlist
    have htext : (TypeMark.enum variants).render =
        "enum" ++ (" \x7b" ++ (commaSeparated variants ++ "\x7d")) := by
      rw [TypeMark.render, commaSeparated, ← String.append_assoc, ← String.append_assoc]
      rfl
    rw [htext]
    exact (reads_name (by decide)).upTo (stops_append rfl rfl) (reads_expect (hlist.last _))

/-- No name goes on, and no bound follows. -/
abbrev Over : List Char → Prop := Stops fun c => isNameChar c || c == '['

theorem Over.ended {rest : List Char} (h : Over rest) : Ended rest :=
  h.mono fun c hc => by rw [hc, Bool.true_or]

theorem reads_bound (length : Option Int) : Ir.Reads Over bound (boundText length) length := by
  cases length with
  | none =>
    refine reads_no (fun rest hrest => ?_) (reads_pure none)
    rintro ⟨tail, rfl⟩
    cases hrest '[' rfl
  | some n =>
    rw [boundText, String.append_assoc]
    exact reads_yes ((reads_int n).bind (fun rest _ => stops_append rfl rfl rest)
      (reads_close "]" _))

theorem reads_signature {decl : VariableDecl} (h : decl.AsRead Identifier) :
    Ir.Reads Over (Outline.signature decl.isGlobal) decl.signature decl.unlined := by
  have hbound : ∀ rest, Over rest → Ended ((boundText decl.bound).toList ++ rest) := by
    intro rest hrest
    cases decl.bound with
    | none => exact hrest.ended
    | some n =>
      rw [boundText, String.append_assoc, String.toList_append, List.append_assoc]
      exact stops_append rfl rfl _
  rw [VariableDecl.signature, String.append_assoc, String.append_assoc]
  exact (reads_name (legible_of_identifier h.name)).upTo (stops_append rfl rfl)
    (reads_expect ((reads_typeMark h.mark).bind hbound ((reads_bound decl.bound).last _)))

theorem reads_note (line : Nat) : Ir.Reads Whatever note (lineNote line) line := by
  rw [lineNote, String.append_assoc]
  exact reads_expect ((reads_nat line).bind (fun rest _ => stops_append rfl rfl rest)
    (reads_close ")" line))

theorem stops_note {p : Char → Bool} (hp : p ' ' = false) (line : Nat) (rest : List Char) :
    Stops p ((lineNote line).toList ++ rest) := by
  rw [lineNote, String.append_assoc, String.toList_append, List.append_assoc]
  exact stops_append rfl hp _

/-- **The declaration of a variable** reads back. -/
theorem reads_declaration {decl : VariableDecl} (h : decl.AsRead Identifier) (line : Nat) :
    Ir.Reads Whatever (Outline.declaration decl.isGlobal) (decl.signature ++ lineNote line)
      (decl.unlined, line) :=
  (reads_signature h).bind (fun rest _ => stops_note rfl line rest) ((reads_note line).last _)

/-- **The declaration of a type** reads back. -/
theorem reads_typeDeclaration {name : String} {mark : TypeMark} (hname : Identifier name)
    (hmark : mark.AsRead Identifier) (line : Nat) :
    Ir.Reads Whatever typeDeclaration (name ++ (" is " ++ (mark.render ++ lineNote line)))
      (name, mark, line) :=
  (reads_name (legible_of_identifier hname)).upTo (stops_append rfl rfl)
    (reads_expect ((reads_typeMark hmark).bind (fun rest _ => stops_note rfl line rest)
      ((reads_note line).last _)))

/-- The text behind the word for a procedure. -/
def Heading.rest (heading : Heading) (line : Nat) : String :=
  heading.name ++ ("(" ++ (commaSeparated (heading.params.map VariableDecl.signature) ++ ") : " ++
    (heading.result.render ++ lineNote line)))

/-- **The heading of a procedure** reads back. -/
theorem reads_heading {heading : Heading} (h : heading.AsRead Identifier) (line : Nat) :
    Ir.Reads Whatever (Outline.heading heading.isGlobal) (heading.rest line)
      (heading.unlined, line) := by
  -- the lines of parameters are not written
  have hparams : Ir.Reads Whatever (list ") : " (Outline.signature false))
      (commaSeparated ((heading.params.map VariableDecl.unlined).map VariableDecl.signature) ++
        ") : ")
      (heading.params.map VariableDecl.unlined) := by
    have hcomma : ∀ rest, Over (", ".toList ++ rest) := stops_append rfl rfl
    refine reads_listed rfl (by decide) hcomma (stops_append rfl rfl) ?_ ?_
    all_goals
      intro param hparam
      obtain ⟨decl, hdecl, rfl⟩ := List.mem_map.mp hparam
      obtain ⟨hread, hlocal⟩ := h.params decl hdecl
    · rw [← hlocal]
      exact reads_signature hread
    · obtain ⟨c, hc, hne⟩ := identifier_head (d := ')') hread.name rfl
      refine ⟨c, ?_, hne⟩
      rw [VariableDecl.signature, String.append_assoc, String.append_assoc, String.toList_append,
        List.head?_append]
      exact congrArg (Option.or · _) hc
  rw [List.map_map] at hparams
  exact (reads_name (legible_of_identifier h.name)).upTo (stops_append rfl rfl)
    (reads_expect (hparams.next ((reads_typeMark h.result).bind
      (fun rest _ => stops_note rfl line rest) ((reads_note line).last _))))

/-! ## Ends of lines -/

theorem oneLine_name {name : String} (h : Identifier name) : OneLine name :=
  oneLine_of_legible (legible_of_identifier h)

theorem oneLine_note (line : Nat) : OneLine (lineNote line) :=
  oneLine_append.mpr ⟨oneLine_append.mpr ⟨by decide, oneLine_nat line⟩, by decide⟩

theorem oneLine_commaSeparated : ∀ {parts : List String}, (∀ part ∈ parts, OneLine part) →
    OneLine (commaSeparated parts)
  | [], _ => by decide
  | [part], h => by
    rw [commaSeparated, String.intercalate_singleton]
    exact h part List.mem_cons_self
  | part :: part' :: parts, h => by
    obtain ⟨hpart, hparts⟩ := List.forall_mem_cons.mp h
    rw [commaSeparated, String.intercalate_cons_cons]
    exact oneLine_append.mpr
      ⟨oneLine_append.mpr ⟨hpart, by decide⟩, oneLine_commaSeparated hparts⟩

theorem oneLine_mark {mark : TypeMark} (h : mark.AsRead Identifier) : OneLine mark.render := by
  cases mark with
  | builtin ty => cases ty <;> decide
  | named name => exact oneLine_name h
  | enum variants =>
    exact oneLine_append.mpr ⟨oneLine_append.mpr ⟨by decide,
      oneLine_commaSeparated fun x hx => oneLine_name (h x hx)⟩, by decide⟩

theorem oneLine_signature {decl : VariableDecl} (h : decl.AsRead Identifier) :
    OneLine decl.signature := by
  have hbound : OneLine (boundText decl.bound) := by
    cases decl.bound with
    | none => decide
    | some n => exact oneLine_append.mpr ⟨oneLine_append.mpr ⟨by decide, oneLine_int n⟩, by decide⟩
  exact oneLine_append.mpr ⟨oneLine_append.mpr ⟨oneLine_append.mpr ⟨oneLine_name h.name, by decide⟩,
    oneLine_mark h.mark⟩, hbound⟩

theorem oneLine_heading {heading : Heading} (h : heading.AsRead Identifier) (line : Nat) :
    OneLine (heading.rest line) := by
  have hparams : OneLine (commaSeparated (heading.params.map VariableDecl.signature)) :=
    oneLine_commaSeparated (List.forall_mem_map.mpr fun decl hdecl =>
      oneLine_signature (h.params decl hdecl).1)
  simp only [Heading.rest, oneLine_append]
  exact ⟨oneLine_name h.name, by decide, ⟨hparams, by decide⟩, oneLine_mark h.result,
    oneLine_note line⟩

end ProcLang
