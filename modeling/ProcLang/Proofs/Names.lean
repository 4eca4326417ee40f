import ProcLang.Proofs.Compiled
import ProcLang.Proofs.Spelling
import ProcLang.Proofs.Meaning.Range

/-!
# Declared names are words

An identifier in a text is a word: a letter, and then letters, digits and underscores. So are the
names of the variables and the procedures that are declared in what is read from a text, whatever
else is wrong with it (`sourceItems_declare_words`). No such name has a point in it.
-/

namespace ProcLang

/-! ## Words -/

theorem isWord_of_isIdentifier {x : String} (h : isIdentifier x = true) : isWord x = true :=
  (Bool.and_eq_true_iff.mp h).1

theorem mem_of_lookup {table : List (String × TokenKind)} {text : String} {kind : TokenKind}
    (h : table.lookup text = some kind) : (text, kind) ∈ table := by
  obtain ⟨front, back, rfl, -⟩ := List.lookup_eq_some_iff.mp h
  simp

/-- **Identifiers** are words that are no keywords. -/
theorem isIdentifier_of_lexical {kind : TokenKind} {text rest : List Char}
    (h : Lexical kind text rest) (hkind : kind = .identifier) :
    isIdentifier (String.ofList text) = true := by
  have fixed : ∀ {k : TokenKind}, k.isFixed = true → k ≠ .identifier := by
    rintro _ hk rfl
    cases hk
  cases h with
  | word hc hcs =>
    rename_i c cs _
    have hword : Lexeme.isWordChar c = true := by
      rw [Lexeme.isWordChar, Lexeme.isAlphanum_of_isLetter hc, Bool.true_or]
    cases hlookup : keyword? (String.ofList (c :: cs)) with
    | none =>
      rw [isIdentifier, hlookup, Option.isNone_none, Bool.and_true]
      simpa [isWord, hc, hword] using hcs
    | some k =>
      rw [hlookup, Option.getD_some] at hkind
      exact absurd hkind (fixed (Spelled.keyword_sound (mem_of_lookup hlookup)).2.2.1)
  | pair h => exact absurd hkind (fixed (Spelled.pair_sound (mem_of_lookup h)).1)
  | single h =>
    subst hkind
    exact absurd rfl (fixed (Spelled.single_sound h (by decide)).1)
  | _ => cases hkind

theorem point_not_mem_of_isWord {x : String} (h : isWord x = true) : '.' ∉ x.toList := by
  intro hpoint
  have := List.all_eq_true.mp (Bool.and_eq_true_iff.mp h).2 '.' hpoint
  cases this

/-- A word is no number. -/
theorem isWord_ne_toString {x : String} (h : isWord x = true) (n : Nat) : x ≠ toString n := by
  rintro rfl
  obtain ⟨c, cs, hlist, hletter, -⟩ := toList_of_isWord h
  have hdigit : c.isDigit = true :=
    Naming.isDigit_of_mem_toString (n := n) (hlist ▸ List.mem_cons_self)
  rw [Lexeme.not_isLetter_of_isDigit hdigit] at hletter
  cases hletter

/-! ## Identifiers of a text -/

/-- If the token is an identifier, it is a word and no keyword. -/
def Token.Worded (t : Token) : Prop :=
  t.kind = .identifier → isIdentifier (String.ofList t.text) = true

/-- The identifiers in front of a parser are words. -/
structure Parser.Worded (p : Parser) : Prop where
  current : p.current.Worded
  next : p.next.Worded
  ahead : ∀ t ∈ p.ahead, t.Worded

theorem pull_worded (ending : Option Ending) : ∀ {tokens : List Token},
    (∀ t ∈ tokens, t.Worded) →
      (Parser.pull ending tokens).token.Worded ∧ ∀ t ∈ (Parser.pull ending tokens).ahead, t.Worded
  | [], _ => by
    refine ⟨fun h => ?_, by simp [Parser.pull]⟩
    cases h
  | t :: tokens, h => by
    have rest := pull_worded ending fun u hu => h u (List.mem_cons_of_mem t hu)
    unfold Parser.pull
    split
    · exact rest
    · split
      · exact rest
      · exact ⟨h t List.mem_cons_self, fun u hu => h u (List.mem_cons_of_mem t hu)⟩

instance : Parser.Invariant Parser.Worded where
  advance {p} h := by
    unfold Parser.advance
    split
    · exact h
    · obtain ⟨htoken, hahead⟩ := pull_worded p.ending h.ahead
      exact ⟨h.next, htoken, hahead⟩
  report _ _ h := ⟨h.current, h.next, h.ahead⟩
  clear h := ⟨h.current, h.next, h.ahead⟩

theorem scan_worded (tabWidth : Nat) (source : String) :
    ∀ t ∈ (Scan.ofString tabWidth source).tokens, t.Worded := by
  intro t ht hkind
  obtain ⟨front, back, hsplit⟩ := List.append_of_mem ht
  obtain ⟨here, after, -, -, hreads⟩ := Cursor.scan_split tabWidth _ hsplit
  have hlexical := Lexeme.first_lexical here.ahead
  rw [← hreads.kind, ← hreads.text] at hlexical
  exact isIdentifier_of_lexical hlexical hkind

theorem ofString_worded (tabWidth : Nat) (source : String) :
    (Parser.ofString tabWidth source).Worded := by
  obtain ⟨hfirst, hahead⟩ := pull_worded (Scan.ofString tabWidth source).ending
    (scan_worded tabWidth source)
  obtain ⟨hsecond, hahead⟩ := pull_worded (Scan.ofString tabWidth source).ending hahead
  exact ⟨hfirst, hsecond, hahead⟩

/-! ## What is read from a text -/

/-- What is read from a text has ordinary literals, and **names are words** in it. -/
theorem sourceItems_asRead (source : String) (options : Options) :
    ∀ stmt ∈ sourceItems source options, stmt.AsRead (isWord · = true) := by
  have hitem : ∀ (part : Section) (p : Parser),
      (p.item part).Yields Parser.Worded (Stmt.AsRead (isWord · = true)) := fun part p =>
    (item_asRead (fun q hq hkind => isWord_of_isIdentifier (hq.current hkind)) part p).yields
  exact sourceItems_yield hitem (ofString_worded options.tabWidth source)

theorem sourceItems_declare_words (source : String) (options : Options) :
    ∀ stmt ∈ sourceItems source options, stmt.DeclaresOnly (isWord · = true) :=
  fun stmt hmem => (sourceItems_asRead source options stmt hmem).fine.2

/-- The name of a program is a word. -/
theorem header_isWord {tabWidth : Nat} {source name : String}
    (h : (Parser.ofString tabWidth source).header.value = some name) : isWord name = true := by
  have hheader : (Parser.ofString tabWidth source).header.Gives (.of Parser.Worded)
      (isWord · = true) fun _ => 0 :=
    header_gives (fun q hq hkind => isWord_of_isIdentifier (hq.current hkind)) _
  exact (hheader.yields (ofString_worded tabWidth source)).2 name h

end ProcLang
