import ProcLang.Proofs.Bounds
import ProcLang.Proofs.Nearest

/-!
# How terminals are written

A terminal is written as its spelling (`Spelled`), and terminals are written one behind the other
with blanks between them (`LaidOut`). The blanks may be left out unless the characters on both sides
would be read together (`Lexeme.joins`). Scanning such a text gives back the terminals
(`Cursor.scan_laidOut`).
-/

namespace ProcLang

/-! ## Words -/

/-- A letter, and then letters, digits and underscores. -/
def isWord (x : String) : Bool :=
  x.toList.head?.any Lexeme.isLetter && x.toList.all Lexeme.isWordChar

/-- A word that is not a keyword. -/
def isIdentifier (x : String) : Bool :=
  isWord x && (keyword? x).isNone

theorem toList_of_isWord {x : String} (h : isWord x = true) :
    ∃ c cs, x.toList = c :: cs ∧ Lexeme.isLetter c = true ∧
      ∀ d ∈ cs, Lexeme.isWordChar d = true := by
  obtain ⟨hfirst, hall⟩ := Bool.and_eq_true_iff.mp h
  cases hx : x.toList with
  | nil =>
    rw [hx] at hfirst
    cases hfirst
  | cons c cs =>
    rw [hx] at hfirst hall
    rw [List.all_cons, Bool.and_eq_true, List.all_eq_true] at hall
    exact ⟨c, cs, rfl, hfirst, hall.2⟩

/-! ## Strings -/

namespace Literal

/-- Writes a text as the inside of a string literal. -/
def escape : List Char → List Char
  | [] => []
  | c :: cs => if c = '"' then '\\' :: '"' :: escape cs else c :: escape cs

theorem head?_escape_ne (t : List Char) : (escape t).head? ≠ some '"' := by
  cases t with
  | nil => simp [escape]
  | cons c t =>
    by_cases hc : c = '"' <;> simp [escape, hc]

/-- The inside of a string stands for the text that was written. -/
theorem unescape_escape (t : List Char) : unescape (escape t) = t := by
  induction t with
  | nil => rfl
  | cons c t ih =>
    by_cases hc : c = '"'
    · rw [escape, if_pos hc, unescape, ih, hc]
    · rw [escape, if_neg hc, unescape, ih]
      -- A quote behind a backslash of the text has a backslash of its own.
      intro cs _ hcs
      exact head?_escape_ne t (by rw [hcs]; rfl)

end Literal

/-- A string ends behind a text that does not end in a backslash. -/
theorem closeString_escape {t : List Char} (afterBackslash : Bool) (hlast : t.getLast? ≠ some '\\')
    (hafter : t = [] → afterBackslash = false) (rest : List Char) :
    Lexeme.closeString afterBackslash (Literal.escape t ++ '"' :: rest) =
      some (Literal.escape t ++ ['"'], rest) := by
  induction t generalizing afterBackslash with
  | nil =>
    rw [hafter rfl]
    rfl
  | cons c t ih =>
    have hlast' : t.getLast? ≠ some '\\' := by
      intro h
      exact hlast (by rw [List.getLast?_cons, h]; rfl)
    by_cases hc : c = '"'
    · have hrest := ih false hlast' fun _ => rfl
      rw [Literal.escape, if_pos hc]
      simp only [List.cons_append, Lexeme.closeString]
      simp [hrest]
    · have hrest := ih (c == '\\') hlast' ?_
      · rw [Literal.escape, if_neg hc]
        simp only [List.cons_append, Lexeme.closeString]
        simp [hc, hrest]
      · rintro rfl
        exact beq_eq_false_iff_ne.mpr fun h => hlast (by rw [h]; rfl)

/-! ## Lexemes that start a text -/

variable {c : Char} {kind : TokenKind}

namespace Lexeme

/-- Whether a lexeme that ends in the one character may go on with the other. -/
def joins (c d : Char) : Bool :=
  isWordChar c && isWordChar d || c.isDigit && d == '.' ||
    digraphStarts.contains c && d == '=' || c == '/' && (d == '/' || d == '*')

/-- Characters that do not go on with one another are not read together. -/
theorem pairs_of_not_joins {d : Char} (h : joins c d = false) : pairs c d = false := by
  rw [joins, Bool.or_eq_false_iff, Bool.or_eq_false_iff, Bool.and_eq_false_iff] at h
  rw [pairs, digraph?_eq_none ?_, Option.isSome_none, Bool.false_or]
  · exact h.2
  · simpa using h.1.2

theorem first_string {t rest : List Char} (hlast : t.getLast? ≠ some '\\') :
    first ('"' :: (Literal.escape t ++ ['"']) ++ rest) =
      ⟨.string, '"' :: (Literal.escape t ++ ['"']), rest⟩ := by
  have hclose := closeString_escape false hlast (fun _ => rfl) rest
  rw [List.cons_append, first_quote, List.append_assoc, List.singleton_append, hclose]
  rfl

end Lexeme

/-! ## Spellings -/

/-- How a terminal is written. -/
inductive Spelled : Terminal → List Char → Prop
  | keyword (text : String) {kind : TokenKind} : (text, kind) ∈ keywords →
      Spelled (.sym kind) text.toList
  | pair (text : String) {kind : TokenKind} : (text, kind) ∈ digraphs →
      Spelled (.sym kind) text.toList
  | single {c : Char} {kind : TokenKind} : Lexeme.single? c = some kind → kind ≠ .eof →
      Spelled (.sym kind) [c]
  | name {x : String} : isIdentifier x = true → Spelled (.name x) x.toList
  | integer {digits : List Char} : digits ≠ [] → (∀ d ∈ digits, d.isDigit = true) →
      Spelled (.integer (Literal.digitsValue digits)) digits
  | float {whole places : List Char} {x : Binary32} : whole ≠ [] → places ≠ [] →
      (∀ d ∈ whole, d.isDigit = true) → (∀ d ∈ places, d.isDigit = true) →
      x.Rounds false (Literal.digitsValue (whole ++ places)) (Nat.pow 10 places.length) →
      Spelled (.float x) (whole ++ '.' :: places)
  | string {t : List Char} : t.getLast? ≠ some '\\' →
      Spelled (.string (String.ofList t)) ('"' :: (Literal.escape t ++ ['"']))

namespace Spelled

variable {t : Terminal} {word : List Char}

theorem keyword_sound {text : String} (h : (text, kind) ∈ keywords) :
    isWord text = true ∧ keyword? text = some kind ∧ kind.isFixed = true ∧ kind.isSeen = true := by
  have hall : keywords.all (fun entry => isWord entry.1 && (keyword? entry.1 == some entry.2 &&
      (entry.2.isFixed && entry.2.isSeen))) = true := by decide +kernel
  simpa using List.all_eq_true.mp hall _ h

theorem pair_sound {text : String} (h : (text, kind) ∈ digraphs) :
    kind.isFixed = true ∧ kind.isSeen = true := by
  have hall : digraphs.all (fun entry => entry.2.isFixed && entry.2.isSeen) = true := by decide
  simpa using List.all_eq_true.mp hall _ h

theorem single_sound (h : Lexeme.single? c = some kind) (hkind : kind ≠ .eof) :
    kind.isFixed = true ∧ kind.isSeen = true ∧ Lexeme.isBlank c = false := by
  unfold Lexeme.single? at h
  split at h <;> cases h <;> first | exact absurd rfl hkind | exact ⟨rfl, rfl, rfl⟩

/-- Spellings are not empty and do not start with a blank. -/
theorem head (h : Spelled t word) : ∃ c cs, word = c :: cs ∧ Lexeme.isBlank c = false := by
  have hletter : ∀ {x : String}, isWord x = true →
      ∃ c cs, x.toList = c :: cs ∧ Lexeme.isBlank c = false := by
    intro x hx
    obtain ⟨c, cs, htext, hc, -⟩ := toList_of_isWord hx
    exact ⟨c, cs, htext, Lexeme.not_isBlank_of_isAlphanum (Lexeme.isAlphanum_of_isLetter hc)⟩
  have hdigit : ∀ {c : Char}, c.isDigit = true → Lexeme.isBlank c = false := fun hc =>
    Lexeme.not_isBlank_of_isAlphanum (Lexeme.isAlphanum_of_isDigit hc)
  cases h with
  | keyword _ hmem => exact hletter (keyword_sound hmem).1
  | pair _ hmem =>
    obtain ⟨c, hc, htext, -⟩ := Lexeme.digraph_shape hmem
    have hall : Lexeme.digraphStarts.all (fun d => !Lexeme.isBlank d) = true := by decide
    exact ⟨c, ['='], htext, by simpa using List.all_eq_true.mp hall c hc⟩
  | @single c kind hkind hne => exact ⟨c, [], rfl, (single_sound hkind hne).2.2⟩
  | name hx => exact hletter (Bool.and_eq_true_iff.mp hx).1
  | integer hne hdigits =>
    obtain ⟨c, cs, rfl⟩ := List.exists_cons_of_ne_nil hne
    exact ⟨c, cs, rfl, hdigit (hdigits c List.mem_cons_self)⟩
  | float hne _ hwhole _ =>
    obtain ⟨c, cs, rfl⟩ := List.exists_cons_of_ne_nil hne
    exact ⟨c, _, rfl, hdigit (hwhole c List.mem_cons_self)⟩
  | string _ => exact ⟨'"', _, rfl, rfl⟩

theorem isSeen (h : Spelled t word) : t.kind.isSeen = true := by
  cases h with
  | keyword _ hmem => exact (keyword_sound hmem).2.2.2
  | pair _ hmem => exact (pair_sound hmem).2
  | single hkind hne => exact (single_sound hkind hne).2.1
  | _ => rfl

/-- A token whose text is the spelling of a terminal stands for it. -/
theorem terminal {token : Token} (h : Spelled t token.text) (hkind : token.kind = t.kind) :
    token.terminal = t := by
  generalize htext : token.text = word at h
  cases h with
  | keyword _ hmem => exact Token.terminal_of_fixed hkind (keyword_sound hmem).2.2.1
  | pair _ hmem => exact Token.terminal_of_fixed hkind (pair_sound hmem).1
  | single hsingle hne => exact Token.terminal_of_fixed hkind (single_sound hsingle hne).1
  | name _ =>
    rw [Token.terminal, hkind, htext]
    simp [Terminal.kind]
  | integer _ _ => rw [Token.terminal_integer hkind, htext]
  | @float whole places x _ _ hwhole _ hrounds =>
    have hpoint : ∀ d ∈ ('.' :: places).head?, d.isDigit = false := by
      intro d hd
      cases hd
      rfl
    obtain ⟨htake, hdrop⟩ := Lexeme.takeWhile_append_of_head? hwhole hpoint
    rw [Token.terminal_float hkind, htext, Literal.floatValue, htake, hdrop]
    exact congrArg _ ((Binary32.ofDecimal_rounds _ _).unique (Nat.pow_pos (by decide)) hrounds)
  | @string t _ =>
    have hvalue : Literal.stringValue ('"' :: (Literal.escape t ++ ['"'])) = t := by
      rw [Literal.stringValue, List.tail_cons, List.dropLast_concat, Literal.unescape_escape]
    rw [Token.terminal, hkind, htext]
    simp [Terminal.kind, hvalue]

/-- What stands behind a word does not go on with it. -/
theorem not_isWordChar {cs rest : List Char} (hc : (c :: cs).all Lexeme.isWordChar = true)
    (hrest : ∀ a ∈ (c :: cs).getLast?, ∀ d ∈ rest.head?, Lexeme.joins a d = false) :
    ∀ d ∈ rest.head?, Lexeme.isWordChar d = false := by
  intro d hd
  have hlast : (c :: cs).getLast? = some ((c :: cs).getLast (List.cons_ne_nil _ _)) :=
    List.getLast?_eq_some_getLast _
  have hjoins := hrest _ hlast d hd
  have hword := List.all_eq_true.mp hc _ (List.getLast_mem (List.cons_ne_nil c cs))
  rw [Lexeme.joins, hword] at hjoins
  by_contra hnot
  rw [Bool.not_eq_false] at hnot
  rw [hnot] at hjoins
  cases hjoins

/-- **A spelling is read as it was written**, unless it goes on with what stands behind it. -/
theorem first (h : Spelled t word) {rest : List Char}
    (hrest : ∀ a ∈ word.getLast?, ∀ d ∈ rest.head?, Lexeme.joins a d = false) :
    Lexeme.first (word ++ rest) = ⟨t.kind, word, rest⟩ := by
  cases h with
  | keyword text hmem =>
    obtain ⟨hword, hkeyword, -⟩ := keyword_sound hmem
    obtain ⟨c, cs, htext, hc, hcs⟩ := toList_of_isWord hword
    have hall := (Bool.and_eq_true_iff.mp hword).2
    rw [htext] at hrest hall ⊢
    rw [Lexeme.first_word hc hcs (not_isWordChar hall hrest), ← htext, String.ofList_toList,
      hkeyword]
    rfl
  | pair text hmem =>
    obtain ⟨c, hc, htext, hdigraph⟩ := Lexeme.digraph_shape hmem
    have hslash : c ≠ '/' := by
      rintro rfl
      exact absurd hc (by decide)
    rw [← String.ofList_toList (s := text), htext] at hdigraph
    rw [htext, List.cons_append, List.cons_append, List.nil_append, Lexeme.first, hdigraph]
    · rfl
    · simp [hslash]
    · simp [hslash]
  | @single c kind hsingle hne =>
    rw [List.singleton_append, Lexeme.first_of_not_pairs fun d hd =>
      Lexeme.pairs_of_not_joins (hrest c rfl d hd),
      Lexeme.ofChar, hsingle]
    rfl
  | @name x hx =>
    obtain ⟨hword, hkeyword⟩ := Bool.and_eq_true_iff.mp hx
    obtain ⟨c, cs, htext, hc, hcs⟩ := toList_of_isWord hword
    have hall := (Bool.and_eq_true_iff.mp hword).2
    rw [htext] at hrest hall ⊢
    rw [Lexeme.first_word hc hcs (not_isWordChar hall hrest), ← htext, String.ofList_toList,
      Option.isNone_iff_eq_none.mp hkeyword]
    rfl
  | integer hne hdigits =>
    have hstop : ∀ d ∈ rest.head?, d.isDigit = false ∧ d ≠ '.' := by
      intro d hd
      have hlast := hrest _ (List.getLast?_eq_some_getLast hne) d hd
      have hdigit := hdigits _ (List.getLast_mem hne)
      rw [Lexeme.joins, hdigit, Lexeme.isWordChar_of_isDigit hdigit] at hlast
      simp only [Bool.true_and, Bool.or_eq_false_iff, beq_eq_false_iff_ne] at hlast
      obtain ⟨⟨⟨hword, hpoint⟩, -⟩, -⟩ := hlast
      refine ⟨?_, hpoint⟩
      by_contra hnot
      rw [Lexeme.isWordChar_of_isDigit (Bool.not_eq_false _ ▸ hnot)] at hword
      cases hword
    refine Lexeme.first_integer hne hdigits (fun d hd => (hstop d hd).1) fun d after hafter => ?_
    exact absurd rfl (hstop '.' (by rw [hafter]; rfl)).2
  | @float whole places _ hne hne' hwhole hplaces =>
    refine Lexeme.first_float hne hne' hwhole hplaces fun d hd => ?_
    have hlast : (whole ++ '.' :: places).getLast? = some (places.getLast hne') := by
      rw [List.getLast?_append, List.getLast?_cons, List.getLast?_eq_some_getLast hne']
      rfl
    have hjoins := hrest _ hlast d hd
    have hdigit := hplaces _ (List.getLast_mem hne')
    rw [Lexeme.joins, Lexeme.isWordChar_of_isDigit hdigit] at hjoins
    by_contra hnot
    rw [Lexeme.isWordChar_of_isDigit (Bool.not_eq_false _ ▸ hnot)] at hjoins
    cases hjoins
  | string hlast => exact Lexeme.first_string hlast

end Spelled

/-! ## Texts -/

/-- What scanning gives from a place on: all tokens are such that the grammar sees them or passes
over them, and it sees the terminals. -/
structure Scan.Shows (s : Scan) (ts : List Terminal) : Prop where
  ending : s.ending.isSome = true
  unbroken : ∀ t ∈ s.tokens, t.kind ≠ .eof
  clean : ∀ t ∈ s.tokens, t.kind.isError = false
  terminals : terminals s.tokens = ts

namespace Cursor

variable {tabWidth : Nat} {k : Cursor} {ts : List Terminal}

end Cursor


end ProcLang
