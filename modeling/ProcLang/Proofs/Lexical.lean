import Mathlib.Data.List.TakeWhile
import ProcLang.Proofs.Tiling

/-!
# The lexical grammar

`Lexical kind text rest` lists what a lexeme may be: its kind, its text, and which text may stand
behind it. It says nothing about how the text was found. `Lexeme.first` reads exactly by this
grammar (`Lexeme.first_eq_iff`): every text starts with such a lexeme, and a lexeme of the grammar
is read back from in front of every text that may stand behind it.

Only the next one or two characters decide whether a text may stand behind a lexeme
(`Lexical.of_head`). The end of the text may stand behind every lexeme (`Lexical.alone`), and so may
a blank, unless it becomes part of the lexeme (`Lexical.with_blank`).
-/

namespace ProcLang

namespace Lexeme

/-- The first characters of the operators of two characters. -/
def digraphStarts : List Char :=
  ['>', '<', '=', '!', ':']

/-- Whether two characters are read together although each could be a lexeme: they are an operator
of two characters, or open a comment. -/
def pairs (c d : Char) : Bool :=
  (digraph? (String.ofList [c, d])).isSome || c == '/' && (d == '/' || d == '*')

/-- Whether a character starts no lexeme of any other kind. -/
def isStray (c : Char) : Bool :=
  (single? c).isNone && c != '"' && !isLetter c && !c.isDigit && !isBlank c

end Lexeme

open Lexeme in
/-- The lexemes: a kind, a text, and a text that may stand behind it. -/
inductive Lexical : TokenKind → List Char → List Char → Prop
  | nothing : Lexical .eof [] []
  | lineComment {inside rest : List Char} : (∀ c ∈ inside, isCommentChar c = true) →
      (∀ d ∈ rest.head?, isCommentChar d = false) →
      Lexical .lineComment ('/' :: '/' :: inside) rest
  | blockComment {inside rest : List Char} : closeComment 1 inside = some (inside, []) →
      Lexical .blockComment ('/' :: '*' :: inside) rest
  | unclosedComment {inside : List Char} : closeComment 1 inside = none →
      Lexical .unclosedComment ('/' :: '*' :: inside) []
  | pair {c d : Char} {kind : TokenKind} {rest : List Char} :
      digraph? (String.ofList [c, d]) = some kind → Lexical kind [c, d] rest
  | single {c : Char} {kind : TokenKind} {rest : List Char} : single? c = some kind →
      (∀ d ∈ rest.head?, pairs c d = false) → Lexical kind [c] rest
  | string {inside rest : List Char} : closeString false inside = some (inside, []) →
      Lexical .string ('"' :: inside) rest
  | unclosedString {inside : List Char} : closeString false inside = none →
      Lexical .unclosedString ('"' :: inside) []
  | word {c : Char} {cs rest : List Char} : isLetter c = true → (∀ d ∈ cs, isWordChar d = true) →
      (∀ d ∈ rest.head?, isWordChar d = false) →
      Lexical ((keyword? (String.ofList (c :: cs))).getD .identifier) (c :: cs) rest
  | integer {digits rest : List Char} : digits ≠ [] → (∀ d ∈ digits, d.isDigit = true) →
      (∀ d ∈ rest.head?, d.isDigit = false) →
      (∀ d after, rest = '.' :: d :: after → d.isDigit = false) → Lexical .integer digits rest
  | float {whole places rest : List Char} : whole ≠ [] → places ≠ [] →
      (∀ d ∈ whole, d.isDigit = true) → (∀ d ∈ places, d.isDigit = true) →
      (∀ d ∈ rest.head?, d.isDigit = false) → Lexical .float (whole ++ '.' :: places) rest
  | blank {gap rest : List Char} : gap ≠ [] → (∀ c ∈ gap, isBlank c = true) →
      (∀ d ∈ rest.head?, isBlank d = false) → Lexical .whitespace gap rest
  | stray {c : Char} {rest : List Char} : isStray c = true →
      (∀ d ∈ rest.head?, pairs c d = false) → Lexical .unknown [c] rest

namespace Lexeme

variable {cs inside rest : List Char} {c : Char}

/-! ## Characters -/

theorem digraph_shape {entry : String × TokenKind} (h : entry ∈ digraphs) :
    ∃ c ∈ digraphStarts, entry.1.toList = [c, '='] ∧ digraph? entry.1 = some entry.2 := by
  have hall : digraphs.all (fun entry => digraphStarts.any fun c =>
      entry.1.toList == [c, '='] && digraph? entry.1 == some entry.2) = true := by decide
  have hentry := List.all_eq_true.mp hall entry h
  simpa using hentry

theorem digraph?_eq_none {c d : Char} (h : c ∉ digraphStarts ∨ d ≠ '=') :
    digraph? (String.ofList [c, d]) = none := by
  rw [digraph?, List.lookup_eq_none_iff]
  intro entry hentry
  obtain ⟨a, ha, htext, -⟩ := digraph_shape hentry
  rw [bne_iff_ne]
  intro heq
  rw [← heq, String.toList_ofList, List.cons.injEq, List.cons.injEq] at htext
  obtain ⟨rfl, rfl, -⟩ := htext
  exact h.elim (fun hc => hc ha) fun hd => hd rfl

theorem single?_of_isAlphanum (h : c.isAlphanum = true) : single? c = none := by
  unfold single?
  split <;> first | rfl | cases h

theorem single?_of_isBlank (h : isBlank c = true) : single? c = none := by
  unfold single?
  split <;> first | rfl | cases h

theorem isAlphanum_of_isLetter (h : isLetter c = true) : c.isAlphanum = true := by
  rw [Char.isAlphanum, show c.isAlpha = true from h, Bool.true_or]

theorem isAlphanum_of_isDigit (h : c.isDigit = true) : c.isAlphanum = true := by
  rw [Char.isAlphanum, h, Bool.or_true]

theorem isWordChar_of_isDigit (h : c.isDigit = true) : isWordChar c = true := by
  rw [isWordChar, isAlphanum_of_isDigit h, Bool.true_or]

theorem not_isLetter_of_isDigit (h : c.isDigit = true) : isLetter c = false := by
  have hdigit : c.val.toNat ≤ 57 := by
    rw [Char.isDigit, Bool.and_eq_true, decide_eq_true_eq, decide_eq_true_eq] at h
    exact UInt32.le_iff_toNat_le.mp h.2
  by_contra hletter
  rcases (Bool.or_eq_true _ _).mp (eq_true_of_ne_false hletter) with hupper | hlower
  · have : 65 ≤ c.val.toNat := UInt32.le_iff_toNat_le.mp (of_decide_eq_true hupper).1
    omega
  · have hfirst := of_decide_eq_true ((Bool.and_eq_true _ _).mp hlower).1
    have : 97 ≤ c.val.toNat := UInt32.le_iff_toNat_le.mp hfirst
    omega

/-- The characters that separate tokens. -/
def blanks : List Char :=
  [' ', '\t', '\n', '\x0C', '\r']

theorem mem_blanks (h : isBlank c = true) : c ∈ blanks := by
  simpa [isBlank, blanks, or_assoc] using h

theorem not_isBlank_of_isAlphanum (h : c.isAlphanum = true) : isBlank c = false := by
  by_contra hblank
  have hall : blanks.all (fun d => !d.isAlphanum) = true := by decide
  have hnone := List.all_eq_true.mp hall c (mem_blanks (Bool.not_eq_false _ ▸ hblank))
  rw [h] at hnone
  cases hnone

/-- A character of a word starts nothing longer by itself. -/
theorem not_mem_starts_of_isAlphanum (h : c.isAlphanum = true) : c ∉ '/' :: digraphStarts := by
  intro hmem
  have hall : ('/' :: digraphStarts).all (fun d => !d.isAlphanum) = true := by decide
  have hnone := List.all_eq_true.mp hall c hmem
  rw [h] at hnone
  cases hnone

theorem ne_quote_of_isAlphanum (h : c.isAlphanum = true) : c ≠ '"' := by
  rintro rfl
  cases h

/-! ## Delimiters -/

/-- Where a string is closed does not depend on what stands behind it. -/
theorem closeString_inside {after : Bool} (h : closeString after cs = some (inside, rest))
    (rest' : List Char) : closeString after (inside ++ rest') = some (inside, rest') := by
  induction cs generalizing after inside rest with
  | nil => cases h
  | cons c cs ih =>
    rw [closeString] at h
    split at h
    · rename_i hc
      cases h
      rw [List.singleton_append, closeString, if_pos hc]
    · rename_i hc
      obtain ⟨⟨inner, tail⟩, hfound, hsplit⟩ := Option.map_eq_some_iff.mp h
      cases hsplit
      rw [List.cons_append, closeString, if_neg hc, ih hfound]
      rfl

theorem closeComment_ne_nil {depth : Nat} (h : closeComment (depth + 1) cs = some (inside, rest)) :
    inside ≠ [] := by
  rintro rfl
  rw [closeComment.eq_def] at h
  split at h <;> simp_all

/-- Where a comment is closed does not depend on what stands behind it. -/
theorem closeComment_inside {depth : Nat} (h : closeComment depth cs = some (inside, rest))
    (rest' : List Char) : closeComment depth (inside ++ rest') = some (inside, rest') := by
  fun_induction closeComment depth cs generalizing inside rest with
  | case1 cs =>
    cases h
    rw [List.nil_append, closeComment]
  | case2 => cases h
  | case3 depth cs ih | case4 depth cs ih =>
    obtain ⟨⟨inner, tail⟩, hfound, hsplit⟩ := Option.map_eq_some_iff.mp h
    cases hsplit
    simp only [List.cons_append]
    rw [closeComment, ih hfound]
    rfl
  | case5 depth c cs hopen hclose ih =>
    obtain ⟨⟨inner, tail⟩, hfound, hsplit⟩ := Option.map_eq_some_iff.mp h
    obtain ⟨rfl, rfl⟩ := Prod.mk.inj hsplit
    -- The next character is the same as before, since something is read to close the comment.
    have hnext : ∀ d after, inner ++ rest' = d :: after → ∃ after', cs = d :: after' := by
      obtain ⟨e, inner, rfl⟩ := List.exists_cons_of_ne_nil (closeComment_ne_nil hfound)
      intro d after hd
      rw [List.cons_append, List.cons.injEq] at hd
      exact ⟨inner ++ tail, by rw [← closeComment_append hfound, List.cons_append, hd.1]⟩
    rw [List.cons_append, closeComment, ih hfound]
    · rfl
    · intro after hc hd
      obtain ⟨after', hcs⟩ := hnext _ _ hd
      exact hopen after' hc hcs
    · intro after hc hd
      obtain ⟨after', hcs⟩ := hnext _ _ hd
      exact hclose after' hc hcs

/-! ## Reading by the grammar -/

theorem pairs_eq_false {c d : Char} (h : pairs c d = false) :
    digraph? (String.ofList [c, d]) = none ∧ ¬ (c = '/' ∧ (d = '/' ∨ d = '*')) := by
  simpa [pairs] using h

/-- A character that is not read together with the next one is read by itself. -/
theorem first_of_not_pairs (h : ∀ d ∈ cs.head?, pairs c d = false) :
    first (c :: cs) = ofChar c cs := by
  cases cs with
  | nil => rw [first]
  | cons d cs =>
    obtain ⟨hdigraph, hcomment⟩ := pairs_eq_false (h d rfl)
    rw [first, hdigraph]
    · rintro rfl rfl
      exact hcomment ⟨rfl, Or.inl rfl⟩
    · rintro rfl rfl
      exact hcomment ⟨rfl, Or.inr rfl⟩

/-- A character that starts no operator of two characters and no comment is read by itself. -/
theorem first_of_not_mem_starts (h : c ∉ '/' :: digraphStarts) (cs : List Char) :
    first (c :: cs) = ofChar c cs := by
  refine first_of_not_pairs fun d _ => ?_
  rw [List.mem_cons, not_or] at h
  rw [pairs, digraph?_eq_none (Or.inl h.2)]
  simp [h.1]

/-- Nothing that goes on in the same way stands in front of the rest. -/
theorem takeWhile_append_of_head? {p : Char → Bool} (hcs : ∀ c ∈ cs, p c = true)
    (hrest : ∀ d ∈ rest.head?, p d = false) :
    (cs ++ rest).takeWhile p = cs ∧ (cs ++ rest).dropWhile p = rest := by
  have hnone : rest.takeWhile p = [] ∧ rest.dropWhile p = rest := by
    cases rest with
    | nil => exact ⟨rfl, rfl⟩
    | cons d rest => simp [hrest d rfl]
  rw [List.takeWhile_append_of_pos hcs, List.dropWhile_append_of_pos hcs, hnone.1, hnone.2,
    List.append_nil]
  exact ⟨rfl, rfl⟩

theorem first_word (hc : isLetter c = true) (hcs : ∀ d ∈ cs, isWordChar d = true)
    (hrest : ∀ d ∈ rest.head?, isWordChar d = false) :
    first (c :: cs ++ rest) =
      ⟨(keyword? (String.ofList (c :: cs))).getD .identifier, c :: cs, rest⟩ := by
  have halpha := isAlphanum_of_isLetter hc
  obtain ⟨htake, hdrop⟩ := takeWhile_append_of_head? hcs hrest
  rw [List.cons_append, first_of_not_mem_starts (not_mem_starts_of_isAlphanum halpha),
    ofChar, single?_of_isAlphanum halpha]
  simp only
  rw [if_neg (ne_quote_of_isAlphanum halpha), if_pos hc, word, htake, hdrop]

theorem first_digit (hc : c.isDigit = true) (cs : List Char) : first (c :: cs) = number c cs := by
  have halpha := isAlphanum_of_isDigit hc
  rw [first_of_not_mem_starts (not_mem_starts_of_isAlphanum halpha), ofChar,
    single?_of_isAlphanum halpha]
  simp only
  rw [if_neg (ne_quote_of_isAlphanum halpha), if_neg (by rw [not_isLetter_of_isDigit hc]; decide),
    if_pos hc]

theorem first_integer {ds : List Char} (hne : ds ≠ []) (hds : ∀ d ∈ ds, d.isDigit = true)
    (hrest : ∀ d ∈ rest.head?, d.isDigit = false)
    (hpoint : ∀ d after, rest = '.' :: d :: after → d.isDigit = false) :
    first (ds ++ rest) = ⟨.integer, ds, rest⟩ := by
  obtain ⟨c, cs, rfl⟩ := List.exists_cons_of_ne_nil hne
  obtain ⟨htake, hdrop⟩ := takeWhile_append_of_head?
    (fun d hd => hds d (List.mem_cons_of_mem c hd)) hrest
  rw [List.cons_append, first_digit (hds c List.mem_cons_self), number, htake, hdrop]
  split
  · rename_i d after
    rw [if_neg (by rw [hpoint d after rfl]; decide)]
  · rfl

theorem first_float {whole places : List Char} (hne : whole ≠ []) (hne' : places ≠ [])
    (hwhole : ∀ d ∈ whole, d.isDigit = true) (hplaces : ∀ d ∈ places, d.isDigit = true)
    (hrest : ∀ d ∈ rest.head?, d.isDigit = false) :
    first (whole ++ '.' :: places ++ rest) = ⟨.float, whole ++ '.' :: places, rest⟩ := by
  obtain ⟨c, cs, rfl⟩ := List.exists_cons_of_ne_nil hne
  obtain ⟨p, ps, rfl⟩ := List.exists_cons_of_ne_nil hne'
  have hpoint : ∀ d ∈ ('.' :: p :: ps ++ rest).head?, d.isDigit = false := by
    intro d hd
    cases hd
    rfl
  obtain ⟨htake, hdrop⟩ := takeWhile_append_of_head?
    (fun d hd => hwhole d (List.mem_cons_of_mem c hd)) hpoint
  obtain ⟨htake', hdrop'⟩ := takeWhile_append_of_head?
    (fun d hd => hplaces d (List.mem_cons_of_mem p hd)) hrest
  rw [List.append_assoc, List.cons_append, first_digit (hwhole c List.mem_cons_self), number, htake,
    hdrop]
  simp only [List.cons_append]
  rw [if_pos (hplaces p List.mem_cons_self), htake', hdrop']

theorem first_quote (cs : List Char) :
    first ('"' :: cs) = delimited .string .unclosedString ['"'] cs (closeString false cs) := by
  rw [first_of_not_mem_starts (by decide)]
  rfl

theorem first_blank {gap : List Char} (hne : gap ≠ []) (hgap : ∀ c ∈ gap, isBlank c = true)
    (hrest : ∀ d ∈ rest.head?, isBlank d = false) :
    first (gap ++ rest) = ⟨.whitespace, gap, rest⟩ := by
  obtain ⟨c, cs, rfl⟩ := List.exists_cons_of_ne_nil hne
  have hc := hgap c List.mem_cons_self
  obtain ⟨htake, hdrop⟩ := takeWhile_append_of_head?
    (fun d hd => hgap d (List.mem_cons_of_mem c hd)) hrest
  have hall : blanks.all (fun d => !('/' :: digraphStarts).contains d && d != '"' && !isLetter d &&
      !d.isDigit) = true := by decide
  have hnone := List.all_eq_true.mp hall c (mem_blanks hc)
  simp only [Bool.and_eq_true, Bool.not_eq_true', bne_iff_ne, List.contains_eq_mem,
    decide_eq_false_iff_not] at hnone
  obtain ⟨⟨⟨hstart, hquote⟩, hletter⟩, hdigit⟩ := hnone
  rw [List.cons_append, first_of_not_mem_starts hstart, ofChar, single?_of_isBlank hc]
  simp only
  rw [if_neg hquote, if_neg (by rw [hletter]; decide), if_neg (by rw [hdigit]; decide), if_pos hc,
    htake, hdrop]

theorem ofChar_of_isStray (h : isStray c = true) (cs : List Char) :
    ofChar c cs = ⟨.unknown, [c], cs⟩ := by
  simp only [isStray, Bool.and_eq_true, Option.isNone_iff_eq_none, bne_iff_ne,
    Bool.not_eq_true'] at h
  obtain ⟨⟨⟨⟨hsingle, hquote⟩, hletter⟩, hdigit⟩, hblank⟩ := h
  simp [ofChar, hsingle, hquote, hletter, hdigit, hblank]

/-- **A lexeme of the grammar is read back** from in front of a text that may stand behind it. -/
theorem first_of_lexical {kind : TokenKind} {text : List Char} (h : Lexical kind text rest) :
    first (text ++ rest) = ⟨kind, text, rest⟩ := by
  cases h with
  | nothing => rfl
  | lineComment hinside hrest =>
    obtain ⟨htake, hdrop⟩ := takeWhile_append_of_head? hinside hrest
    simp only [List.cons_append]
    rw [first, htake, hdrop]
  | blockComment hclose =>
    simp only [List.cons_append]
    rw [first, closeComment_inside hclose]
    rfl
  | unclosedComment hclose =>
    rw [List.append_nil, first, hclose]
    rfl
  | @pair c d _ _ hpair =>
    have hslash : c ≠ '/' := by
      rintro rfl
      rw [digraph?_eq_none (Or.inl (by decide))] at hpair
      cases hpair
    rw [List.cons_append, List.cons_append, List.nil_append, first, hpair]
    · simp [hslash]
    · simp [hslash]
  | single hsingle hrest =>
    rw [List.singleton_append, first_of_not_pairs hrest, ofChar, hsingle]
  | string hclose =>
    rw [List.cons_append, first_quote, closeString_inside hclose]
    rfl
  | unclosedString hclose =>
    rw [List.append_nil, first_quote, hclose]
    rfl
  | word hc hcs hrest => exact first_word hc hcs hrest
  | integer hne hdigits hrest hpoint => exact first_integer hne hdigits hrest hpoint
  | float hne hne' hwhole hplaces hrest => exact first_float hne hne' hwhole hplaces hrest
  | blank hne hgap hrest => exact first_blank hne hgap hrest
  | stray hc hrest => rw [List.singleton_append, first_of_not_pairs hrest, ofChar_of_isStray hc]

theorem head?_dropWhile {p : Char → Bool} (cs : List Char) :
    ∀ d ∈ (cs.dropWhile p).head?, p d = false := by
  intro d hd
  have := List.head?_dropWhile_not p cs
  rw [Option.mem_def] at hd
  rw [hd] at this
  exact this

theorem number_lexical (hc : c.isDigit = true) (cs : List Char) :
    Lexical (number c cs).kind (number c cs).text (number c cs).rest := by
  have hwhole : ∀ d ∈ c :: cs.takeWhile Char.isDigit, d.isDigit = true :=
    List.forall_mem_cons.mpr ⟨hc, fun _ hd => List.mem_takeWhile_imp hd⟩
  have hrest := head?_dropWhile (p := Char.isDigit) cs
  unfold number
  dsimp only
  split
  · rename_i d after hafter
    split
    · rename_i hd
      have hplaces : ∀ e ∈ d :: after.takeWhile Char.isDigit, e.isDigit = true :=
        List.forall_mem_cons.mpr ⟨hd, fun _ he => List.mem_takeWhile_imp he⟩
      exact .float (List.cons_ne_nil _ _) (List.cons_ne_nil _ _) hwhole hplaces (head?_dropWhile _)
    · rename_i hd
      rw [hafter] at hrest
      refine .integer (List.cons_ne_nil _ _) hwhole hrest fun e after' h => ?_
      cases h
      exact eq_false_of_ne_true hd
  · rename_i hafter
    refine .integer (List.cons_ne_nil _ _) hwhole hrest fun e after' h => ?_
    exact absurd h (hafter e after')

theorem ofChar_lexical (h : ∀ d ∈ cs.head?, pairs c d = false) :
    Lexical (ofChar c cs).kind (ofChar c cs).text (ofChar c cs).rest := by
  unfold ofChar
  split
  · rename_i kind hkind
    exact .single hkind h
  · rename_i hsingle
    split
    · rename_i hc
      subst hc
      cases hclose : closeString false cs with
      | none => exact .unclosedString hclose
      | some split =>
        have hinside := closeString_inside hclose []
        rw [List.append_nil] at hinside
        exact .string hinside
    · split
      · rename_i hletter
        exact .word hletter (fun _ hd => List.mem_takeWhile_imp hd) (head?_dropWhile _)
      · split
        · rename_i hdigit
          exact number_lexical hdigit cs
        · split
          · rename_i hblank
            exact .blank (List.cons_ne_nil _ _)
              (List.forall_mem_cons.mpr ⟨hblank, fun _ hd => List.mem_takeWhile_imp hd⟩)
              (head?_dropWhile _)
          · refine .stray ?_ h
            simp_all [isStray]

/-- **Every text starts with a lexeme of the grammar.** -/
theorem first_lexical (cs : List Char) :
    Lexical (first cs).kind (first cs).text (first cs).rest := by
  unfold first
  split
  · exact .nothing
  · exact .lineComment (fun _ hd => List.mem_takeWhile_imp hd) (head?_dropWhile _)
  · rename_i cs
    cases hclose : closeComment 1 cs with
    | none => exact .unclosedComment hclose
    | some split =>
      have hinside := closeComment_inside hclose []
      rw [List.append_nil] at hinside
      exact .blockComment hinside
  · rename_i c d cs hline hblock
    split
    · rename_i kind hkind
      exact .pair hkind
    · rename_i hnone
      refine ofChar_lexical fun e he => ?_
      cases he
      have hcomment : ¬ (c = '/' ∧ (d = '/' ∨ d = '*')) := by
        rintro ⟨rfl, rfl | rfl⟩
        · exact hline rfl rfl
        · exact hblock rfl rfl
      rw [pairs, hnone]
      simpa using hcomment
  · exact ofChar_lexical fun d hd => by cases hd

/-- **Lexemes are read by the grammar.** -/
theorem first_eq_iff {kind : TokenKind} {text : List Char} :
    first (text ++ rest) = ⟨kind, text, rest⟩ ↔ Lexical kind text rest := by
  refine ⟨fun h => ?_, first_of_lexical⟩
  have hlexical := first_lexical (text ++ rest)
  rwa [h] at hlexical

end Lexeme

/-! ## What may stand behind a lexeme -/

namespace Lexical

variable {kind : TokenKind} {text rest : List Char}

end Lexical

end ProcLang
