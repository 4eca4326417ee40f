import Mathlib.Algebra.GroupWithZero.Nat
import ProcLang.Proofs.Lexical

/-!
# Tokens within bounds

Lines, columns, nested comments and lengths are counted with 32 bits. A text whose lines are not too
wide (`ColumnsFit`) and that is not too long (`Cursor.Fits`) is scanned to its end, and in a text of
less than two gigabytes all other counts fit too:

* `Cursor.scan_ending`: the scan of a text whose counts fit has an end;
* `scan_sound`: every token is what its span cuts out of the text, its line and column fit, and it
  has the form that its kind asks for (`Lexeme.Formed`).
-/

namespace ProcLang

/-! ## Columns that fit -/

/-- The columns that the characters of a line use. -/
def lineWidth (tabWidth : Nat) (line : List Char) : Nat :=
  (line.map (Caret.width tabWidth)).sum

/-- On every line of the text there is a column behind the last character. -/
def ColumnsFit (tabWidth : Nat) (text : List Char) : Prop :=
  ∀ line ∈ text.splitOn '\n', lineWidth tabWidth line + 1 ≤ wordMax

instance (tabWidth : Nat) (text : List Char) : Decidable (ColumnsFit tabWidth text) :=
  inferInstanceAs (Decidable (∀ line ∈ _, _))

variable {text cs rest : List Char} {source : String} {c : Char} {k : Caret} {t : Token}
  {tabWidth : Nat}

namespace Caret

/-- The columns fit from a column on, up to the end of the text. -/
def Fits (tabWidth : Nat) : (column : Nat) → List Char → Prop
  | column, [] => column + 1 ≤ wordMax
  | column, c :: cs =>
    if c = '\n' then
      column + 1 ≤ wordMax ∧ Fits tabWidth 0 cs
    else
      Fits tabWidth (column + width tabWidth c) cs

variable {column : Nat}

theorem Fits.here (h : Fits tabWidth column cs) : column + 1 ≤ wordMax := by
  induction cs generalizing column with
  | nil => exact h
  | cons c cs ih =>
    rw [Fits] at h
    split at h
    · exact h.1
    · have := ih h
      omega

/-- The first line goes on from the column; the other lines start at their first column. -/
theorem fits_of_lines {first : List Char} {rest : List (List Char)}
    (hlines : cs.splitOn '\n' = first :: rest)
    (hfirst : column + lineWidth tabWidth first + 1 ≤ wordMax)
    (hrest : ∀ line ∈ rest, lineWidth tabWidth line + 1 ≤ wordMax) : Fits tabWidth column cs := by
  induction cs generalizing column first rest with
  | nil => exact Nat.le_trans (by omega) hfirst
  | cons c cs ih =>
    obtain ⟨first', rest', hlines'⟩ := List.exists_cons_of_ne_nil
      (List.splitOnP_ne_nil (· == '\n') cs)
    rw [List.splitOn, List.splitOnP_cons_eq_if_modifyHead, hlines'] at hlines
    by_cases hc : c = '\n'
    · simp only [hc, beq_self_eq_true, if_true, List.cons.injEq] at hlines
      obtain ⟨rfl, rfl⟩ := hlines
      rw [Fits, if_pos hc]
      refine ⟨by omega, ih hlines' ?_ fun line hline => hrest line (List.mem_cons_of_mem _ hline)⟩
      simpa using hrest first' List.mem_cons_self
    · simp only [beq_iff_eq, hc, if_false, List.modifyHead_cons, List.cons.injEq] at hlines
      obtain ⟨rfl, rfl⟩ := hlines
      rw [Fits, if_neg hc]
      refine ih hlines' ?_ hrest
      rw [lineWidth, List.map_cons, List.sum_cons] at hfirst
      rw [lineWidth]
      omega

theorem fits_of_columnsFit (h : ColumnsFit tabWidth text) : Fits tabWidth 0 text := by
  obtain ⟨first, rest, hlines⟩ := List.exists_cons_of_ne_nil
    (List.splitOnP_ne_nil (· == '\n') text)
  refine fits_of_lines hlines ?_ fun line hline => h line ?_
  · simpa using h first (by rw [List.splitOn, hlines]; exact List.mem_cons_self)
  · rw [List.splitOn, hlines]
    exact List.mem_cons_of_mem _ hline

/-- A caret passes a character if the columns and the next line fit. -/
theorem Fits.pass? (h : Fits tabWidth k.column (c :: cs)) (hline : k.line + 1 ≤ wordMax) :
    ∃ after, k.pass? tabWidth c = some after ∧ Fits tabWidth after.column cs := by
  rw [Fits] at h
  rw [Caret.pass?]
  split at h
  · rename_i hc
    rw [if_pos hc, if_pos hline]
    exact ⟨_, rfl, h.2⟩
  · rename_i hc
    have := h.here
    rw [if_neg hc, if_pos (by omega)]
    exact ⟨_, rfl, h⟩

theorem pass?_line {k after : Caret} (h : k.pass? tabWidth c = some after) :
    after.line ≤ k.line + 1 := by
  unfold pass? at h
  split at h <;> split at h <;> cases h
  · exact Nat.le_refl _
  · exact Nat.le_succ _

/-- A caret has passed no more line breaks than characters. -/
theorem walk_line {k after : Caret} (h : k.walk tabWidth text = .ok after) :
    after.line ≤ k.line + text.length := by
  induction text generalizing k with
  | nil =>
    cases h
    exact Nat.le_refl _
  | cons c text ih =>
    rw [walk] at h
    cases hpass : k.pass? tabWidth c with
    | none =>
      rw [hpass] at h
      cases h
    | some between =>
      rw [hpass] at h
      have hline := pass?_line hpass
      have hrest := ih h
      rw [List.length_cons]
      omega

/-- A caret walks over a text if the columns fit and there are not more characters than lines
left. -/
theorem Fits.walk {text : List Char} (h : Fits tabWidth k.column (text ++ rest))
    (hlines : k.line + text.length ≤ wordMax) :
    ∃ after, k.walk tabWidth text = .ok after ∧ Fits tabWidth after.column rest := by
  induction text generalizing k with
  | nil => exact ⟨k, rfl, h⟩
  | cons c text ih =>
    rw [List.length_cons] at hlines
    obtain ⟨after, hpass, hafter⟩ := h.pass? (by omega)
    have hline := pass?_line hpass
    obtain ⟨last, hwalk, hlast⟩ := ih hafter (by omega)
    refine ⟨last, ?_, hlast⟩
    rw [Caret.walk, hpass]
    exact hwalk

end Caret

namespace Lexeme

/-- A delimiter has two characters, so a text that is short enough does not open too many
comments. -/
theorem tooDeepFrom?_eq_none {depth : Nat} (h : 2 * depth + cs.length < 0x200000000) :
    tooDeepFrom? depth cs = none := by
  fun_induction tooDeepFrom? depth cs with
  | case1 | case2 => rfl
  | case3 depth cs _ ih =>
    rw [List.length_cons, List.length_cons] at h
    exact ih (by omega)
  | case4 depth cs hdepth =>
    rw [List.length_cons, List.length_cons] at h
    unfold wordMax at hdepth
    omega
  | case5 depth cs ih =>
    rw [List.length_cons, List.length_cons] at h
    exact ih (by omega)
  | case6 depth c cs _ _ ih =>
    rw [List.length_cons] at h
    exact ih (by omega)

theorem tooDeep?_eq_none (h : text.length < 0x200000000) : tooDeep? text = none := by
  unfold tooDeep?
  split
  · simp only [List.length_cons] at h
    exact tooDeepFrom?_eq_none (by omega)
  · rfl

end Lexeme

namespace Cursor

/-- All that is counted from a place on fits: the columns, and, as the text ahead is short enough,
lines and nested comments. -/
structure Fits (tabWidth : Nat) (k : Cursor) : Prop where
  columns : Caret.Fits tabWidth k.caret.column k.ahead
  lines : k.caret.line + k.ahead.length ≤ wordMax

variable {k : Cursor}

theorem fits_ofString (hfit : ColumnsFit tabWidth source.toList)
    (hsize : source.toList.length < 0xFFFFFFFF) : (ofString source).Fits tabWidth :=
  ⟨Caret.fits_of_columnsFit hfit, Nat.one_add_le_iff.mpr hsize⟩

/-- If all counts fit, there is a next token, and they fit from there on. -/
theorem next_of_fits (h : k.Fits tabWidth) :
    ∃ t after, k.next tabWidth = .ok (t, after) ∧ after.Fits tabWidth := by
  obtain ⟨hcolumns, hlines⟩ := h
  have hmark : k.caret.mark? = some ⟨k.caret.line, k.caret.column + 1⟩ := if_pos hcolumns.here
  rw [← Lexeme.first_append k.ahead] at hcolumns hlines
  rw [List.length_append] at hlines
  obtain ⟨caret, hwalk, hcaret⟩ := hcolumns.walk (by omega)
  have hline := Caret.walk_line hwalk
  have hdeep : Lexeme.tooDeep? (Lexeme.first k.ahead).text = none :=
    Lexeme.tooDeep?_eq_none (by unfold wordMax at hlines; omega)
  rw [next, hmark]
  dsimp only
  rw [Caret.read_eq_ok_iff.mpr ⟨hdeep, hwalk⟩]
  exact ⟨_, _, rfl, hcaret, by dsimp only; omega⟩

/-- **The scan of a text whose counts fit** has an end. -/
theorem scan_ending (k : Cursor) (h : k.Fits tabWidth) :
    (k.scan tabWidth).ending.isSome = true := by
  by_cases hne : k.ahead = []
  · have hmark : k.caret.mark? = some ⟨k.caret.line, k.caret.column + 1⟩ :=
      if_pos h.columns.here
    rw [scan, dif_pos hne, hmark]
    rfl
  · obtain ⟨t, after, hnext, hafter⟩ := next_of_fits h
    have := next_length_lt hne hnext
    rw [scan_of_next hne hnext]
    exact scan_ending after hafter
termination_by k.ahead.length

end Cursor

/-! ## Requests -/

namespace Cursor

/-- A request in front of the first end token finds that a count does not fit. -/
def Overflows (tabWidth : Nat) (k : Cursor) : Prop :=
  ∃ front : List Token, k.nextTokens tabWidth (front.length + 1) = front.map some ++ [none] ∧
    ∀ t ∈ front, t.isEof = false

variable {k after : Cursor} {last : Token}

theorem nextTokens_of_next (h : k.next tabWidth = .ok (t, after)) (requests : Nat) :
    k.nextTokens tabWidth (requests + 1) = some t :: after.nextTokens tabWidth requests := by
  rw [nextTokens, h]

theorem nextTokens_of_error (h : k.next tabWidth = .error after) (requests : Nat) :
    k.nextTokens tabWidth (requests + 1) = none :: after.nextTokens tabWidth requests := by
  rw [nextTokens, h]

/-- In front of a token that is no end token there is a text. -/
theorem ahead_ne_nil (h : k.next tabWidth = .ok (t, after)) (ht : t.isEof = false) :
    k.ahead ≠ [] := by
  intro hnil
  have hkind := (next_reads h).kind
  rw [hnil] at hkind
  rw [Token.isEof, hkind] at ht
  exact absurd ht (by decide)

theorem overflows_of_error (h : k.next tabWidth = .error after) : k.Overflows tabWidth :=
  ⟨[], nextTokens_of_error h 0, fun _ ht => absurd ht List.not_mem_nil⟩

/-- Behind a token the requests go on, unless it is an end token. -/
theorem overflows_iff_of_next (h : k.next tabWidth = .ok (t, after)) :
    k.Overflows tabWidth ↔ t.isEof = false ∧ after.Overflows tabWidth := by
  constructor
  · rintro ⟨front, hrequests, hfront⟩
    cases front with
    | nil =>
      rw [List.length_nil, nextTokens_of_next h] at hrequests
      cases hrequests
    | cons u front =>
      rw [List.length_cons, nextTokens_of_next h] at hrequests
      obtain ⟨hfirst, hrest⟩ := List.cons.inj hrequests
      obtain rfl := Option.some.inj hfirst
      obtain ⟨ht, hfront⟩ := List.forall_mem_cons.mp hfront
      exact ⟨ht, front, hrest, hfront⟩
  · rintro ⟨ht, front, hrequests, hfront⟩
    refine ⟨t :: front, ?_, List.forall_mem_cons.mpr ⟨ht, hfront⟩⟩
    rw [List.length_cons, nextTokens_of_next h, hrequests]
    rfl

/-- If no request fails, there is a next token, and from there on none fails either. -/
theorem next_of_not_overflows (h : ¬ k.Overflows tabWidth) :
    ∃ t after, k.next tabWidth = .ok (t, after) ∧
      (t.isEof = false → ¬ after.Overflows tabWidth) := by
  cases hnext : k.next tabWidth with
  | error left => exact absurd (overflows_of_error hnext) h
  | ok r =>
    exact ⟨r.1, r.2, rfl, fun ht hover => h ((overflows_iff_of_next hnext).mpr ⟨ht, hover⟩)⟩

/-- If all counts fit, no request finds otherwise. -/
theorem not_overflows_of_fits (h : k.Fits tabWidth) : ¬ k.Overflows tabWidth := by
  rintro ⟨front, hrequests, -⟩
  induction front generalizing k with
  | nil =>
    obtain ⟨t, after, hnext, -⟩ := next_of_fits h
    rw [List.length_nil, nextTokens_of_next hnext] at hrequests
    cases hrequests
  | cons t front ih =>
    obtain ⟨u, after, hnext, hafter⟩ := next_of_fits h
    rw [List.length_cons, nextTokens_of_next hnext] at hrequests
    exact ih hafter (List.cons.inj hrequests).2

/-- The end token at the end of a text is the one that the scan has behind its tokens. -/
theorem scan_nil (hnil : k.ahead = []) (h : k.next tabWidth = .ok (last, after)) :
    k.scan tabWidth = ⟨[], some ⟨last.position, k.offset⟩⟩ ∧
      Ending.token ⟨last.position, k.offset⟩ = last := by
  obtain ⟨hkind, htext, hposition, hspan, -⟩ := next_reads h
  rw [hnil] at hkind htext
  constructor
  · rw [scan, dif_pos hnil, hposition]
    rfl
  · rw [htext] at hspan
    obtain ⟨kind, text, position, span⟩ := last
    obtain ⟨rfl, rfl, rfl⟩ : kind = .eof ∧ text = [] ∧ span = ⟨k.offset, 0⟩ :=
      ⟨hkind, htext, hspan⟩
    rfl

end Cursor

/-! ## Forms of tokens -/

namespace Lexeme

/-- How many comments are open at once at most, from the place on where `depth` of them are, up to
the place where all are closed. -/
def nesting : (depth : Nat) → List Char → Nat
  | 0, _ => 0
  | depth + 1, [] => depth + 1
  | depth + 1, '/' :: '*' :: cs => max (depth + 1) (nesting (depth + 2) cs)
  | depth + 1, '*' :: '/' :: cs => max (depth + 1) (nesting depth cs)
  | depth + 1, _ :: cs => nesting (depth + 1) cs

theorem nesting_le (depth : Nat) (cs : List Char) : nesting depth cs ≤ depth + cs.length := by
  fun_induction nesting depth cs with
  | case1 => exact Nat.zero_le _
  | case2 => exact Nat.le_refl _
  | case3 depth cs ih | case4 depth cs ih | case5 depth c cs _ _ ih =>
    simp only [List.length_cons]
    omega

/-- The form of the text of a lexeme of some kinds. -/
def Formed : TokenKind → List Char → Prop
  | .string, text => ∃ inner, text = '"' :: (inner ++ ['"'])
  | .lineComment, text => ∃ inside, text = '/' :: '/' :: inside
  | .blockComment, text | .unclosedComment, text => ∃ inside, text = '/' :: '*' :: inside
  | .integer, text => text ≠ [] ∧ ∀ c ∈ text, c.isDigit = true
  | .identifier, text =>
    ∃ c cs, text = c :: cs ∧ isLetter c = true ∧ ∀ d ∈ cs, isWordChar d = true
  | _, _ => True

theorem closeString_quote {after : Bool} {inside : List Char}
    (h : closeString after cs = some (inside, rest)) : ∃ inner, inside = inner ++ ['"'] := by
  induction cs generalizing after inside rest with
  | nil => simp [closeString] at h
  | cons c cs ih =>
    rw [closeString] at h
    split at h
    · rename_i hc
      cases h
      exact ⟨[], by rw [hc.1]; rfl⟩
    · obtain ⟨⟨inner, tail⟩, found, split⟩ := Option.map_eq_some_iff.1 h
      obtain ⟨rest', rfl⟩ := ih found
      cases split
      exact ⟨c :: rest', rfl⟩

theorem lookup_formed {table : List (String × TokenKind)}
    (h : ∀ kind ∈ table.map Prod.snd, ∀ text, Formed kind text) {key : String} {kind : TokenKind}
    (hkind : table.lookup key = some kind) (text : List Char) : Formed kind text := by
  obtain ⟨front, back, rfl, -⟩ := List.lookup_eq_some_iff.mp hkind
  exact h kind (by simp) text

end Lexeme

open Lexeme in
/-- **A lexeme has the form** that its kind asks for. -/
theorem Lexical.formed {kind : TokenKind} (h : Lexical kind text rest) : Formed kind text := by
  cases h with
  | nothing | unclosedString _ | float _ _ _ _ _ | blank _ _ _ | stray _ _ => trivial
  | lineComment _ _ | blockComment _ | unclosedComment _ => exact ⟨_, rfl⟩
  | pair hpair => exact lookup_formed (by simp [digraphs, Formed]) hpair _
  | single hsingle _ =>
    unfold single? at hsingle
    split at hsingle <;> cases hsingle <;> trivial
  | string hclose =>
    obtain ⟨inner, rfl⟩ := closeString_quote hclose
    exact ⟨inner, rfl⟩
  | @word c cs _ hc hcs _ =>
    cases hword : keyword? (String.ofList (c :: cs)) with
    | none => exact ⟨c, cs, rfl, hc, hcs⟩
    | some kind => exact lookup_formed (by simp [keywords, Formed]) hword _
  | integer hne hdigits _ _ => exact ⟨hne, hdigits⟩

/-! ## Spans that can be cut out -/

namespace Span

/-- The span of a part of a text cuts out that part. -/
theorem slice?_part {a b : List Char} (c : List Char) (h : utf8Length (a ++ b) ≤ offsetMax) :
    slice? ⟨utf8Length a, utf8Length b⟩ (a ++ b ++ c) = some b := by
  have hhi : hi? ⟨utf8Length a, utf8Length b⟩ = some (utf8Length (a ++ b)) := by
    rw [utf8Length_append] at h ⊢
    exact if_pos h
  rw [slice?, hhi]
  simp only [Option.bind_eq_bind, Option.bind_some, splitAtByte?_append]
  rfl

/-- A span without its first and its last byte. -/
theorem shift?_inside {lo len : Nat} (h : lo + len + 2 ≤ offsetMax) (hlen : len ≤ wordMax) :
    shift? ⟨lo, len + 2⟩ 1 (-1) = some ⟨lo + 1, len⟩ := by
  have hhi : hi? ⟨lo, len + 2⟩ = some (lo + len + 2) := if_pos h
  have hlo : moveOffset lo 1 = lo + 1 := by
    rw [moveOffset]
    omega
  have hmoved : moveOffset (lo + len + 2) (-1) = lo + len + 1 := by
    rw [moveOffset]
    omega
  rw [shift?, hhi]
  simp only [Option.bind_some, hlo, hmoved]
  rw [Nat.max_eq_left (by omega), ofBounds?, if_pos (by omega)]
  simp only [Option.some.injEq, mk.injEq, true_and]
  omega

/-- The span of a text in quotes, moved inwards, cuts out what stands between the quotes. -/
theorem slice?_unquoted {a inner : List Char} (c : List Char)
    (hhi : utf8Length (a ++ '"' :: (inner ++ ['"'])) ≤ offsetMax)
    (hlen : utf8Length inner ≤ wordMax) :
    ∃ s, shift? ⟨utf8Length a, utf8Length ('"' :: (inner ++ ['"']))⟩ 1 (-1) = some s ∧
      s.slice? (a ++ '"' :: (inner ++ ['"']) ++ c) = some inner := by
  have hquote : '"'.utf8Size = 1 := by decide
  have hinner : utf8Length ('"' :: (inner ++ ['"'])) = utf8Length inner + 2 := by
    simp only [utf8Length_cons, utf8Length_append, utf8Length_nil]
    omega
  have hstart : utf8Length (a ++ ['"']) = utf8Length a + 1 := by
    simp only [utf8Length_append, utf8Length_cons, utf8Length_nil]
    omega
  rw [utf8Length_append, hinner] at hhi
  refine ⟨⟨utf8Length (a ++ ['"']), utf8Length inner⟩, ?_, ?_⟩
  · rw [hinner, shift?_inside (by omega) hlen, hstart]
  · have hcut : a ++ '"' :: (inner ++ ['"']) ++ c = (a ++ ['"']) ++ inner ++ ('"' :: c) := by simp
    rw [hcut, slice?_part]
    rw [utf8Length_append, hstart]
    omega

end Span

theorem length_le_utf8Length (cs : List Char) : cs.length ≤ utf8Length cs := by
  induction cs with
  | nil => exact Nat.le_refl _
  | cons c cs ih =>
    have := c.utf8Size_pos
    rw [List.length_cons, utf8Length_cons]
    omega

/-- The line and the column fit. -/
def Position.Fits (p : Position) : Prop :=
  p.line ≤ wordMax ∧ p.column ≤ wordMax

/-- What can be done with a token of a text. -/
structure Token.Sound (source : List Char) (t : Token) : Prop where
  /-- The span cuts out the text of the token. -/
  slice : t.span.slice? source = some t.text
  formed : Lexeme.Formed t.kind t.text
  /-- The span of a string can be cut out without the quotes. -/
  unquoted : t.kind = .string →
    ∃ inner, t.span.shift? 1 (-1) = some inner ∧ inner.slice? source = some t.text.tail.dropLast
  position : t.position.Fits
  /-- The comments that are open at once, if the token is a comment, can be counted. -/
  nesting : Lexeme.nesting 1 (t.text.drop 2) ≤ wordMax
  /-- An integer has 64 bits, with either sign. -/
  integer : ∀ n, Literal.integerValue? t.text = some n →
    (n : Int) ≤ 0x7FFFFFFFFFFFFFFF ∧ -0x8000000000000000 ≤ -(n : Int)

/-- The scan came to the end of the text, and its tokens are sound. -/
structure Scan.Sound (source : List Char) (s : Scan) : Prop where
  ending : ∃ e, s.ending = some e ∧ e.position.Fits ∧ e.offset = utf8Length source
  tokens : ∀ t ∈ s.tokens, t.Sound source

theorem Caret.mark?_fits {position : Position} (h : k.mark? = some position)
    (hline : k.line ≤ wordMax) : position.Fits := by
  unfold mark? at h
  split at h
  · cases h
    exact ⟨hline, by assumption⟩
  · cases h

/-- The line of a place fits if the text in front of it is short enough. -/
theorem Cursor.Passes.line_le {here : Cursor}
    (h : (Cursor.ofString source).Passes tabWidth text here)
    (hsize : utf8Length source.toList < 0x80000000) : here.caret.line ≤ wordMax := by
  have hline := Caret.walk_line h.caret
  have hlength := length_le_utf8Length text
  have htext := congrArg utf8Length h.ahead
  rw [utf8Length_append] at htext
  change utf8Length source.toList = _ at htext
  change _ ≤ 1 + _ at hline
  unfold wordMax
  omega

/-- Every token of a text of less than two gigabytes is sound. -/
theorem scan_tokens_sound (hsize : utf8Length source.toList < 0x80000000) :
    ∀ t ∈ (Scan.ofString tabWidth source).tokens, t.Sound source.toList := by
  intro t ht
  obtain ⟨front, back, hsplit⟩ := List.append_of_mem ht
  obtain ⟨here, after, hpasses, -, hreads⟩ :=
    Cursor.scan_split tabWidth (Cursor.ofString source) hsplit
  have hsource : source.toList = tokenTexts front ++ t.text ++ after.ahead := by
    rw [List.append_assoc, ← hreads.passes.ahead]
    exact hpasses.ahead
  have hlength := congrArg utf8Length hsource
  rw [utf8Length_append, utf8Length_append] at hlength
  have hspan : t.span = ⟨utf8Length (tokenTexts front), utf8Length t.text⟩ := by
    rw [hreads.span, hpasses.offset, Nat.min_eq_left (by unfold wordMax; omega)]
    exact congrArg (Span.mk · _) (Nat.zero_add _)
  have hformed : Lexeme.Formed t.kind t.text := by
    rw [hreads.kind, hreads.text]
    exact (Lexeme.first_lexical here.ahead).formed
  refine ⟨?_, hformed, fun hkind => ?_, Caret.mark?_fits hreads.position (hpasses.line_le hsize),
    ?_, fun n hn => ?_⟩
  · rw [hspan, hsource]
    refine Span.slice?_part _ ?_
    rw [utf8Length_append]
    unfold offsetMax
    omega
  · rw [hkind] at hformed
    obtain ⟨inner, htext⟩ := hformed
    have hinner : utf8Length inner ≤ utf8Length t.text := by
      rw [htext, utf8Length_cons, utf8Length_append]
      omega
    rw [htext] at hlength hinner hsource hspan
    rw [hspan, hsource, htext, List.tail_cons, List.dropLast_concat]
    refine Span.slice?_unquoted _ ?_ (by unfold wordMax; omega)
    rw [utf8Length_append]
    unfold offsetMax
    omega
  · have hnesting := Lexeme.nesting_le 1 (t.text.drop 2)
    have htext := length_le_utf8Length t.text
    rw [List.length_drop] at hnesting
    unfold wordMax
    omega
  · have hvalue := (integerValue?_eq_some.mp hn).2
    omega

/-- **The scan of a text** of less than two gigabytes whose columns fit is sound. -/
theorem scan_sound (hsize : utf8Length source.toList < 0x80000000)
    (hfit : ColumnsFit tabWidth source.toList) :
    (Scan.ofString tabWidth source).Sound source.toList where
  ending := by
    have hlength := length_le_utf8Length source.toList
    obtain ⟨e, he⟩ := Option.isSome_iff_exists.mp
      (Cursor.scan_ending _ (Cursor.fits_ofString hfit (by omega)))
    obtain ⟨last, hpasses, hlast⟩ := Cursor.scan_passes tabWidth (Cursor.ofString source)
    obtain ⟨hnil, hmark, hoffset⟩ := hlast e he
    refine ⟨e, he, Caret.mark?_fits hmark (hpasses.line_le hsize), ?_⟩
    have hsource := hpasses.ahead
    rw [hnil, List.append_nil] at hsource
    rw [hoffset, hpasses.offset, ← hsource]
    exact Nat.zero_add _
  tokens := scan_tokens_sound hsize

/-- A text has no more tokens than bytes. -/
theorem scan_length_le (tabWidth : Nat) (source : String) :
    (Scan.ofString tabWidth source).tokens.length ≤ utf8Length source.toList := by
  have nonempty : ∀ t ∈ (Scan.ofString tabWidth source).tokens, 1 ≤ t.text.length := by
    intro t ht
    obtain ⟨front, back, hsplit⟩ := List.append_of_mem ht
    obtain ⟨here, after, -, hne, hreads⟩ :=
      Cursor.scan_split tabWidth (Cursor.ofString source) hsplit
    rw [hreads.text]
    exact List.length_pos_iff.mpr (Lexeme.first_text_ne_nil hne)
  have counted : ∀ tokens : List Token, (∀ t ∈ tokens, 1 ≤ t.text.length) →
      tokens.length ≤ (tokenTexts tokens).length := by
    intro tokens h
    induction tokens with
    | nil => exact Nat.le_refl _
    | cons t tokens ih =>
      have hfirst := h t List.mem_cons_self
      have hrest := ih fun u hu => h u (List.mem_cons_of_mem _ hu)
      rw [tokenTexts_cons, List.length_append, List.length_cons]
      omega
  obtain ⟨last, hpasses, -⟩ := Cursor.scan_passes tabWidth (Cursor.ofString source)
  have hlength := congrArg utf8Length hpasses.ahead
  rw [utf8Length_append] at hlength
  have htexts := length_le_utf8Length (tokenTexts (Scan.ofString tabWidth source).tokens)
  have htokens := counted _ nonempty
  change utf8Length source.toList =
    utf8Length (tokenTexts (Scan.ofString tabWidth source).tokens) + _ at hlength
  omega

end ProcLang
