import ProcLang.Proofs.Spelling

/-!
# Tokens on request

Tokens are asked for one at a time, up to the first end token (`Cursor.Run`). Every request either
finds that a count does not fit or passes a part of the text, so the requests come to an end token
(`Cursor.run_of_not_overflows`). The tokens then tile the text (`scan_tiles`): their spans lie one
behind the other from the first byte on, each cuts its text out of the source, and nothing is left
out, unless a NUL character takes the place of the end.
-/

namespace ProcLang

/-- The spans of the tokens lie one behind the other from an offset on, and are as long as the
texts of the tokens. -/
def Laid : (offset : Nat) → List Token → Prop
  | _, [] => True
  | offset, t :: ts => t.span = ⟨offset, utf8Length t.text⟩ ∧ Laid (offset + t.span.len) ts

/-- The span of a token starts behind the texts of the tokens before it. -/
theorem Laid.span {offset : Nat} {front back : List Token} {t : Token}
    (h : Laid offset (front ++ t :: back)) :
    t.span = ⟨offset + utf8Length (tokenTexts front), utf8Length t.text⟩ := by
  induction front generalizing offset with
  | nil => exact h.1
  | cons u front ih =>
    obtain ⟨hspan, hrest⟩ := h
    rw [ih hrest, hspan, tokenTexts_cons, utf8Length_append, Nat.add_assoc]

namespace Lexeme

/-- A NUL character ends the text, whatever stands behind it. -/
theorem first_nul (cs : List Char) : first ('\x00' :: cs) = ⟨.eof, ['\x00'], cs⟩ := by
  rw [first_of_not_mem_starts (by decide)]
  rfl

end Lexeme

namespace Cursor

/-- The requests for tokens up to the first end token: the tokens in front of it, the end token
itself, and the place behind it. -/
inductive Run (tabWidth : Nat) : Cursor → List Token → Token → Cursor → Prop where
  | stop {k after : Cursor} {last : Token} :
      k.next tabWidth = .ok (last, after) → last.isEof = true → Run tabWidth k [] last after
  | more {k between after : Cursor} {t last : Token} {front : List Token} :
      k.next tabWidth = .ok (t, between) → t.isEof = false →
      Run tabWidth between front last after → Run tabWidth k (t :: front) last after

variable {tabWidth : Nat} {k after : Cursor} {front : List Token} {last : Token}

/-- **The requests come to an end token**, unless a count does not fit. -/
theorem run_of_not_overflows (k : Cursor) (h : ¬ k.Overflows tabWidth) :
    ∃ front last after, k.Run tabWidth front last after := by
  obtain ⟨t, between, hnext, hlater⟩ := next_of_not_overflows h
  cases ht : t.isEof with
  | true => exact ⟨[], t, between, .stop hnext ht⟩
  | false =>
    have := next_length_lt (ahead_ne_nil hnext ht) hnext
    obtain ⟨front, last, after, hrun⟩ := run_of_not_overflows between (hlater ht)
    exact ⟨t :: front, last, after, .more hnext ht hrun⟩
termination_by k.ahead.length

namespace Run

variable (h : k.Run tabWidth front last after)

include h

theorem requests : k.nextTokens tabWidth (front.length + 1) = (front ++ [last]).map some := by
  induction h with
  | stop hnext _ => exact nextTokens_of_next hnext 0
  | more hnext _ _ ih =>
    rw [List.length_cons, nextTokens_of_next hnext, ih]
    rfl

theorem isEof : last.isEof = true := by
  induction h with
  | stop _ hlast => exact hlast
  | more _ _ _ ih => exact ih

theorem not_isEof : ∀ t ∈ front, t.isEof = false := by
  induction h with
  | stop _ _ => exact fun t ht => absurd ht List.not_mem_nil
  | more _ ht _ ih => exact List.forall_mem_cons.mpr ⟨ht, ih⟩

/-- Asking up to the end gives the tokens of the run. -/
theorem through : (k.scan tabWidth).through (fun _ => false) = (front ++ [last], true) := by
  unfold Scan.through
  induction h with
  | @stop k after last hnext hlast =>
    by_cases hnil : k.ahead = []
    · obtain ⟨hscan, htoken⟩ := scan_nil hnil hnext
      rw [hscan]
      simp [htoken, Scan.through.go, hlast]
    · rw [scan_of_next hnil hnext]
      simp [Scan.through.go, hlast]
  | more hnext ht _ ih =>
    rw [scan_of_next (ahead_ne_nil hnext ht) hnext, List.cons_append, Scan.through.go, ih]
    simp [ht]

theorem passes : k.Passes tabWidth (tokenTexts (front ++ [last])) after := by
  induction h with
  | stop hnext _ => simpa using (next_reads hnext).passes
  | more hnext _ _ ih =>
    rw [List.cons_append, tokenTexts_cons]
    exact (next_reads hnext).passes.trans ih

/-- In a text that is not too long, no span is cut short. -/
theorem laid (hsize : utf8Length k.ahead ≤ wordMax) : Laid k.offset (front ++ [last]) := by
  have hread : ∀ {k between : Cursor} {t : Token}, k.next tabWidth = .ok (t, between) →
      utf8Length k.ahead ≤ wordMax → t.span = ⟨k.offset, utf8Length t.text⟩ ∧
        k.offset + t.span.len = between.offset ∧ utf8Length between.ahead ≤ wordMax := by
    intro k between t hnext hk
    obtain ⟨-, -, -, hspan, ⟨hahead, hoffset, -⟩, -⟩ := next_reads hnext
    rw [hahead, utf8Length_append] at hk
    rw [Nat.min_eq_left (by omega)] at hspan
    rw [hspan, hoffset]
    exact ⟨rfl, rfl, by omega⟩
  induction h with
  | stop hnext _ => exact ⟨(hread hnext hsize).1, trivial⟩
  | more hnext _ _ ih =>
    obtain ⟨hspan, hoffset, hrest⟩ := hread hnext hsize
    refine ⟨hspan, ?_⟩
    rw [hoffset]
    exact ih hrest

/-- Tokens in front of the end token are not empty and do not start at a NUL character. -/
theorem front_texts : ∀ t ∈ front, t.text ≠ [] ∧ t.text.head? ≠ some '\x00' := by
  induction h with
  | stop _ _ => exact fun t ht => absurd ht List.not_mem_nil
  | @more k between after t last front hnext ht _ ih =>
    refine List.forall_mem_cons.mpr ⟨?_, ih⟩
    have hne := ahead_ne_nil hnext ht
    obtain ⟨hkind, htext, -, -, hpasses⟩ := next_reads hnext
    have htext_ne : t.text ≠ [] := by
      rw [htext]
      exact Lexeme.first_text_ne_nil hne
    refine ⟨htext_ne, fun hhead => ?_⟩
    obtain ⟨inside, hinside⟩ := List.head?_eq_some_iff.mp hhead
    have hahead := hpasses.ahead
    rw [hinside, List.cons_append] at hahead
    rw [hahead, Lexeme.first_nul] at hkind
    rw [Token.isEof, hkind] at ht
    cases ht

/-- The end token stands at the end of the text or is a NUL character. -/
theorem last_text : last.text = [] ∧ after.ahead = [] ∨ last.text = ['\x00'] := by
  induction h with
  | @stop k after last hnext hlast =>
    obtain ⟨hkind, htext, -, -, hpasses⟩ := next_reads hnext
    by_cases hnil : k.ahead = []
    · have hahead := hpasses.ahead
      rw [hnil] at htext hahead
      exact Or.inl ⟨htext, (List.append_eq_nil_iff.mp hahead.symm).2⟩
    · right
      rw [htext]
      refine Lexeme.first_eof hnil ?_
      rw [← hkind]
      exact of_decide_eq_true hlast
  | more _ _ _ ih => exact ih

end Run

end Cursor

/-- Tokens, the last of them an end token, tile a source text. -/
structure Tiling (source : List Char) (front : List Token) (last : Token) : Prop where
  ended : last.isEof = true
  proper : ∀ t ∈ front, t.isEof = false ∧ 0 < t.span.len
  laid : Laid 0 (front ++ [last])
  /-- Both ends of every span lie between characters, and the span covers the text of its token. -/
  slices : ∀ t ∈ front ++ [last], t.span.slice? source = some t.text
  /-- If no token starts at a NUL character, nothing is left out. -/
  whole : (∀ t ∈ front ++ [last], t.text.head? ≠ some '\x00') →
    tokenTexts (front ++ [last]) = source
  /-- A token that starts at a NUL character is this character and the last one; the tokens are what
  the source starts with. -/
  cut : ∀ before t behind, front ++ [last] = before ++ t :: behind → t.text.head? = some '\x00' →
    behind = [] ∧ t.text = ['\x00'] ∧ tokenTexts before ++ ['\x00'] <+: source

theorem Cursor.Run.tiling {tabWidth : Nat} {source : String} {front : List Token} {last : Token}
    {after : Cursor} (h : (Cursor.ofString source).Run tabWidth front last after)
    (hsize : utf8Length source.toList < 0xFFFFFFFF) : Tiling source.toList front last := by
  have hlaid : Laid 0 (front ++ [last]) := h.laid (Nat.le_of_lt hsize)
  have hsource : source.toList = tokenTexts (front ++ [last]) ++ after.ahead := h.passes.ahead
  have hfront := h.front_texts
  refine ⟨h.isEof, fun t ht => ⟨h.not_isEof t ht, ?_⟩, hlaid, fun t ht => ?_, fun hnul => ?_, ?_⟩
  · obtain ⟨before, behind, hsplit⟩ := List.append_of_mem ht
    rw [hsplit, List.append_assoc] at hlaid
    rw [hlaid.span]
    exact Nat.lt_of_lt_of_le (List.length_pos_iff.mpr (hfront t ht).1) (length_le_utf8Length _)
  · obtain ⟨before, behind, hsplit⟩ := List.append_of_mem ht
    rw [hsplit] at hlaid hsource
    rw [tokenTexts_append, tokenTexts_cons, ← List.append_assoc, List.append_assoc] at hsource
    have hlength := congrArg utf8Length hsource
    rw [utf8Length_append] at hlength
    rw [hlaid.span, Nat.zero_add, hsource]
    refine Span.slice?_part _ ?_
    unfold offsetMax
    omega
  · rcases h.last_text with ⟨-, hnil⟩ | hlast
    · rw [hsource, hnil, List.append_nil]
    · exact absurd (by rw [hlast]; rfl) (hnul last (by simp))
  · intro before t behind hsplit hhead
    have hlast : behind = [] := by
      by_contra hne
      have hmem : t ∈ front := by
        rw [← List.dropLast_concat_getLast hne, ← List.cons_append, ← List.append_assoc] at hsplit
        rw [(List.append_inj' hsplit rfl).1]
        simp
      exact (hfront t hmem).2 hhead
    subst hlast
    obtain ⟨hbefore, ht⟩ := List.append_inj' hsplit rfl
    obtain rfl := List.singleton_inj.mp ht
    have htext : last.text = ['\x00'] := by
      rcases h.last_text with ⟨hnil, -⟩ | hlast
      · rw [hnil] at hhead
        cases hhead
      · exact hlast
    refine ⟨rfl, htext, after.ahead, ?_⟩
    rw [hsource, ← hbefore, tokenTexts_append, tokenTexts_cons, htext]
    rfl

/-- **Tokens tile a text.** In a source of less than four gigabytes, unless a count does not fit,
the requests for tokens end, and the tokens up to the end token tile the source. -/
theorem scan_tiles {tabWidth : Nat} {source : String}
    (hsize : utf8Length source.toList < 0xFFFFFFFF)
    (hfit : ¬ (Cursor.ofString source).Overflows tabWidth) :
    ∃ front last,
      (Cursor.ofString source).nextTokens tabWidth (front.length + 1) =
        (front ++ [last]).map some ∧
      (Scan.ofString tabWidth source).through (fun _ => false) = (front ++ [last], true) ∧
      Tiling source.toList front last := by
  obtain ⟨front, last, after, hrun⟩ := Cursor.run_of_not_overflows _ hfit
  exact ⟨front, last, hrun.requests, hrun.through, hrun.tiling hsize⟩

/-- Nested comments, characters of several bytes, a number and a point, and a NUL character both in
a string and outside. -/
def mixedText : String :=
  "añ/* b /* c */ é */\t1.5.\"x\x00\\\"\"§\x00 b"

/-- Its tokens tile it. -/
theorem scan_tiles_mixed :
    utf8Length mixedText.toList < 0xFFFFFFFF ∧ ¬ (Cursor.ofString mixedText).Overflows 4 ∧
      ∃ front last, Tiling mixedText.toList front last := by
  have hsize : utf8Length mixedText.toList < 0xFFFFFFFF := by decide +kernel
  have hfit : ¬ (Cursor.ofString mixedText).Overflows 4 :=
    Cursor.not_overflows_of_fits (Cursor.fits_ofString (by decide +kernel) (by decide +kernel))
  obtain ⟨front, last, -, -, htiling⟩ := scan_tiles hsize hfit
  exact ⟨hsize, hfit, front, last, htiling⟩

end ProcLang
