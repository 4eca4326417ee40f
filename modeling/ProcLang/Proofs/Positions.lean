import Mathlib.Data.List.DropRight
import ProcLang.Proofs.Nesting

/-!
# Lines and columns of tokens

The place behind a text can be told from the text alone (`Caret.behind`): the line is one more than
its line feeds, and the columns are those of the characters behind the last line feed. A caret that
walks over a text comes to this place, if lines and columns fit all the way
(`Caret.walk_behind_iff`).

So the position of a token is that of the text in front of it. And whether a count fails to fit can
be told without counting along: the lexemes of a text (`lexemes`) do not depend on counts, and a
request for a token fails exactly if there are too many lines or columns behind a part of their
text, no column is left where one of them starts, or one of them nests comments too deep
(`Cursor.overflows_iff`).
-/

namespace ProcLang

/-! ## The place behind a text -/

/-- The columns that a text uses on its last line. -/
def columnsAfter (tabWidth : Nat) (text : List Char) : Nat :=
  lineWidth tabWidth (text.rtakeWhile (· != '\n'))

/-- The line and the columns behind a text fit. -/
def PlaceFits (tabWidth : Nat) (text : List Char) : Prop :=
  text.count '\n' < wordMax ∧ columnsAfter tabWidth text ≤ wordMax

/-- On the way over a text lines and columns fit, if `before` stands in front of it. -/
def PlacesHold (tabWidth : Nat) (before text : List Char) : Prop :=
  ∀ part, part <+: text → PlaceFits tabWidth (before ++ part)

variable {tabWidth : Nat} {before text : List Char}

theorem columnsAfter_concat (text : List Char) (c : Char) :
    columnsAfter tabWidth (text ++ [c]) =
      if c = '\n' then 0 else columnsAfter tabWidth text + Caret.width tabWidth c := by
  rw [columnsAfter, List.rtakeWhile_concat]
  by_cases hc : c = '\n'
  · simp [hc, lineWidth]
  · simp [hc, lineWidth, columnsAfter]

theorem placeFits_nil : PlaceFits tabWidth [] :=
  ⟨by decide, Nat.zero_le _⟩

theorem placesHold_cons {c : Char} :
    PlacesHold tabWidth before (c :: text) ↔
      PlaceFits tabWidth before ∧ PlacesHold tabWidth (before ++ [c]) text := by
  constructor
  · intro h
    refine ⟨by simpa using h [] List.nil_prefix, fun part hpart => ?_⟩
    simpa using h (c :: part) (List.cons_prefix_cons.mpr ⟨rfl, hpart⟩)
  · rintro ⟨hbefore, htext⟩ part hpart
    rcases List.prefix_cons_iff.mp hpart with rfl | ⟨tail, rfl, htail⟩
    · simpa using hbefore
    · simpa using htext tail htail

namespace Caret

/-- The place behind a text, however wide its lines are. -/
def behind (tabWidth : Nat) (text : List Char) : Caret :=
  ⟨1 + text.count '\n', columnsAfter tabWidth text⟩

/-- Passing a character leads to the place behind it, if that fits. -/
theorem pass?_behind (h : PlaceFits tabWidth text) (c : Char) :
    (PlaceFits tabWidth (text ++ [c]) ∧
        (behind tabWidth text).pass? tabWidth c = some (behind tabWidth (text ++ [c]))) ∨
      (¬ PlaceFits tabWidth (text ++ [c]) ∧ (behind tabWidth text).pass? tabWidth c = none) := by
  have hlines := h.1
  rw [behind, behind, pass?, PlaceFits, columnsAfter_concat, List.count_append]
  by_cases hc : c = '\n'
  · by_cases hline : 1 + text.count '\n' + 1 ≤ wordMax
    · left
      simp only [hc, if_true, if_pos hline, List.count_singleton_self]
      exact ⟨⟨by omega, Nat.zero_le _⟩, by rw [Nat.add_assoc]⟩
    · right
      simp only [hc, if_true, if_neg hline, List.count_singleton_self]
      exact ⟨fun hfits => hline (by omega), trivial⟩
  · by_cases hcolumn : columnsAfter tabWidth text + width tabWidth c ≤ wordMax
    · left
      simp [hc, hlines, hcolumn]
    · right
      simp [hc, hcolumn]

/-- **Walking over a text** leads to the place behind it, exactly if lines and columns hold. -/
theorem walk_behind_iff {after : Caret} (hbefore : PlaceFits tabWidth before) :
    (behind tabWidth before).walk tabWidth text = .ok after ↔
      PlacesHold tabWidth before text ∧ after = behind tabWidth (before ++ text) := by
  induction text generalizing before with
  | nil =>
    have hold : PlacesHold tabWidth before [] := by
      intro part hpart
      rw [List.prefix_nil.mp hpart, List.append_nil]
      exact hbefore
    rw [walk, Except.ok.injEq, List.append_nil, eq_comm]
    exact (and_iff_right hold).symm
  | cons c text ih =>
    rw [walk, placesHold_cons, and_iff_right hbefore]
    rcases pass?_behind hbefore c with ⟨hfits, hpass⟩ | ⟨hnot, hpass⟩
    · rw [hpass]
      simpa using ih hfits
    · rw [hpass]
      refine ⟨fun h => (by cases h), fun h => absurd ?_ hnot⟩
      simpa using h.1 [] List.nil_prefix

theorem mark?_behind_iff {position : Position} :
    (behind tabWidth text).mark? = some position ↔
      columnsAfter tabWidth text < wordMax ∧
        position = ⟨1 + text.count '\n', columnsAfter tabWidth text + 1⟩ := by
  rw [mark?, behind]
  by_cases h : columnsAfter tabWidth text < wordMax
  · rw [if_pos (Nat.succ_le_of_lt h), Option.some.injEq, eq_comm]
    exact (and_iff_right h).symm
  · rw [if_neg (fun hle => h (Nat.lt_of_succ_le hle))]
    exact ⟨fun hnone => (by cases hnone), fun hboth => absurd hboth.1 h⟩

end Caret

/-! ## Lexemes without columns -/

/-- The kinds and texts of the lexemes of a text, through the first end lexeme. -/
def lexemes (cs : List Char) : List (TokenKind × List Char) :=
  let lexeme := Lexeme.first cs
  if h : lexeme.kind = .eof then
    [(lexeme.kind, lexeme.text)]
  else
    have : lexeme.rest.length < cs.length := Lexeme.first_rest_length_lt (by
      rintro rfl
      exact h rfl)
    (lexeme.kind, lexeme.text) :: lexemes lexeme.rest
termination_by cs.length

theorem lexemes_of_eof {cs : List Char} (h : (Lexeme.first cs).kind = .eof) :
    lexemes cs = [((Lexeme.first cs).kind, (Lexeme.first cs).text)] := by
  rw [lexemes, dif_pos h]

theorem lexemes_of_ne_eof {cs : List Char} (h : (Lexeme.first cs).kind ≠ .eof) :
    lexemes cs =
      ((Lexeme.first cs).kind, (Lexeme.first cs).text) :: lexemes (Lexeme.first cs).rest := by
  rw [lexemes, dif_neg h]

theorem lexemes_eq_cons (cs : List Char) :
    ∃ later, lexemes cs = ((Lexeme.first cs).kind, (Lexeme.first cs).text) :: later := by
  by_cases heof : (Lexeme.first cs).kind = .eof
  · exact ⟨[], lexemes_of_eof heof⟩
  · exact ⟨_, lexemes_of_ne_eof heof⟩

/-- In a text of less than 2^33 characters no lexeme nests comments too deep. -/
theorem depthHolds_of_mem_lexemes (cs : List Char) (hsize : cs.length < 0x200000000) :
    ∀ l ∈ lexemes cs, DepthHolds l.2 := by
  have hlength := congrArg List.length (Lexeme.first_append cs)
  rw [List.length_append] at hlength
  have hfirst : DepthHolds (Lexeme.first cs).text :=
    (Lexeme.tooDeep?_eq_none_iff cs).mp (Lexeme.tooDeep?_eq_none (by omega))
  by_cases heof : (Lexeme.first cs).kind = .eof
  · rw [lexemes_of_eof heof]
    exact List.forall_mem_singleton.mpr hfirst
  · have : (Lexeme.first cs).rest.length < cs.length := Lexeme.first_rest_length_lt (by
      rintro rfl
      exact heof rfl)
    rw [lexemes_of_ne_eof heof]
    exact List.forall_mem_cons.mpr ⟨hfirst, depthHolds_of_mem_lexemes _ (by omega)⟩
termination_by cs.length

/-- The kind and text of a token. -/
def Token.lexeme (t : Token) : TokenKind × List Char :=
  (t.kind, t.text)

/-- The text of lexemes, one behind the other. -/
def lexemeTexts (ls : List (TokenKind × List Char)) : List Char :=
  ls.flatMap Prod.snd

@[simp]
theorem lexemeTexts_nil : lexemeTexts [] = [] := rfl

@[simp]
theorem lexemeTexts_cons (l : TokenKind × List Char) (ls : List (TokenKind × List Char)) :
    lexemeTexts (l :: ls) = l.2 ++ lexemeTexts ls := List.flatMap_cons

/-- The lexemes make up the first part of the text. -/
theorem lexemeTexts_lexemes_part (cs : List Char) : lexemeTexts (lexemes cs) <+: cs := by
  have happend := Lexeme.first_append cs
  by_cases heof : (Lexeme.first cs).kind = .eof
  · rw [lexemes_of_eof heof, lexemeTexts_cons, lexemeTexts_nil, List.append_nil]
    exact ⟨_, happend⟩
  · have : (Lexeme.first cs).rest.length < cs.length := Lexeme.first_rest_length_lt (by
      rintro rfl
      exact heof rfl)
    rw [lexemes_of_ne_eof heof, lexemeTexts_cons]
    conv_rhs => rw [← happend]
    exact (List.prefix_append_right_inj _).mpr (lexemeTexts_lexemes_part _)
termination_by cs.length

/-- There are too many lines or columns behind a part of the text of the lexemes, no column is left
where one of them starts, or one of them nests comments too deep. -/
def Exceeds (tabWidth : Nat) (before : List Char) (ls : List (TokenKind × List Char)) : Prop :=
  (∃ part, part <+: lexemeTexts ls ∧ ¬ PlaceFits tabWidth (before ++ part)) ∨
    (∃ front l back, ls = front ++ l :: back ∧
      columnsAfter tabWidth (before ++ lexemeTexts front) = wordMax) ∨
    ∃ l ∈ ls, ¬ DepthHolds l.2

variable {l : TokenKind × List Char} {source : String}

/-- A lexeme can be read behind a text: there is a column for it, lines and columns hold over it,
and its comments are not nested too deep. -/
structure Readable (tabWidth : Nat) (before text : List Char) : Prop where
  start : columnsAfter tabWidth before < wordMax
  places : PlacesHold tabWidth before text
  depth : DepthHolds text

/-- If the first lexeme can be read, it is up to the others. -/
theorem exceeds_cons {ls : List (TokenKind × List Char)} (h : Readable tabWidth before l.2) :
    Exceeds tabWidth before (l :: ls) ↔ Exceeds tabWidth (before ++ l.2) ls := by
  constructor
  · rintro (⟨part, hpart, hfits⟩ | ⟨front, m, back, hsplit, hfull⟩ | ⟨m, hm, hdeep⟩)
    · obtain ⟨rest, hrest⟩ := hpart
      rw [lexemeTexts_cons] at hrest
      rcases List.append_eq_append_iff.mp hrest with ⟨inside, hinside, -⟩ | ⟨tail, rfl, htail⟩
      · exact absurd (h.places part ⟨inside, hinside.symm⟩) hfits
      · exact .inl ⟨tail, ⟨rest, htail.symm⟩, by rwa [List.append_assoc]⟩
    · cases front with
      | nil =>
        rw [lexemeTexts_nil, List.append_nil] at hfull
        exact absurd hfull (Nat.ne_of_lt h.start)
      | cons n front =>
        obtain ⟨rfl, rfl⟩ := List.cons.inj hsplit
        exact .inr (.inl ⟨front, m, back, rfl, by rwa [List.append_assoc, ← lexemeTexts_cons]⟩)
    · rcases List.mem_cons.mp hm with rfl | hm
      · exact absurd h.depth hdeep
      · exact .inr (.inr ⟨m, hm, hdeep⟩)
  · rintro (⟨part, hpart, hfits⟩ | ⟨front, m, back, rfl, hfull⟩ | ⟨m, hm, hdeep⟩)
    · refine .inl ⟨l.2 ++ part, ?_, by rwa [← List.append_assoc]⟩
      rw [lexemeTexts_cons]
      exact (List.prefix_append_right_inj _).mpr hpart
    · exact .inr (.inl ⟨l :: front, m, back, rfl, by rwa [lexemeTexts_cons, ← List.append_assoc]⟩)
    · exact .inr (.inr ⟨m, List.mem_cons_of_mem l hm, hdeep⟩)

/-- If the first lexeme cannot be read, something does not fit. -/
theorem exceeds_of_first (hbefore : PlaceFits tabWidth before) (h : ¬ Readable tabWidth before l.2)
    (ls : List (TokenKind × List Char)) : Exceeds tabWidth before (l :: ls) := by
  by_cases hstart : columnsAfter tabWidth before < wordMax
  · by_cases hdepth : DepthHolds l.2
    · have hplaces : ¬ PlacesHold tabWidth before l.2 := fun hplaces => h ⟨hstart, hplaces, hdepth⟩
      unfold PlacesHold at hplaces
      push Not at hplaces
      obtain ⟨part, hpart, hfits⟩ := hplaces
      exact .inl ⟨part, hpart.trans (List.prefix_append _ _), hfits⟩
    · exact .inr (.inr ⟨l, List.mem_cons_self, hdepth⟩)
  · refine .inr (.inl ⟨[], l, ls, rfl, ?_⟩)
    rw [lexemeTexts_nil, List.append_nil]
    exact Nat.le_antisymm hbefore.2 (Nat.not_lt.mp hstart)

theorem not_exceeds_nil (h : PlaceFits tabWidth before) : ¬ Exceeds tabWidth before [] := by
  rintro (⟨part, hpart, hfits⟩ | ⟨front, l, back, hsplit, -⟩ | ⟨l, hl, -⟩)
  · rw [List.prefix_nil.mp hpart, List.append_nil] at hfits
    exact hfits h
  · simp at hsplit
  · cases hl

namespace Cursor

variable {k after : Cursor} {t : Token}

/-- A request is answered exactly if the next lexeme can be read. The cursor is then behind it. -/
theorem next_behind (hcaret : k.caret = .behind tabWidth before)
    (hbefore : PlaceFits tabWidth before) :
    (Readable tabWidth before (Lexeme.first k.ahead).text ∧
        ∃ t after, k.next tabWidth = .ok (t, after) ∧
          after.caret = .behind tabWidth (before ++ t.text)) ∨
      (¬ Readable tabWidth before (Lexeme.first k.ahead).text ∧
        ∃ left, k.next tabWidth = .error left) := by
  cases hnext : k.next tabWidth with
  | ok r =>
    obtain ⟨t, after⟩ := r
    obtain ⟨-, htext, hmark, -, hpasses, hshallow⟩ := next_reads hnext
    have hwalk := hpasses.caret
    rw [hcaret] at hmark hwalk
    obtain ⟨hold, hafter⟩ := (Caret.walk_behind_iff hbefore).mp hwalk
    rw [htext] at hold hshallow
    exact .inl ⟨⟨(Caret.mark?_behind_iff.mp hmark).1, hold,
      (Lexeme.tooDeep?_eq_none_iff _).mp hshallow⟩, t, after, rfl, hafter⟩
  | error left =>
    refine .inr ⟨fun h => ?_, left, rfl⟩
    have hmark := Caret.mark?_behind_iff.mpr ⟨h.start, rfl⟩
    have hwalk := (Caret.walk_behind_iff hbefore).mpr ⟨h.places, rfl⟩
    rw [← hcaret] at hmark hwalk
    rw [next, hmark] at hnext
    dsimp only at hnext
    rw [Caret.read_eq_ok_iff.mpr ⟨(Lexeme.tooDeep?_eq_none_iff _).mpr h.depth, hwalk⟩] at hnext
    cases hnext

/-- **A request for a token fails** exactly if a count does not fit over the lexemes. -/
theorem overflows_iff (tabWidth : Nat) (k : Cursor) (before : List Char)
    (hcaret : k.caret = .behind tabWidth before) (hbefore : PlaceFits tabWidth before) :
    k.Overflows tabWidth ↔ Exceeds tabWidth before (lexemes k.ahead) := by
  rcases next_behind hcaret hbefore with ⟨hread, t, after, hnext, hafter⟩ | ⟨hnot, left, hnext⟩
  · obtain ⟨hkind, htext, -⟩ := next_reads hnext
    have hrest : PlaceFits tabWidth (before ++ t.text) := by
      rw [htext]
      exact hread.places _ (List.prefix_refl _)
    rw [overflows_iff_of_next hnext, Token.isEof, hkind]
    by_cases heof : (Lexeme.first k.ahead).kind = .eof
    · rw [lexemes_of_eof heof, exceeds_cons hread, ← htext, heof]
      simpa using not_exceeds_nil hrest
    · have hne : k.ahead ≠ [] := by
        intro hnil
        rw [hnil] at heof
        exact heof rfl
      have := next_length_lt hne hnext
      rw [lexemes_of_ne_eof heof, exceeds_cons hread, ← htext, ← next_ahead hnext,
        ← overflows_iff tabWidth after _ hafter hrest]
      simp [heof]
  · obtain ⟨later, hlater⟩ := lexemes_eq_cons k.ahead
    rw [hlater]
    exact iff_of_true (overflows_of_error hnext) (exceeds_of_first hbefore hnot later)
termination_by k.ahead.length

theorem overflows_ofString_iff (tabWidth : Nat) (source : String) :
    (Cursor.ofString source).Overflows tabWidth ↔ Exceeds tabWidth [] (lexemes source.toList) :=
  overflows_iff tabWidth _ [] rfl placeFits_nil

/-- A cursor that has passed the first part of a source stands behind it. -/
theorem Passes.caret_behind (h : (Cursor.ofString source).Passes tabWidth text k) :
    k.caret = .behind tabWidth text := by
  have hwalk : (Caret.behind tabWidth []).walk tabWidth text = .ok k.caret := h.caret
  exact ((Caret.walk_behind_iff placeFits_nil).mp hwalk).2

theorem next_of_nextTokens {requests : Nat} {later : List (Option Token)}
    (h : k.nextTokens tabWidth requests = some t :: later) :
    ∃ after requests', k.next tabWidth = .ok (t, after) ∧
      after.nextTokens tabWidth requests' = later := by
  cases requests with
  | zero => cases h
  | succ requests =>
    cases hnext : k.next tabWidth with
    | error left =>
      rw [nextTokens_of_error hnext] at h
      cases h
    | ok r =>
      rw [nextTokens_of_next hnext] at h
      obtain ⟨hfirst, hlater⟩ := List.cons.inj h
      obtain rfl := Option.some.inj hfirst
      exact ⟨r.2, requests, rfl, hlater⟩

/-- As long as no request has failed, there is a cursor in front of every token, which has passed
the tokens before it. -/
theorem nextTokens_split {requests : Nat} {front : List Token} {back : List (Option Token)}
    (h : k.nextTokens tabWidth requests = front.map some ++ some t :: back) :
    ∃ here after, k.Passes tabWidth (tokenTexts front) here ∧
      here.next tabWidth = .ok (t, after) := by
  induction front generalizing k requests with
  | nil =>
    obtain ⟨after, -, hnext, -⟩ := next_of_nextTokens h
    exact ⟨k, after, .refl k, hnext⟩
  | cons u front ih =>
    obtain ⟨between, requests', hnext, hlater⟩ := next_of_nextTokens h
    obtain ⟨here, after, hpasses, hhere⟩ := ih hlater
    exact ⟨here, after, (next_reads hnext).passes.trans hpasses, hhere⟩

end Cursor

/-- **Tokens stand where their text stands.** In a source of less than 2^32 - 1 line feeds, the line
and column of a token, as long as no request has failed, are those of the text in front of its first
byte, and they fit. And a request in front of the first end token, or for it, fails exactly if there
are more than 2^32 - 1 columns behind some part of the text of the lexemes up to there, or just so
many where one of them starts, or more than 2^32 - 1 comments are open in one of them. The last
needs 2^33 bytes. -/
theorem tokens_stand_in_place {tabWidth : Nat} {source : String}
    (hlines : source.toList.count '\n' < 0xFFFFFFFF) :
    (∀ (requests : Nat) (front : List Token) (t : Token) (back : List (Option Token)),
      (Cursor.ofString source).nextTokens tabWidth requests = front.map some ++ some t :: back →
      ∃ before after, splitAtByte? t.span.lo source.toList = some (before, after) ∧
        t.position.line = 1 + before.count '\n' ∧
        t.position.column = 1 + columnsAfter tabWidth before ∧
        t.position.Fits) ∧
    ((Cursor.ofString source).Overflows tabWidth ↔
      (∃ part, part <+: lexemeTexts (lexemes source.toList) ∧
        0xFFFFFFFF < columnsAfter tabWidth part) ∨
      (∃ front l back, lexemes source.toList = front ++ l :: back ∧
        columnsAfter tabWidth (lexemeTexts front) = 0xFFFFFFFF) ∨
      ∃ l ∈ lexemes source.toList, ¬ DepthHolds l.2) ∧
    (utf8Length source.toList < 0x200000000 → ∀ l ∈ lexemes source.toList, DepthHolds l.2) := by
  refine ⟨fun requests front t back hrequests => ?_, ?_, fun hsize => ?_⟩
  · obtain ⟨here, after, hpasses, hnext⟩ := Cursor.nextTokens_split hrequests
    obtain ⟨-, -, hmark, hspan, -⟩ := Cursor.next_reads hnext
    rw [hpasses.caret_behind] at hmark
    obtain ⟨hcolumn, hposition⟩ := Caret.mark?_behind_iff.mp hmark
    have hsource : source.toList = tokenTexts front ++ here.ahead := hpasses.ahead
    have hlo : t.span.lo = utf8Length (tokenTexts front) := by
      rw [hspan]
      exact hpasses.offset.trans (Nat.zero_add _)
    refine ⟨tokenTexts front, here.ahead, ?_, ?_, ?_, ?_, ?_⟩
    · rw [hlo, hsource, splitAtByte?_append]
    · rw [hposition]
    · rw [hposition]
      exact Nat.add_comm _ _
    · rw [hsource, List.count_append] at hlines
      rw [hposition]
      unfold wordMax
      dsimp only
      omega
    · rw [hposition]
      exact hcolumn
  · rw [Cursor.overflows_ofString_iff, Exceeds]
    refine or_congr (exists_congr fun part => and_congr_right fun hpart => ?_) Iff.rfl
    have hcount := ((hpart.trans (lexemeTexts_lexemes_part _)).sublist).count_le '\n'
    rw [List.nil_append, PlaceFits, and_iff_right (by unfold wordMax; omega), Nat.not_le]
    rfl
  · exact depthHolds_of_mem_lexemes _ ((length_le_utf8Length _).trans_lt hsize)

/-- Line feeds in a string and in a comment, a character of two bytes, and two tabs on a line. -/
def tabbedText : String :=
  "\"é\n\" /*\n\n\t*/x\t"

/-- With tabs of 2^31 columns, the name stands behind the first tab. The second does not fit. -/
theorem tokens_stand_in_tabbedText :
    tabbedText.toList.count '\n' < 0xFFFFFFFF ∧ (Cursor.ofString tabbedText).Overflows 0x80000000 ∧
      ∃ (front : List Token) (x : Token),
        (Cursor.ofString tabbedText).nextTokens 0x80000000 4 = front.map some ++ [some x] ∧
        x.text = ['x'] ∧ x.position = ⟨4, 0x80000003⟩ ∧
        ∃ before after, splitAtByte? x.span.lo tabbedText.toList = some (before, after) ∧
          x.position.line = 1 + before.count '\n' := by
  have hlines : tabbedText.toList.count '\n' < 0xFFFFFFFF := by decide +kernel
  have hplaces := @tokens_stand_in_place 0x80000000 tabbedText hlines
  have hoverflows : (Cursor.ofString tabbedText).Overflows 0x80000000 :=
    hplaces.2.1.mpr (Or.inl ⟨tabbedText.toList, by decide +kernel, by decide +kernel⟩)
  refine ⟨hlines, hoverflows, ?_⟩
  let read := ((Cursor.ofString tabbedText).nextTokens 0x80000000 4).reduceOption
  have hrequests : (Cursor.ofString tabbedText).nextTokens 0x80000000 4 =
      (read.take 3).map some ++ [some (read.getLastD default)] := by decide +kernel
  obtain ⟨before, after, hsplit, hline, -⟩ := hplaces.1 4 _ _ [] hrequests
  exact ⟨_, _, hrequests, by decide +kernel, by decide +kernel, before, after, hsplit, hline⟩

/-- If the columns of a text fit, so do those behind each of its parts. -/
theorem Caret.Fits.columnsAfter_lt (h : Fits tabWidth (columnsAfter tabWidth before) text) :
    ∀ part, part <+: text → columnsAfter tabWidth (before ++ part) < wordMax := by
  intro part hpart
  induction text generalizing before part with
  | nil =>
    rw [List.prefix_nil.mp hpart, List.append_nil]
    exact h
  | cons c text ih =>
    rcases List.prefix_cons_iff.mp hpart with rfl | ⟨tail, rfl, htail⟩
    · rw [List.append_nil]
      exact h.here
    · rw [List.append_cons]
      refine ih ?_ tail htail
      rw [columnsAfter_concat]
      rw [Fits] at h
      split
      · rename_i hc
        rw [if_pos hc] at h
        exact h.2
      · rename_i hc
        rwa [if_neg hc] at h

/-- Short lines of delimiters do not use too many columns, however many they are. -/
theorem columnsAfter_deepText {count : Nat} (hcount : 2 * count + 1 ≤ wordMax) (lines : Nat) :
    ∀ part, part <+: deepText count lines → columnsAfter tabWidth part < wordMax := by
  have hfits : Caret.Fits tabWidth (columnsAfter tabWidth []) (deepText count lines) :=
    fits_deepText hcount lines
  exact hfits.columnsAfter_lt

/-- The first request over a text that is too deep fails. -/
theorem Cursor.next_deepText {count lines : Nat} (hdeep : wordMax < count * lines)
    (tabWidth : Nat) :
    ∃ left, (ofString (String.ofList (deepText count lines))).next tabWidth = .error left := by
  have hahead : (ofString (String.ofList (deepText count lines))).ahead = deepText count lines :=
    String.toList_ofList
  rcases @next_behind tabWidth [] (ofString (String.ofList (deepText count lines))) rfl
    placeFits_nil with ⟨hread, -⟩ | ⟨-, hfails⟩
  · rw [hahead] at hread
    exact absurd hread.depth (not_depthHolds_deepText hdeep)
  · exact hfails

/-- **Where the places of the text do not decide.** Behind a request that failed, the name stands in
the second column, although there are 2^32 columns in front of it. And 2^16 lines of 2^16 openings
of comments each cannot be scanned, although the columns fit and there are few line feeds. -/
theorem tokens_out_of_place :
    (∃ a : Token, (Cursor.ofString " \ta").nextTokens 0xFFFFFFFF 2 = [none, some a] ∧
      a.text = ['a'] ∧ a.span.lo = 2 ∧ a.position = ⟨1, 2⟩ ∧
      columnsAfter 0xFFFFFFFF [' ', '\t'] = 0x100000000) ∧
    (deepText 0x10000 0x10000).count '\n' < 0xFFFFFFFF ∧
    (∀ part, part <+: deepText 0x10000 0x10000 → columnsAfter 4 part < 0xFFFFFFFF) ∧
    (Cursor.ofString (String.ofList (deepText 0x10000 0x10000))).Overflows 4 := by
  refine ⟨⟨_, rfl, rfl, rfl, rfl, rfl⟩, ?_, ?_, ?_⟩
  · rw [count_deepText]
    decide
  · exact columnsAfter_deepText (by decide) 0x10000
  · obtain ⟨left, hnext⟩ := @Cursor.next_deepText 0x10000 0x10000 (by decide) 4
    exact Cursor.overflows_of_error hnext

end ProcLang
