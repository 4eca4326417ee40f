import ProcLang.Proofs.Grammar.Program

/-!
# Tokens make up a text

A cursor that passes over a text moves on by its bytes and walks its caret over its characters
(`Cursor.Passes`). Scanning does nothing else: the texts of the tokens, one behind the other, are
the text that was scanned.

* `Cursor.scan_split`: in front of every token stands a cursor that has passed the tokens before it;
* `Cursor.scan_passes`: behind all tokens stands one too, and if there is an end it is at the end of
  the text.
-/

namespace ProcLang

/-- The characters of tokens, one token behind the other. -/
def tokenTexts (tokens : List Token) : List Char :=
  tokens.flatMap Token.text

@[simp]
theorem tokenTexts_nil : tokenTexts [] = [] := rfl

@[simp]
theorem tokenTexts_cons (t : Token) (ts : List Token) :
    tokenTexts (t :: ts) = t.text ++ tokenTexts ts := List.flatMap_cons

@[simp]
theorem tokenTexts_append (ts us : List Token) :
    tokenTexts (ts ++ us) = tokenTexts ts ++ tokenTexts us := List.flatMap_append

theorem Caret.walk_append {tabWidth : Nat} {k k1 k2 : Caret} {a b : List Char}
    (ha : k.walk tabWidth a = .ok k1) (hb : k1.walk tabWidth b = .ok k2) :
    k.walk tabWidth (a ++ b) = .ok k2 := by
  induction a generalizing k with
  | nil =>
    cases ha
    exact hb
  | cons c a ih =>
    rw [List.cons_append, walk]
    rw [walk] at ha
    cases hpass : k.pass? tabWidth c with
    | none =>
      rw [hpass] at ha
      cases ha
    | some after =>
      rw [hpass] at ha
      exact ih ha

/-- The text of a lexeme is read if its comments can be counted and the caret walks over it. -/
theorem Caret.read_eq_ok_iff {tabWidth : Nat} {k after : Caret} {text : List Char} :
    k.read tabWidth text = .ok after ↔
      Lexeme.tooDeep? text = none ∧ k.walk tabWidth text = .ok after := by
  rw [read]
  cases hdeep : Lexeme.tooDeep? text with
  | none => simp
  | some unread =>
    dsimp only
    split <;> simp

namespace Cursor

/-- From `k` the cursor gets to `after` over a text. -/
structure Passes (tabWidth : Nat) (k : Cursor) (text : List Char) (after : Cursor) : Prop where
  ahead : k.ahead = text ++ after.ahead
  offset : after.offset = k.offset + utf8Length text
  caret : k.caret.walk tabWidth text = .ok after.caret

variable {tabWidth : Nat} {k after : Cursor}

theorem Passes.refl (k : Cursor) : k.Passes tabWidth [] k :=
  ⟨rfl, rfl, rfl⟩

theorem Passes.trans {between : Cursor} {a b : List Char} (h : k.Passes tabWidth a between)
    (h' : between.Passes tabWidth b after) : k.Passes tabWidth (a ++ b) after where
  ahead := by rw [h.ahead, h'.ahead, List.append_assoc]
  offset := by rw [h'.offset, h.offset, utf8Length_append, Nat.add_assoc]
  caret := Caret.walk_append h.caret h'.caret

/-- What a token says about the place where it was read, and where the cursor is then. -/
structure Reads (tabWidth : Nat) (k : Cursor) (t : Token) (after : Cursor) : Prop where
  kind : t.kind = (Lexeme.first k.ahead).kind
  text : t.text = (Lexeme.first k.ahead).text
  position : k.caret.mark? = some t.position
  span : t.span = ⟨k.offset, min (utf8Length t.text) wordMax⟩
  passes : k.Passes tabWidth t.text after
  shallow : Lexeme.tooDeep? t.text = none

theorem next_reads {t : Token} (h : k.next tabWidth = .ok (t, after)) :
    k.Reads tabWidth t after := by
  unfold next at h
  cases hmark : k.caret.mark? with
  | none =>
    rw [hmark] at h
    cases h
  | some position =>
    rw [hmark] at h
    dsimp only at h
    split at h
    · rename_i caret hread
      cases h
      obtain ⟨hshallow, hwalk⟩ := Caret.read_eq_ok_iff.mp hread
      exact ⟨rfl, rfl, hmark, rfl, ⟨(Lexeme.first_append k.ahead).symm, rfl, hwalk⟩, hshallow⟩
    · cases h

theorem scan_of_next {t : Token} (hne : k.ahead ≠ []) (h : k.next tabWidth = .ok (t, after)) :
    k.scan tabWidth = ⟨t :: (after.scan tabWidth).tokens, (after.scan tabWidth).ending⟩ := by
  rw [scan, dif_neg hne]
  split
  · rename_i herror
    rw [h] at herror
    cases herror
  · rename_i hok
    rw [h] at hok
    cases hok
    rfl

theorem scan_of_error {left : Cursor} (hne : k.ahead ≠ []) (h : k.next tabWidth = .error left) :
    k.scan tabWidth = ⟨[], none⟩ := by
  rw [scan, dif_neg hne]
  split
  · rfl
  · rename_i hok
    rw [h] at hok
    cases hok

theorem next_length_lt {t : Token} (hne : k.ahead ≠ []) (h : k.next tabWidth = .ok (t, after)) :
    after.ahead.length < k.ahead.length := by
  rw [next_ahead h]
  exact Lexeme.first_rest_length_lt hne

/-- In front of every token stands a cursor that has passed the tokens before it and reads this one
next. -/
theorem scan_split (tabWidth : Nat) (k : Cursor) {front back : List Token} {t : Token}
    (h : (k.scan tabWidth).tokens = front ++ t :: back) :
    ∃ here after, k.Passes tabWidth (tokenTexts front) here ∧ here.ahead ≠ [] ∧
      here.Reads tabWidth t after := by
  by_cases hne : k.ahead = []
  · rw [scan, dif_pos hne] at h
    simp at h
  · cases hnext : k.next tabWidth with
    | error left =>
      rw [scan_of_error hne hnext] at h
      simp at h
    | ok r =>
      obtain ⟨first, after⟩ := r
      have hreads := next_reads hnext
      have := next_length_lt hne hnext
      rw [scan_of_next hne hnext] at h
      cases front with
      | nil =>
        obtain ⟨rfl, -⟩ := List.cons.inj h
        exact ⟨k, after, .refl k, hne, hreads⟩
      | cons u front =>
        obtain ⟨rfl, hrest⟩ := List.cons.inj h
        obtain ⟨here, after', hpasses, hhere, hread⟩ := scan_split tabWidth after hrest
        exact ⟨here, after', hreads.passes.trans hpasses, hhere, hread⟩
termination_by k.ahead.length

/-- Behind all tokens stands a cursor too. If the scan has an end, the cursor stands at the end of
the text. -/
theorem scan_passes (tabWidth : Nat) (k : Cursor) :
    ∃ last, k.Passes tabWidth (tokenTexts (k.scan tabWidth).tokens) last ∧
      ∀ e, (k.scan tabWidth).ending = some e →
        last.ahead = [] ∧ last.caret.mark? = some e.position ∧ e.offset = last.offset := by
  by_cases hne : k.ahead = []
  · rw [scan, dif_pos hne]
    refine ⟨k, .refl k, fun e he => ?_⟩
    obtain ⟨position, hmark, rfl⟩ := Option.map_eq_some_iff.mp he
    exact ⟨hne, hmark, rfl⟩
  · cases hnext : k.next tabWidth with
    | error left =>
      rw [scan_of_error hne hnext]
      exact ⟨k, .refl k, fun e he => by cases he⟩
    | ok r =>
      obtain ⟨first, after⟩ := r
      have := next_length_lt hne hnext
      rw [scan_of_next hne hnext]
      obtain ⟨last, hpasses, hending⟩ := scan_passes tabWidth after
      exact ⟨last, (next_reads hnext).passes.trans hpasses, hending⟩
termination_by k.ahead.length

end Cursor

end ProcLang
