import ProcLang.Token

/-!
# Lexemes

`Lexeme.first` reads the first lexeme of a text: its kind, the characters it is made of, and the
characters after it. Lines and columns play no part here, and comments may be nested to any depth;
`Lexeme.tooDeep?` finds where it can no longer be counted.

Two-character operators win over single characters. A word is read as far as letters, digits and
underscores go, and then looked up among the keywords. A point belongs to a number only if a digit
follows it. A string ends at the first quote that does not stand right behind a backslash. Block
comments nest. A NUL character, like the end of the text, is a lexeme that ends the text.
-/

namespace ProcLang

/-- The first lexeme of a text, and the text after it. -/
structure Lexeme where
  kind : TokenKind
  text : List Char
  rest : List Char
deriving DecidableEq

namespace Lexeme

/-- Whether a character starts a word. -/
def isLetter (c : Char) : Bool :=
  c.isAlpha

/-- Whether a character continues a word. -/
def isWordChar (c : Char) : Bool :=
  c.isAlphanum || c == '_'

/-- Whether a character separates tokens: a blank, tab, line feed, form feed or carriage
return. -/
def isBlank (c : Char) : Bool :=
  c == ' ' || c == '\t' || c == '\n' || c == '\x0C' || c == '\r'

/-- Whether a character belongs to a line comment. -/
def isCommentChar (c : Char) : Bool :=
  c != '\n' && c != '\x00'

/-- Splits a text behind the quote that closes a string. The flag says whether the character
before was a backslash. -/
def closeString : (afterBackslash : Bool) → List Char → Option (List Char × List Char)
  | _, [] => none
  | afterBackslash, c :: cs =>
    if c = '"' ∧ afterBackslash = false then
      some ([c], cs)
    else
      (closeString (c == '\\') cs).map fun (inside, after) => (c :: inside, after)

/-- Splits a text behind the delimiter that closes the outermost of `depth` block comments. -/
def closeComment : (depth : Nat) → List Char → Option (List Char × List Char)
  | 0, cs => some ([], cs)
  | _ + 1, [] => none
  | depth + 1, '/' :: '*' :: cs =>
    (closeComment (depth + 2) cs).map fun (inside, after) => ('/' :: '*' :: inside, after)
  | depth + 1, '*' :: '/' :: cs =>
    (closeComment depth cs).map fun (inside, after) => ('*' :: '/' :: inside, after)
  | depth + 1, c :: cs =>
    (closeComment (depth + 1) cs).map fun (inside, after) => (c :: inside, after)

/-- What stands behind the delimiter with which more comments are open than 32 bits can count, if
`depth` of them are open in front of the text. -/
def tooDeepFrom? : (depth : Nat) → List Char → Option (List Char)
  | 0, _ => none
  | _ + 1, [] => none
  | depth + 1, '/' :: '*' :: cs =>
    if depth + 2 ≤ wordMax then tooDeepFrom? (depth + 2) cs else some cs
  | depth + 1, '*' :: '/' :: cs => tooDeepFrom? depth cs
  | depth + 1, _ :: cs => tooDeepFrom? (depth + 1) cs

/-- What stands behind such a delimiter in the text of a lexeme. Only comments have one. -/
def tooDeep? : List Char → Option (List Char)
  | '/' :: '*' :: cs => tooDeepFrom? 1 cs
  | _ => none

/-- The lexeme that starts with `opening` and goes on through a closing delimiter, or through the
whole text if there is none. -/
def delimited (closed unclosed : TokenKind) (opening cs : List Char) :
    Option (List Char × List Char) → Lexeme
  | some (inside, after) => ⟨closed, opening ++ inside, after⟩
  | none => ⟨unclosed, opening ++ cs, []⟩

/-- A word: a keyword or an identifier. -/
def word (c : Char) (cs : List Char) : Lexeme :=
  let text := c :: cs.takeWhile isWordChar
  ⟨(keyword? (String.ofList text)).getD .identifier, text, cs.dropWhile isWordChar⟩

/-- A number: an integer, or a float if a point and a digit follow. -/
def number (c : Char) (cs : List Char) : Lexeme :=
  let whole := c :: cs.takeWhile Char.isDigit
  match cs.dropWhile Char.isDigit with
  | '.' :: d :: after =>
    if d.isDigit then
      ⟨.float, whole ++ '.' :: d :: after.takeWhile Char.isDigit, after.dropWhile Char.isDigit⟩
    else
      ⟨.integer, whole, '.' :: d :: after⟩
  | after => ⟨.integer, whole, after⟩

/-- The kind of a character that is a token by itself. -/
def single? : Char → Option TokenKind
  | '\x00' => some .eof
  | '&' => some .amp
  | '|' => some .pipe
  | '+' => some .plus
  | '-' => some .minus
  | '*' => some .star
  | '/' => some .slash
  | '<' => some .less
  | '>' => some .greater
  | '[' => some .lBracket
  | ']' => some .rBracket
  | '(' => some .lParen
  | ')' => some .rParen
  | '\x7b' => some .lBrace
  | '\x7d' => some .rBrace
  | ';' => some .semicolon
  | ':' => some .colon
  | '.' => some .period
  | ',' => some .comma
  | _ => none

/-- The lexeme that starts with a character, by that character alone. -/
def ofChar (c : Char) (cs : List Char) : Lexeme :=
  match single? c with
  | some kind => ⟨kind, [c], cs⟩
  | none =>
    if c = '"' then delimited .string .unclosedString [c] cs (closeString false cs)
    else if isLetter c then word c cs
    else if c.isDigit then number c cs
    else if isBlank c then ⟨.whitespace, c :: cs.takeWhile isBlank, cs.dropWhile isBlank⟩
    else ⟨.unknown, [c], cs⟩

/-- The first lexeme of a text. -/
def first : List Char → Lexeme
  | [] => ⟨.eof, [], []⟩
  | '/' :: '/' :: cs =>
    ⟨.lineComment, '/' :: '/' :: cs.takeWhile isCommentChar, cs.dropWhile isCommentChar⟩
  | '/' :: '*' :: cs =>
    delimited .blockComment .unclosedComment ['/', '*'] cs (closeComment 1 cs)
  | c :: d :: cs =>
    match digraph? (String.ofList [c, d]) with
    | some kind => ⟨kind, [c, d], cs⟩
    | none => ofChar c (d :: cs)
  | [c] => ofChar c []

/-! ## Nothing is lost -/

theorem closeString_append {after : Bool} {cs inside rest : List Char}
    (h : closeString after cs = some (inside, rest)) : inside ++ rest = cs := by
  induction cs generalizing after inside rest with
  | nil => simp [closeString] at h
  | cons c cs ih =>
    rw [closeString] at h
    split at h
    · simp at h
      simp [← h.1, ← h.2]
    · obtain ⟨⟨inner, tail⟩, found, split⟩ := Option.map_eq_some_iff.1 h
      simp at split
      simp [← split.1, ← split.2, ih found]

theorem closeComment_append {depth : Nat} {cs inside rest : List Char}
    (h : closeComment depth cs = some (inside, rest)) : inside ++ rest = cs := by
  fun_induction closeComment depth cs generalizing inside rest with
  | case1 cs => simp at h; simp [← h.1, ← h.2]
  | case2 => simp at h
  | case3 depth cs ih | case4 depth cs ih | case5 depth c cs _ _ ih =>
    obtain ⟨⟨inner, tail⟩, found, split⟩ := Option.map_eq_some_iff.1 h
    simp at split
    simp [← split.1, ← split.2, ih found]

theorem delimited_append (closed unclosed : TokenKind) {opening cs : List Char}
    {split : Option (List Char × List Char)}
    (h : ∀ inside after, split = some (inside, after) → inside ++ after = cs) :
    (delimited closed unclosed opening cs split).text ++
      (delimited closed unclosed opening cs split).rest = opening ++ cs := by
  match split, h with
  | none, _ => simp [delimited]
  | some (inside, after), h => simp [delimited, h inside after rfl]

theorem word_append (c : Char) (cs : List Char) :
    (word c cs).text ++ (word c cs).rest = c :: cs := by
  simp [word]

theorem number_append (c : Char) (cs : List Char) :
    (number c cs).text ++ (number c cs).rest = c :: cs := by
  unfold number
  split
  · rename_i d after h
    split <;> simp [← h]
  · simp

theorem ofChar_append (c : Char) (cs : List Char) :
    (ofChar c cs).text ++ (ofChar c cs).rest = c :: cs := by
  unfold ofChar
  split
  · simp
  · split
    · exact delimited_append _ _ fun inside after h => closeString_append h
    · split
      · exact word_append c cs
      · split
        · exact number_append c cs
        · split <;> simp

/-- A text is its first lexeme followed by the rest. -/
theorem first_append (cs : List Char) : (first cs).text ++ (first cs).rest = cs := by
  unfold first
  split
  · rfl
  · simp
  · exact delimited_append _ _ fun inside after h => closeComment_append h
  · split
    · simp
    · exact ofChar_append _ _
  · exact ofChar_append _ _

/-! ## Something is read -/

theorem delimited_text_ne_nil (closed unclosed : TokenKind) {opening cs : List Char}
    (split : Option (List Char × List Char)) (h : opening ≠ []) :
    (delimited closed unclosed opening cs split).text ≠ [] := by
  cases split <;> simp [delimited, h]

theorem ofChar_text_ne_nil (c : Char) (cs : List Char) : (ofChar c cs).text ≠ [] := by
  unfold ofChar
  split
  · simp
  · split
    · exact delimited_text_ne_nil _ _ _ (by simp)
    · split
      · simp [word]
      · split
        · unfold number
          split
          · split <;> simp
          · simp
        · split <;> simp

/-- Only the empty text has an empty first lexeme. -/
theorem first_text_ne_nil {cs : List Char} (h : cs ≠ []) : (first cs).text ≠ [] := by
  unfold first
  split
  · exact absurd rfl h
  · simp
  · exact delimited_text_ne_nil _ _ _ (by simp)
  · split
    · simp
    · exact ofChar_text_ne_nil _ _
  · exact ofChar_text_ne_nil _ _

/-- The rest behind the first lexeme is shorter. -/
theorem first_rest_length_lt {cs : List Char} (h : cs ≠ []) :
    (first cs).rest.length < cs.length := by
  have whole := congrArg List.length (first_append cs)
  have some_text := List.length_pos_iff.2 (first_text_ne_nil h)
  simp only [List.length_append] at whole
  omega

end Lexeme

end ProcLang
