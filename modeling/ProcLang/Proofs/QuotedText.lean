import ProcLang.Proofs.TextConstants
import ProcLang.Text.Quoted

/-!
# Quoted texts read back

Every character of a text can be read back from what stands for it between the quotes
(`unquoteChar_quoteChar`): a backslash announces a short escape or the number of a character, and
anything else stands for itself. So texts that are quoted alike are the same (`quoted_inj`). A
quoted text is a single line (`lineFeed_not_mem_quoted`).
-/

namespace ProcLang.Text

/-! ## Numbers of characters -/

/-- The number that is written in base sixteen. -/
def hexNumber (digits : List Char) : Nat :=
  digits.foldl (fun n c => 16 * n + (Ir.hexValue? c).getD 0) 0

theorem hexValue?_digitChar : ∀ n < 16, Ir.hexValue? n.digitChar = some n := by
  decide

theorem hexNumber_hexDigits (n : Nat) : hexNumber (hexDigits n) = n := by
  induction n using Nat.strongRecOn with
  | ind n ih =>
    by_cases hlt : n < 16
    · rw [hexDigits, Nat.toDigits_of_lt_base hlt, hexNumber, List.foldl_cons, List.foldl_nil,
        hexValue?_digitChar n hlt, Option.getD_some, Nat.mul_zero, Nat.zero_add]
    · have hrest := ih (n / 16) (by omega)
      rw [hexDigits, hexNumber] at hrest
      rw [hexDigits, Nat.toDigits_of_base_le (by decide) (by omega), hexNumber, List.foldl_append,
        hrest, List.foldl_cons, List.foldl_nil, hexValue?_digitChar _ (Nat.mod_lt n (by decide)),
        Option.getD_some]
      omega

/-- All that is written for a number are digits in base sixteen. -/
theorem hexValue?_of_mem {n : Nat} {c : Char} (h : c ∈ hexDigits n) :
    (Ir.hexValue? c).isSome = true := by
  have hdigit : ∀ k < 16, (Ir.hexValue? k.digitChar).isSome = true := by decide
  induction n using Nat.strongRecOn with
  | ind n ih =>
    by_cases hlt : n < 16
    · rw [hexDigits, Nat.toDigits_of_lt_base hlt, List.mem_singleton] at h
      rw [h]
      exact hdigit n hlt
    · rw [hexDigits, Nat.toDigits_of_base_le (by decide) (by omega), List.mem_append,
        List.mem_singleton] at h
      rcases h with h | rfl
      · exact ih (n / 16) (by omega) h
      · exact hdigit _ (Nat.mod_lt n (by decide))

/-! ## Characters -/

/-- Reads the character for which the front of a quoted text stands. -/
def unquoteChar : List Char → Option (Char × List Char)
  | '\\' :: 'u' :: '\x7b' :: rest =>
    some (Char.ofNat (hexNumber (rest.takeWhile (· != '\x7d'))),
      (rest.dropWhile (· != '\x7d')).tail)
  | '\\' :: 'n' :: rest => some ('\n', rest)
  | '\\' :: 'r' :: rest => some ('\r', rest)
  | '\\' :: 't' :: rest => some ('\t', rest)
  | '\\' :: '0' :: rest => some ('\x00', rest)
  | '\\' :: c :: rest => some (c, rest)
  | c :: rest => some (c, rest)
  | [] => none

theorem unquoteChar_plain {c : Char} (h : c ≠ '\\') (rest : List Char) :
    unquoteChar (c :: rest) = some (c, rest) := by
  unfold unquoteChar
  split <;> simp_all

/-- The number of a character reads back. -/
theorem unquoteChar_number (c : Char) (rest : List Char) :
    unquoteChar ('\\' :: 'u' :: '\x7b' :: (hexDigits c.toNat ++ '\x7d' :: rest)) =
      some (c, rest) := by
  have hdigits : ∀ d ∈ hexDigits c.toNat, (d != '\x7d') = true := by
    intro d hd
    rw [bne_iff_ne]
    rintro rfl
    exact absurd (hexValue?_of_mem hd) (by decide)
  rw [unquoteChar, List.takeWhile_append_of_pos hdigits, List.dropWhile_append_of_pos hdigits,
    List.takeWhile_cons_of_neg (by decide), List.dropWhile_cons_of_neg (by decide), List.append_nil,
    hexNumber_hexDigits, Char.ofNat_toNat, List.tail_cons]

/-- The characters that have a short escape, with the one that stands behind the backslash. -/
def shortEscapes : List (Char × Char) :=
  [('"', '"'), ('\\', '\\'), ('\n', 'n'), ('\r', 'r'), ('\t', 't'), ('\x00', '0')]

/-- **What can stand for a character**: a short escape, its number, or the character itself. -/
theorem quoteChar_cases (c : Char) :
    (∃ k, (c, k) ∈ shortEscapes ∧ quoteChar c = ['\\', k]) ∨
      quoteChar c = ['\\', 'u', '\x7b'] ++ hexDigits c.toNat ++ ['\x7d'] ∨
      quoteChar c = [c] ∧ c ≠ '\\' ∧ c ≠ '\n' := by
  by_cases hquote : c = '"'
  · subst hquote
    exact Or.inl ⟨'"', by decide, rfl⟩
  by_cases hslash : c = '\\'
  · subst hslash
    exact Or.inl ⟨'\\', by decide, rfl⟩
  by_cases hfeed : c = '\n'
  · subst hfeed
    exact Or.inl ⟨'n', by decide, rfl⟩
  by_cases hreturn : c = '\r'
  · subst hreturn
    exact Or.inl ⟨'r', by decide, rfl⟩
  by_cases htab : c = '\t'
  · subst htab
    exact Or.inl ⟨'t', by decide, rfl⟩
  by_cases hnul : c = '\x00'
  · subst hnul
    exact Or.inl ⟨'0', by decide, rfl⟩
  right
  rw [quoteChar, if_neg hquote, if_neg hslash, if_neg hfeed, if_neg hreturn, if_neg htab,
    if_neg hnul]
  split
  · exact Or.inl rfl
  · exact Or.inr ⟨rfl, hslash, hfeed⟩

/-- **A character reads back** from what stands for it. -/
theorem unquoteChar_quoteChar (c : Char) (rest : List Char) :
    unquoteChar (quoteChar c ++ rest) = some (c, rest) := by
  rcases quoteChar_cases c with ⟨k, hk, hquote⟩ | hquote | ⟨hquote, hslash, -⟩
  · rw [hquote]
    simp only [shortEscapes, List.mem_cons, Prod.mk.injEq, List.not_mem_nil, or_false] at hk
    rcases hk with ⟨rfl, rfl⟩ | ⟨rfl, rfl⟩ | ⟨rfl, rfl⟩ | ⟨rfl, rfl⟩ | ⟨rfl, rfl⟩ |
      ⟨rfl, rfl⟩ <;> rfl
  · rw [hquote]
    simp only [List.append_assoc, List.cons_append, List.nil_append]
    exact unquoteChar_number c rest
  · rw [hquote]
    exact unquoteChar_plain hslash rest

/-- What stands for a character is on one line. -/
theorem lineFeed_not_mem_quoteChar (c : Char) : '\n' ∉ quoteChar c := by
  rcases quoteChar_cases c with ⟨k, hk, hquote⟩ | hquote | ⟨hquote, -, hfeed⟩
  · have hletters : shortEscapes.all (fun escape => '\n' != escape.2) = true := by decide
    have hletter := List.all_eq_true.mp hletters (c, k) hk
    rw [hquote]
    simpa using hletter
  · rw [hquote]
    intro hmem
    rcases List.mem_append.mp hmem with hmem | hmem
    · rcases List.mem_append.mp hmem with hmem | hmem
      · exact absurd hmem (by decide)
      · exact absurd (hexValue?_of_mem hmem) (by decide)
    · exact absurd hmem (by decide)
  · rw [hquote, List.mem_singleton]
    exact fun h => hfeed h.symm

/-! ## Texts -/

theorem flatMap_quoteChar_inj :
    ∀ {s t : List Char}, s.flatMap quoteChar = t.flatMap quoteChar → s = t
  | [], [], _ => rfl
  | [], _ :: _, h | _ :: _, [], h => by
    have hread := congrArg unquoteChar h
    rw [List.flatMap_cons, unquoteChar_quoteChar] at hread
    cases hread
  | c :: s, d :: t, h => by
    have hread := congrArg unquoteChar h
    rw [List.flatMap_cons, List.flatMap_cons, unquoteChar_quoteChar, unquoteChar_quoteChar] at hread
    obtain ⟨rfl, hrest⟩ := Prod.mk.inj (Option.some.inj hread)
    rw [flatMap_quoteChar_inj hrest]

/-- **Texts that are quoted alike are the same.** -/
theorem quoted_inj {s t : String} (h : quoted s = quoted t) : s = t := by
  have hinside := String.ofList_injective h
  exact String.toList_inj.mp (flatMap_quoteChar_inj (List.append_cancel_left
    (List.append_cancel_right hinside)))

theorem lineFeed_not_mem_quoted (s : String) : '\n' ∉ (quoted s).toList := by
  rw [quoted, String.toList_ofList]
  intro h
  rcases List.mem_append.mp h with h | h
  · rcases List.mem_append.mp h with h | h
    · exact absurd h (by decide)
    · obtain ⟨c, -, hc⟩ := List.mem_flatMap.mp h
      exact lineFeed_not_mem_quoteChar c hc
  · exact absurd h (by decide)

end ProcLang.Text
