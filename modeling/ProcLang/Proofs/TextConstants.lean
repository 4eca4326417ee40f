import ProcLang.Proofs.Building

/-!
# Text constants

A text becomes global data: its bytes in UTF-8 and a zero byte. In the text of the module these
stand between quotes, some of them as they are and the others as a backslash and two digits in base
sixteen.

* `unescape`: the bytes that the inside of a quoted text stands for;
* `unescape_escape`: they are the bytes that were written;
* `mem_escape`: all that is written is printable, and no quote is;
* `text_constants_faithful`: a text that is added to a module can be read back from what is written
  for it, which says how many bytes it has.
-/

namespace ProcLang.Ir

/-! ## Digits -/

/-- The value of a digit in base sixteen, in upper or lower case. -/
def hexValue? (c : Char) : Option Nat :=
  if '0' ≤ c ∧ c ≤ '9' then some (c.toNat - '0'.toNat)
  else if 'A' ≤ c ∧ c ≤ 'F' then some (c.toNat - 'A'.toNat + 10)
  else if 'a' ≤ c ∧ c ≤ 'f' then some (c.toNat - 'a'.toNat + 10)
  else none

/-- The character stands for itself in a quoted text, if it is no backslash. -/
def Printable (c : Char) : Prop :=
  0x20 ≤ c.toNat ∧ c.toNat ≤ 0x7E ∧ c ≠ '"'

instance (c : Char) : Decidable (Printable c) :=
  inferInstanceAs (Decidable (_ ∧ _))

/-- A digit reads back as its value, and it is printable. -/
theorem hexDigit_spec : ∀ n < 16, hexValue? (hexDigit n) = some n ∧ Printable (hexDigit n) := by
  decide

/-- A byte is written with two digits. -/
theorem hexDigits_two (n : Nat) : hexDigits 2 n = [hexDigit (n / 16 % 16), hexDigit (n % 16)] := rfl

/-! ## Quoted texts -/

/-- The bytes that the inside of a quoted text stands for. A backslash has to have two digits behind
it, and what is no ASCII character stands for nothing. -/
def unescape : List Char → Option (List UInt8)
  | [] => some []
  | '\\' :: high :: low :: rest => do
    let h ← hexValue? high
    let l ← hexValue? low
    let bytes ← unescape rest
    return .ofNat (16 * h + l) :: bytes
  | c :: rest =>
    if c = '\\' ∨ 0x7F < c.toNat then none else (unescape rest).map (.ofNat c.toNat :: ·)

theorem unescape_printable {c : Char} (h : Printable c) (hc : c ≠ '\\') (rest : List Char) :
    unescape (c :: rest) = (unescape rest).map (.ofNat c.toNat :: ·) := by
  have hbound := h.2.1
  have hplain : ¬ (c = '\\' ∨ 0x7F < c.toNat) := by
    rintro (hslash | hlarge)
    · exact hc hslash
    · omega
  rw [unescape, if_neg hplain]
  exact fun _ _ _ hslash _ => hc hslash

/-- A byte that stands for itself is a printable character. -/
theorem printable_ofNat {n : Nat} (h : ¬ (n = '"'.toNat ∨ n = '\\'.toNat ∨ n < 0x20 ∨ 0x7E < n)) :
    (Char.ofNat n).toNat = n ∧ Printable (Char.ofNat n) ∧ Char.ofNat n ≠ '\\' := by
  have hvalid : n.isValidChar := Or.inl (by omega)
  have hn : (Char.ofNat n).toNat = n := by
    rw [Char.ofNat, dif_pos hvalid]
    rfl
  refine ⟨hn, ⟨by omega, by omega, fun hquote => ?_⟩, fun hslash => ?_⟩
  · exact h (Or.inl (by rw [← hn, hquote]))
  · exact h (Or.inr (Or.inl (by rw [← hn, hslash])))

/-- **A byte reads back** as it was written. -/
theorem unescape_escapeByte (b : UInt8) (rest : List Char) :
    unescape (escapeByte b ++ rest) = (unescape rest).map (b :: ·) := by
  have hb := b.toNat_lt
  unfold escapeByte
  dsimp only
  split
  · obtain ⟨hhigh, -⟩ := hexDigit_spec (b.toNat / 16 % 16) (by omega)
    obtain ⟨hlow, -⟩ := hexDigit_spec (b.toNat % 16) (by omega)
    have hvalue : 16 * (b.toNat / 16 % 16) + b.toNat % 16 = b.toNat := by omega
    rw [hexDigits_two, List.cons_append, List.cons_append, List.cons_append, List.nil_append,
      unescape, hhigh, hlow]
    cases unescape rest with
    | none => rfl
    | some bytes =>
      show some (UInt8.ofNat (16 * (b.toNat / 16 % 16) + b.toNat % 16) :: bytes) = _
      rw [hvalue, UInt8.ofNat_toNat]
      rfl
  · rename_i hplain
    obtain ⟨hn, hprint, hslash⟩ := printable_ofNat hplain
    rw [List.singleton_append, unescape_printable hprint hslash, hn, UInt8.ofNat_toNat]

/-- What is written for a byte is printable. -/
theorem mem_escapeByte {b : UInt8} {c : Char} (h : c ∈ escapeByte b) : Printable c := by
  unfold escapeByte at h
  dsimp only at h
  split at h
  · rw [hexDigits_two] at h
    rcases List.mem_cons.mp h with rfl | h
    · decide
    · rcases List.mem_cons.mp h with rfl | h
      · exact (hexDigit_spec _ (by omega)).2
      · rw [List.mem_singleton.mp h]
        exact (hexDigit_spec _ (by omega)).2
  · rename_i hplain
    rw [List.mem_singleton.mp h]
    exact (printable_ofNat hplain).2.1

theorem unescape_flatMap (bytes : List UInt8) (rest : List Char) :
    unescape (bytes.flatMap escapeByte ++ rest) = (unescape rest).map (bytes ++ ·) := by
  induction bytes with
  | nil => simp
  | cons b bytes ih =>
    rw [List.flatMap_cons, List.append_assoc, unescape_escapeByte, ih, Option.map_map]
    rfl

/-- The bytes of a text are those that it is kept in. -/
theorem utf8Bytes_eq (s : String) : utf8Bytes s = s.toUTF8.data.toList := by
  rw [String.toUTF8_eq_toByteArray, ← String.utf8Encode_toList]
  exact List.toList_data_toByteArray.symm

/-- **A quoted text reads back** as its bytes. -/
theorem unescape_escape (s : String) (rest : List Char) :
    unescape ((escape s).toList ++ rest) = (unescape rest).map (s.toUTF8.data.toList ++ ·) := by
  rw [escape, String.toList_ofList, unescape_flatMap, utf8Bytes_eq]

/-- What is written for a text is printable. -/
theorem mem_escape {s : String} {c : Char} (h : c ∈ (escape s).toList) : Printable c := by
  rw [escape, String.toList_ofList] at h
  obtain ⟨b, -, hc⟩ := List.mem_flatMap.mp h
  exact mem_escapeByte hc

/-! ## Constants -/

/-- What stands between the quotes of a text constant: the text and the zero byte. -/
def quotedText (text : String) : String :=
  escape text ++ "\\00"

theorem unescape_quotedText (text : String) :
    unescape (quotedText text).toList = some (text.toUTF8.data.toList ++ [0]) := by
  rw [quotedText, String.toList_append, unescape_escape]
  rfl

theorem mem_quotedText {text : String} {c : Char} (h : c ∈ (quotedText text).toList) :
    Printable c := by
  rw [quotedText, String.toList_append, List.mem_append] at h
  rcases h with h | h
  · exact mem_escape h
  · have zero : "\\00".toList.all (decide <| Printable ·) = true := by decide
    exact of_decide_eq_true (List.all_eq_true.mp zero c h)

/-- Texts are told apart by what stands between the quotes. -/
theorem quotedText_inj {text other : String} (h : quotedText other = quotedText text) :
    other = text := by
  have bytes := (unescape_quotedText other).symm.trans (h ▸ unescape_quotedText text)
  have same := List.append_cancel_right (Option.some.inj bytes)
  exact String.toByteArray_inj.mp (ByteArray.ext (Array.toList_inj.mp same))

/-- **Texts are written faithfully.** A text of less than 2^32 - 1 bytes that is added to a module
under a name that is free becomes global data. Between the quotes in what is written for them are
printable ASCII characters only, and no quote; without the escapes these are the bytes of the text
in UTF-8 and a zero byte, as many as the type says. Different texts have different characters
between the quotes. -/
theorem text_constants_faithful {b : Builder} {name text : String}
    (free : b.module.hasSymbol name = false) (size : text.utf8ByteSize < 0xFFFFFFFF) :
    ∃ g, Build.globalText name text b = .ok (.ok (.address name),
        { b with module := { b.module with globals := b.module.globals ++ [g] } }) ∧
      g.render = "@" ++ name ++ " = private unnamed_addr constant [" ++
        toString (text.utf8ByteSize + 1) ++ " x i8] c\"" ++ quotedText text ++ "\"" ∧
      (∀ c ∈ (quotedText text).toList, Printable c) ∧
      (∃ bytes, unescape (quotedText text).toList = some bytes ∧
        bytes = text.toUTF8.data.toList ++ [0] ∧ bytes.length = text.utf8ByteSize + 1) ∧
      ∀ other, quotedText other = quotedText text → other = text := by
  have hlength : Build.textLength text = text.utf8ByteSize + 1 := Nat.min_eq_left (by omega)
  refine ⟨_, Build.addGlobal_new free, ?_, fun c hc => mem_quotedText hc,
    ⟨_, unescape_quotedText text, rfl, ?_⟩, fun other => quotedText_inj⟩
  · have hopening : " = private unnamed_addr constant [" =
      " = private unnamed_addr constant " ++ "[" :=
      rfl
    simp only [Global.render, Ty.render, hlength, quotedText, hopening, String.append_assoc]
    rfl
  · rw [List.length_append, List.length_singleton]
    rfl

/-- A text with quotes, a line feed, something that looks like an escape, and a letter of two bytes.
-/
theorem text_constants_faithful_mixed :
    ∃ g, Build.globalText "s.0" "\"é\"\n\\0A" ⟨{ name := "m" }, none⟩ =
        .ok (.ok (.address "s.0"), ⟨{ name := "m", globals := [g] }, none⟩) ∧
      g.render =
        "@s.0 = private unnamed_addr constant [9 x i8] c\"\\22\\C3\\A9\\22\\0A\\5C0A\\00\"" := by
  have hfree : Module.hasSymbol { name := "m" } "s.0" = false := rfl
  have hsize : "\"é\"\n\\0A".utf8ByteSize < 0xFFFFFFFF := by decide
  obtain ⟨g, hrun, hrender, -⟩ :=
    text_constants_faithful (b := ⟨{ name := "m" }, none⟩) hfree hsize
  exact ⟨g, hrun, hrender.trans (by decide)⟩

end ProcLang.Ir
