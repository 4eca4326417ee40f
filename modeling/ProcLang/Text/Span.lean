import ProcLang.Text.Position

/-!
# Spans

A `Span` is a stretch of a source text, given by the byte offset at which it starts and its length
in bytes. Offsets are 64-bit numbers and lengths are 32-bit numbers. `Span.slice?` cuts the
stretch out of a text; it fails when an end lies outside the text or inside a character.
-/

namespace ProcLang

/-- The largest byte offset. -/
def offsetMax : Nat := 0xFFFFFFFFFFFFFFFF

/-- The number of bytes of a text in UTF-8. -/
def utf8Length : List Char → Nat
  | [] => 0
  | c :: cs => c.utf8Size + utf8Length cs

@[simp]
theorem utf8Length_nil : utf8Length [] = 0 := rfl

@[simp]
theorem utf8Length_cons (c : Char) (cs : List Char) :
    utf8Length (c :: cs) = c.utf8Size + utf8Length cs := rfl

@[simp]
theorem utf8Length_append (a b : List Char) :
    utf8Length (a ++ b) = utf8Length a + utf8Length b := by
  induction a with
  | nil => simp
  | cons c a ih => simp [ih, Nat.add_assoc]

/-- Splits a text at a byte offset, if a character starts or the text ends there. -/
def splitAtByte? : Nat → List Char → Option (List Char × List Char)
  | 0, cs => some ([], cs)
  | _ + 1, [] => none
  | n + 1, c :: cs =>
    if c.utf8Size ≤ n + 1 then
      (splitAtByte? (n + 1 - c.utf8Size) cs).map fun (before, after) => (c :: before, after)
    else
      none

/-- The offset behind a part of a text splits the text there. -/
theorem splitAtByte?_append (a b : List Char) :
    splitAtByte? (utf8Length a) (a ++ b) = some (a, b) := by
  induction a with
  | nil => cases b <;> rfl
  | cons c a ih =>
    obtain ⟨n, hn⟩ := Nat.exists_eq_succ_of_ne_zero (Nat.pos_iff_ne_zero.1 c.utf8Size_pos)
    have size : utf8Length (c :: a) = (n + utf8Length a) + 1 := by
      rw [utf8Length_cons, hn]
      omega
    have rest : n + utf8Length a + 1 - c.utf8Size = utf8Length a := by omega
    rw [size, List.cons_append, splitAtByte?, if_pos (by omega), rest, ih]
    rfl

/-- A stretch of a text: the byte offset of its start, and its length in bytes. -/
structure Span where
  lo : Nat
  len : Nat
deriving DecidableEq, Inhabited

namespace Span

/-- The span between two offsets, none if they are out of order. A length that does not fit is
cut to the largest one. -/
def ofBounds? (lo hi : Nat) : Option Span :=
  if lo ≤ hi then some ⟨lo, min (hi - lo) wordMax⟩ else none

/-- The offset at which the span ends, if there is such an offset. -/
def hi? (s : Span) : Option Nat :=
  if s.lo + s.len ≤ offsetMax then some (s.lo + s.len) else none

/-- An offset moved by a signed distance, stopping at the smallest and at the largest offset. -/
def moveOffset (offset : Nat) (distance : Int) : Nat :=
  min (offset + distance).toNat offsetMax

/-- Moves both ends. An end that would come to lie before the start is moved to the start. -/
def shift? (s : Span) (loDistance hiDistance : Int) : Option Span :=
  s.hi?.bind fun hi =>
    let lo := moveOffset s.lo loDistance
    ofBounds? lo (max (moveOffset hi hiDistance) lo)

/-- The stretch of the text that the span covers. -/
def slice? (s : Span) (text : List Char) : Option (List Char) := do
  let hi ← s.hi?
  let (before, _) ← splitAtByte? hi text
  let (_, inner) ← splitAtByte? s.lo before
  pure inner

/-- The two ends, as in `2..5`. -/
def render? (s : Span) : Option String :=
  s.hi?.map fun hi => toString s.lo ++ ".." ++ toString hi

/-- The ends and the length, as in `Span(2..5, len: 3)`. -/
def describe? (s : Span) : Option String :=
  s.render?.map fun ends => "Span(" ++ ends ++ ", len: " ++ toString s.len ++ ")"

end Span

end ProcLang
