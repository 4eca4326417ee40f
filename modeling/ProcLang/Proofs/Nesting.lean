import ProcLang.Proofs.Requests

/-!
# Nested comments

A text is read from left to right into the delimiters of block comments and other characters
(`pieces`). Behind `/*` one comment is open. Each further `/*` opens one more, each `*/` closes one,
and the comment ends where none is left open for the first time. If this never happens, it takes up
the whole text (`first_openedComment`).

The open comments are counted with 32 bits. A lexeme cannot be read if it opens more of them
(`Lexeme.tooDeep?_eq_none_iff`), as a text of 2^32 delimiters does (`not_depthHolds_deepText`).
-/

namespace ProcLang

/-! ## Delimiters -/

/-- What a text in a comment is read into. -/
inductive CommentPiece where
  | opening
  | closing
  | other (c : Char)

namespace CommentPiece

/-- The characters that a piece is made of. -/
def text : CommentPiece → List Char
  | opening => ['/', '*']
  | closing => ['*', '/']
  | other c => [c]

/-- By how much a piece changes the number of open comments. -/
def turn : CommentPiece → Int
  | opening => 1
  | closing => -1
  | other _ => 0

end CommentPiece

/-- The pieces of a text, read from left to right. -/
def pieces : List Char → List CommentPiece
  | '/' :: '*' :: cs => .opening :: pieces cs
  | '*' :: '/' :: cs => .closing :: pieces cs
  | c :: cs => .other c :: pieces cs
  | [] => []

/-- How many comments are open behind pieces, if `depth` are open in front of them. -/
def depthAfter (depth : Int) (ps : List CommentPiece) : Int :=
  ps.foldl (fun now p => now + p.turn) depth

/-- With `depth` comments open in front of all pieces, none is left open for the first time behind
the first ones. -/
structure FirstClosed (depth : Int) (all ps : List CommentPiece) : Prop where
  part : ps <+: all
  closed : depthAfter depth ps = 0
  least : ∀ qs, qs <+: all → depthAfter depth qs = 0 → ps <+: qs

theorem FirstClosed.cons {depth : Int} {p : CommentPiece} {all ps : List CommentPiece}
    (h : FirstClosed (depth + p.turn) all ps) (hdepth : depth ≠ 0) :
    FirstClosed depth (p :: all) (p :: ps) := by
  refine ⟨List.cons_prefix_cons.mpr ⟨rfl, h.part⟩, h.closed, fun qs hqs hclosed => ?_⟩
  rcases List.prefix_cons_iff.mp hqs with rfl | ⟨rest, rfl, hrest⟩
  · exact absurd hclosed hdepth
  · exact List.cons_prefix_cons.mpr ⟨rfl, h.least rest hrest hclosed⟩

/-- What holds of the depth behind every part holds in front of the first piece and behind every
part that goes on from there. -/
theorem forall_depthAfter_cons (P : Int → Prop) {depth : Int} {p : CommentPiece}
    {all : List CommentPiece} : (∀ ps, ps <+: p :: all → P (depthAfter depth ps)) ↔
      P depth ∧ ∀ ps, ps <+: all → P (depthAfter (depth + p.turn) ps) := by
  constructor
  · intro h
    exact ⟨h [] List.nil_prefix, fun ps hps => h (p :: ps) (List.cons_prefix_cons.mpr ⟨rfl, hps⟩)⟩
  · rintro ⟨hdepth, h⟩ ps hps
    rcases List.prefix_cons_iff.mp hps with rfl | ⟨rest, rfl, hrest⟩
    · exact hdepth
    · exact h rest hrest

theorem turn_closing (depth : Nat) :
    ((depth + 1 : Nat) : Int) + CommentPiece.closing.turn = depth := by
  rw [CommentPiece.turn]
  omega

namespace Lexeme

end Lexeme

/-! ## Comments -/

/-- Behind no part of the text of a lexeme more comments are open than 32 bits can count. Only
comments open any. -/
def DepthHolds : List Char → Prop
  | '/' :: '*' :: inside => ∀ ps, ps <+: pieces inside → depthAfter 1 ps ≤ wordMax
  | _ => True

/-- In a text that does not go on behind the end of the comment, it is found where too many comments
are open. -/
theorem Lexeme.tooDeepFrom?_eq_none_iff {depth : Nat} {cs : List Char} (hdepth : depth ≤ wordMax)
    (hend : ∀ inside rest, closeComment depth cs = some (inside, rest) → rest = []) :
    tooDeepFrom? depth cs = none ↔
      ∀ ps, ps <+: pieces cs → depthAfter depth ps ≤ (wordMax : Int) := by
  have nothing : ∀ {d : Nat}, d ≤ wordMax → ∀ ps, ps <+: [] →
      depthAfter d ps ≤ (wordMax : Int) := by
    intro d hd ps hps
    rw [List.prefix_nil.mp hps]
    exact Int.ofNat_le.mpr hd
  have step : ∀ {d : Nat} (p : CommentPiece) (all : List CommentPiece), d ≤ wordMax →
      ((∀ ps, ps <+: p :: all → depthAfter d ps ≤ (wordMax : Int)) ↔
        ∀ ps, ps <+: all → depthAfter (d + p.turn) ps ≤ (wordMax : Int)) := fun _ _ hd =>
    (forall_depthAfter_cons (· ≤ (wordMax : Int))).trans (and_iff_right (Int.ofNat_le.mpr hd))
  fun_induction tooDeepFrom? depth cs with
  | case1 cs =>
    obtain rfl : cs = [] := hend [] cs (by rw [closeComment])
    exact iff_of_true rfl (nothing hdepth)
  | case2 => exact iff_of_true rfl (nothing hdepth)
  | case3 depth cs hnext ih =>
    exact (ih hnext fun inside rest h => hend _ rest (by rw [closeComment, h]; rfl)).trans
      (step .opening (pieces cs) hdepth).symm
  | case4 depth cs hnext =>
    exact iff_of_false (by simp) fun h =>
      hnext (Int.ofNat_le.mp ((step .opening (pieces cs) hdepth).mp h [] List.nil_prefix))
  | case5 depth cs ih =>
    refine (ih (Nat.le_of_succ_le hdepth)
      fun inside rest h => hend _ rest (by rw [closeComment, h]; rfl)).trans ?_
    rw [← turn_closing]
    exact (step .closing (pieces cs) hdepth).symm
  | case6 depth c cs hopen hclose ih =>
    refine (ih hdepth fun inside rest h => hend (c :: inside) rest ?_).trans ?_
    · rw [closeComment.eq_5 depth c cs hopen hclose, h]
      rfl
    · rw [pieces.eq_3 c cs hopen hclose]
      exact (step (.other c) (pieces cs) hdepth).symm

/-- The text of a comment does not go on behind its end. -/
theorem Lexeme.closeComment_of_first {cs text : List Char}
    (h : (first cs).text = '/' :: '*' :: text) :
    ∀ inside rest, closeComment 1 text = some (inside, rest) → rest = [] := by
  intro inside rest hclosed
  have hcs := first_append cs
  rw [h] at hcs
  rw [← hcs, List.cons_append, List.cons_append, first] at h
  cases hclose : closeComment 1 (text ++ (first cs).rest) with
  | none =>
    rw [hclose] at h
    simp only [delimited, List.cons_append, List.nil_append, List.cons.injEq, true_and] at h
    rw [h, hclosed] at hclose
    cases hclose
  | some split =>
    rw [hclose] at h
    simp only [delimited, List.cons_append, List.nil_append, List.cons.injEq, true_and] at h
    have hinside := closeComment_inside hclose []
    rw [List.append_nil, h, hclosed] at hinside
    exact (Prod.mk.inj (Option.some.inj hinside)).2

/-- **Where comments are nested too deep**, the text of a lexeme cannot be read. -/
theorem Lexeme.tooDeep?_eq_none_iff (cs : List Char) :
    tooDeep? (first cs).text = none ↔ DepthHolds (first cs).text := by
  have hend := @closeComment_of_first cs
  generalize (first cs).text = text at hend ⊢
  by_cases hopen : ∃ inside, text = '/' :: '*' :: inside
  · obtain ⟨inside, rfl⟩ := hopen
    exact tooDeepFrom?_eq_none_iff (by decide) (hend rfl)
  · refine iff_of_true ?_ ?_
    · unfold tooDeep?
      split
      · exact absurd ⟨_, rfl⟩ hopen
      · rfl
    · unfold DepthHolds
      split
      · exact absurd ⟨_, rfl⟩ hopen
      · trivial

/-! ## A text that is too deep -/

/-- Delimiters that open comments, on one line. -/
def openings : (count : Nat) → List Char
  | 0 => []
  | count + 1 => '/' :: '*' :: openings count

/-- Lines of such delimiters. -/
def deepText (count : Nat) : (lines : Nat) → List Char
  | 0 => []
  | lines + 1 => openings count ++ '\n' :: deepText count lines

theorem depthAfter_openings (depth : Int) (count : Nat) (rest : List Char) :
    depthAfter depth (pieces (openings count ++ rest)) =
      depthAfter (depth + count) (pieces rest) := by
  induction count generalizing depth with
  | zero => simp [openings]
  | succ count ih =>
    refine (ih (depth + 1)).trans ?_
    congr 1
    omega

theorem depthAfter_deepText (depth : Int) (count lines : Nat) :
    depthAfter depth (pieces (deepText count lines)) = depth + count * lines := by
  induction lines generalizing depth with
  | zero => simp [deepText, pieces, depthAfter]
  | succ lines ih =>
    rw [deepText, depthAfter_openings]
    refine (ih _).trans ?_
    rw [Int.natCast_succ, Int.mul_add]
    dsimp only [CommentPiece.turn]
    omega

/-- A comment stays open over the delimiters. -/
theorem closeComment_openings {rest : List Char}
    (hrest : ∀ depth, Lexeme.closeComment (depth + 1) rest = none) (depth count : Nat) :
    Lexeme.closeComment (depth + 1) (openings count ++ rest) = none := by
  induction count generalizing depth with
  | zero => exact hrest depth
  | succ count ih => exact Option.map_eq_none_iff.mpr (ih (depth + 1))

theorem closeComment_deepText (depth count lines : Nat) :
    Lexeme.closeComment (depth + 1) ('\n' :: deepText count lines) = none := by
  refine Option.map_eq_none_iff.mpr ?_
  induction lines generalizing depth with
  | zero => rfl
  | succ lines ih =>
    exact @closeComment_openings ('\n' :: deepText count lines)
      (fun d => Option.map_eq_none_iff.mpr (ih d)) depth count

/-- There are as many line feeds as lines. -/
theorem count_deepText (count lines : Nat) : (deepText count lines).count '\n' = lines := by
  have line : ∀ count, (openings count).count '\n' = 0 := by
    intro count
    induction count with
    | zero => rfl
    | succ count ih => exact ih
  induction lines with
  | zero => rfl
  | succ lines ih => rw [deepText, List.count_append, line, List.count_cons_self, ih, Nat.zero_add]

theorem fits_deepText {tabWidth count : Nat} (hcount : 2 * count + 1 ≤ wordMax) (lines : Nat) :
    Caret.Fits tabWidth 0 (deepText count lines) := by
  have line : ∀ {rest : List Char}, Caret.Fits tabWidth 0 rest → ∀ count column,
      column + 2 * count + 1 ≤ wordMax →
      Caret.Fits tabWidth column (openings count ++ '\n' :: rest) := by
    intro rest hrest count
    induction count with
    | zero => exact fun column hcolumn => ⟨hcolumn, hrest⟩
    | succ count ih => exact fun column hcolumn => ih (column + 1 + 1) (by omega)
  induction lines with
  | zero => exact Nat.le_trans (by omega) hcount
  | succ lines ih => exact line ih count 0 (by omega)

/-- **A text that is too deep.** If it has more than 2^32 - 1 of these delimiters, on however many
lines, its first lexeme opens too many comments. -/
theorem not_depthHolds_deepText {count lines : Nat} (hdeep : wordMax < count * lines) :
    ¬ DepthHolds (Lexeme.first (deepText count lines)).text := by
  obtain ⟨count, rfl⟩ : ∃ n, count = n + 1 :=
    Nat.exists_eq_succ_of_ne_zero (by rintro rfl; simp at hdeep)
  obtain ⟨lines, rfl⟩ : ∃ n, lines = n + 1 :=
    Nat.exists_eq_succ_of_ne_zero (by rintro rfl; simp at hdeep)
  have hfirst : (Lexeme.first (deepText (count + 1) (lines + 1))).text =
      deepText (count + 1) (lines + 1) := by
    have hopen := closeComment_openings (closeComment_deepText · (count + 1) lines) 0 count
    rw [deepText, openings, List.cons_append, List.cons_append, Lexeme.first, hopen]
    rfl
  rw [hfirst]
  intro h
  have hall : depthAfter 0 (pieces (deepText (count + 1) (lines + 1))) ≤ wordMax :=
    h _ (List.prefix_refl _)
  rw [depthAfter_deepText, Int.zero_add, ← Int.natCast_mul] at hall
  exact absurd (Int.ofNat_le.mp hall) (Nat.not_le.mpr hdeep)

end ProcLang
