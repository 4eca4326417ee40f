import ProcLang.Lower.Stmt

/-!
# Names that are handed out

A function hands out names that end in a point and a number, and parameters are named after their
source name with `.arg` behind it. This file shows what keeps all of them apart:

* `numbered_inj`: a handed-out name determines its hint and its number;
* `argName_ne_numbered`: no parameter has a handed-out name;
* `argName_inj`: parameters have the same name only if their source names are the same.
-/

namespace ProcLang.Naming

/-- The name for a hint and a number. -/
def numbered (hint : String) (n : Nat) : String :=
  hint ++ "." ++ toString n

/-- A name that was handed out before the number `n` was reached. -/
def Issued (n : Nat) (name : String) : Prop :=
  ∃ hint k, k < n ∧ name = numbered hint k

theorem freshName_eq (f : Ir.Function) (hint : String) :
    f.freshName hint = numbered hint f.nextId := rfl

/-! ## Digits behind a point -/

theorem isDigit_of_mem_toString {n : Nat} {c : Char} (h : c ∈ (toString n).toList) :
    c.isDigit = true := by
  rw [Nat.toString_eq_repr, Nat.toList_repr] at h
  exact Nat.isDigit_of_mem_toDigits (by decide) (by decide) h

theorem toString_inj {m n : Nat} (h : toString m = toString n) : m = n := by
  have digits : Nat.toDigits 10 m = Nat.toDigits 10 n := by
    have := congrArg String.toList h
    rwa [Nat.toString_eq_repr, Nat.toString_eq_repr, Nat.toList_repr, Nat.toList_repr] at this
  have value := congrArg (Nat.ofDigitChars 10 · 0) digits
  simpa only [Nat.ofDigitChars_toDigits (b := 10) (by decide) (by decide)] using value

/-- The characters behind the last point of a list are determined by the list. -/
theorem split_at_last_point {a b s t : List Char} (hs : '.' ∉ s) (ht : '.' ∉ t)
    (h : a ++ '.' :: s = b ++ '.' :: t) : a = b ∧ s = t := by
  rcases List.append_eq_append_iff.mp h with ⟨c, rfl, hc⟩ | ⟨c, rfl, hc⟩
  · cases c with
    | nil => exact ⟨(List.append_nil a).symm, by simpa using hc⟩
    | cons x c =>
      have hmem : '.' ∈ s := by
        rw [(List.cons.inj hc).2]
        simp
      exact absurd hmem hs
  · cases c with
    | nil => exact ⟨List.append_nil b, by simpa using hc.symm⟩
    | cons x c =>
      have hmem : '.' ∈ t := by
        rw [(List.cons.inj hc).2]
        simp
      exact absurd hmem ht

theorem toList_numbered (hint : String) (n : Nat) :
    (numbered hint n).toList = hint.toList ++ '.' :: (toString n).toList := by
  simp [numbered, String.toList_append]

theorem point_not_mem_toString (n : Nat) : '.' ∉ (toString n).toList := by
  intro h
  exact absurd (isDigit_of_mem_toString h) (by decide)

/-- **A handed-out name determines its hint and its number.** -/
theorem numbered_inj {hint hint' : String} {m n : Nat}
    (h : numbered hint m = numbered hint' n) : hint = hint' ∧ m = n := by
  have lists := congrArg String.toList h
  rw [toList_numbered, toList_numbered] at lists
  obtain ⟨h1, h2⟩ :=
    split_at_last_point (point_not_mem_toString m) (point_not_mem_toString n) lists
  exact ⟨String.toList_inj.mp h1, toString_inj (String.toList_inj.mp h2)⟩

theorem numbered_ne_of_point_not_mem {name : String} (h : '.' ∉ name.toList) (hint : String)
    (n : Nat) : name ≠ numbered hint n := by
  rintro rfl
  rw [toList_numbered] at h
  exact h (by simp)

theorem entry_ne_numbered (hint : String) (n : Nat) : "entry" ≠ numbered hint n :=
  numbered_ne_of_point_not_mem (by decide) hint n

/-! ## Handed-out names -/

theorem Issued.mono {m n : Nat} {name : String} (h : Issued m name) (hmn : m ≤ n) :
    Issued n name := by
  obtain ⟨hint, k, hk, rfl⟩ := h
  exact ⟨hint, k, Nat.lt_of_lt_of_le hk hmn, rfl⟩

theorem issued_numbered (hint : String) (n : Nat) : Issued (n + 1) (numbered hint n) :=
  ⟨hint, n, Nat.lt_succ_self n, rfl⟩

/-- The name that comes next was not handed out before. -/
theorem not_issued_numbered (hint : String) (n : Nat) : ¬ Issued n (numbered hint n) := by
  rintro ⟨hint', k, hk, h⟩
  have := (numbered_inj h).2
  omega

/-! ## Names of parameters -/

theorem toList_argName (name : String) :
    (Lower.argName name).toList = name.toList ++ '.' :: ['a', 'r', 'g'] := by
  simp [Lower.argName, String.toList_append]

theorem argName_inj {name name' : String} (h : Lower.argName name = Lower.argName name') :
    name = name' := by
  have lists := congrArg String.toList h
  rw [toList_argName, toList_argName] at lists
  exact String.toList_inj.mp (List.append_inj_left' lists rfl)

theorem argName_ne_numbered (name hint : String) (n : Nat) :
    Lower.argName name ≠ numbered hint n := by
  intro h
  have lists := congrArg String.toList h
  rw [toList_argName, toList_numbered] at lists
  have digits := (split_at_last_point (by decide) (point_not_mem_toString n) lists).2
  have : 'a'.isDigit = true := isDigit_of_mem_toString (n := n) (by rw [← digits]; simp)
  exact absurd this (by decide)

theorem argName_ne_entry (name : String) : Lower.argName name ≠ "entry" := by
  intro h
  have : '.' ∈ "entry".toList := by
    rw [← h, toList_argName]
    simp
  exact absurd this (by decide)

end ProcLang.Naming
