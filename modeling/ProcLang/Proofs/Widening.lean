import ProcLang.Number.Binary32

/-!
# Widening loses nothing

A float constant is written as the bits of the equal 64-bit number. `Binary32.ofBits64` goes the
other way: the exponent field says how many bits of the significand count, 24 for all but the
smallest magnitudes, and the rest of it is the scale. No number is lost (`ofBits64_toBits64`), and
the bits fit into 64 (`toBits64_lt`).
-/

namespace ProcLang.Binary32

/-- The magnitude that was widened to the given 63 bits. -/
def narrowMagnitude (wide : Nat) : Nat :=
  let exponent := wide >>> 52
  if 0x7FF ≤ exponent then
    infinity
  else if exponent = 0 then
    0
  else
    let top := min 23 (exponent - 874)
    (1 <<< top) + ((wide % (1 <<< 52)) >>> (52 - top)) + (exponent - 874 - top) * 0x800000

/-- The number that was widened to the given 64 bits. -/
def ofBits64 (bits : Nat) : Binary32 :=
  ⟨decide (0x8000000000000000 ≤ bits), narrowMagnitude (bits % 0x8000000000000000)⟩

/-! ## Fields -/

theorem shiftLeft_eq_mul (a k : Nat) : a <<< k = a * 1 <<< k := by
  rw [Nat.shiftLeft_eq, Nat.one_shiftLeft]

theorem shiftRight_eq_div (a k : Nat) : a >>> k = a / 1 <<< k := by
  rw [Nat.shiftRight_eq_div_pow, Nat.one_shiftLeft]

theorem one_shiftLeft_pos (k : Nat) : 0 < 1 <<< k := by
  rw [Nat.one_shiftLeft]
  exact Nat.two_pow_pos k

section Finite

variable {magnitude : Nat} (hzero : magnitude ≠ 0) (hfinite : magnitude < infinity)

include hzero hfinite

/-- The fields of a finite magnitude: its significand has 24 bits unless the scale is the smallest.
-/
theorem fields :
    magnitude = significand magnitude + scale magnitude * 0x800000 ∧ significand magnitude ≠ 0 ∧
      significand magnitude < 0x1000000 ∧ scale magnitude < 254 ∧
      (scale magnitude = 0 ∨ 0x800000 ≤ significand magnitude) := by
  unfold infinity at hfinite
  unfold significand scale
  omega

/-- The 63 bits of a finite number other than zero: the exponent above the fraction. The fraction
holds the bits of the significand below its first one, at the place `top`. -/
theorem wideMagnitude_parts :
    ∃ top fraction, top ≤ 23 ∧ (scale magnitude = 0 ∨ top = 23) ∧ fraction < 1 <<< 52 ∧
      wideMagnitude magnitude = fraction + (top + scale magnitude + 874) * 1 <<< 52 ∧
      1 <<< top + fraction / 1 <<< (52 - top) = significand magnitude := by
  obtain ⟨-, hne, hlt, -, hnormal⟩ := fields hzero hfinite
  have hwide : wideMagnitude magnitude = _ :=
    (if_neg (Nat.not_le.mpr hfinite)).trans (if_neg hzero)
  have hlow := Nat.log2_self_le hne
  have hhigh : significand magnitude < _ := Nat.lt_log2_self
  have hle : (significand magnitude).log2 < 24 := (Nat.log2_lt hne).mpr hlt
  have hlarge : (significand magnitude).log2 < 23 → significand magnitude < 0x800000 :=
    (Nat.log2_lt hne).mp
  dsimp only at hwide
  rw [Nat.pow_succ] at hhigh
  rw [← Nat.one_shiftLeft] at hlow hhigh
  generalize (significand magnitude).log2 = top at *
  have hsplit : 1 <<< top * 1 <<< (52 - top) = 1 <<< 52 := by
    rw [← shiftLeft_eq_mul, ← Nat.shiftLeft_add, Nat.add_sub_cancel' (by omega)]
  refine ⟨top, (significand magnitude - 1 <<< top) <<< (52 - top), by omega, by omega, ?_, ?_, ?_⟩
  · rw [shiftLeft_eq_mul, ← hsplit]
    exact Nat.mul_lt_mul_of_pos_right (by omega) (one_shiftLeft_pos _)
  · rw [hwide, Nat.add_comm, shiftLeft_eq_mul _ 52]
  · rw [shiftLeft_eq_mul (_ - _), Nat.mul_div_cancel _ (one_shiftLeft_pos _),
      Nat.add_sub_cancel' hlow]

end Finite

/-! ## Magnitudes -/

/-- **No magnitude is lost.** -/
theorem narrowMagnitude_wideMagnitude {magnitude : Nat} (h : magnitude ≤ infinity) :
    narrowMagnitude (wideMagnitude magnitude) = magnitude := by
  by_cases hinfinite : infinity ≤ magnitude
  · rw [wideMagnitude, if_pos hinfinite, Nat.le_antisymm h hinfinite]
    rfl
  by_cases hzero : magnitude = 0
  · rw [hzero]
    rfl
  have hfinite : magnitude < infinity := Nat.lt_of_not_le hinfinite
  obtain ⟨hfields, -, -, hscale, -⟩ := fields hzero hfinite
  obtain ⟨top, fraction, htop, hnormal, hlt, hwide, hsignificand⟩ :=
    wideMagnitude_parts hzero hfinite
  have hmax : ¬ 0x7FF ≤ top + scale magnitude + 874 := by omega
  -- the bits that count are 24, unless the scale is the smallest
  have hmin : min 23 (top + scale magnitude + 874 - 874) = top := by omega
  have hexponent : wideMagnitude magnitude >>> 52 = top + scale magnitude + 874 := by
    rw [hwide, shiftRight_eq_div, Nat.add_mul_div_right _ _ (one_shiftLeft_pos 52),
      Nat.div_eq_of_lt hlt, Nat.zero_add]
  have hfraction : wideMagnitude magnitude % 1 <<< 52 = fraction := by
    rw [hwide, Nat.add_mul_mod_self_right, Nat.mod_eq_of_lt hlt]
  rw [narrowMagnitude, hexponent, if_neg hmax, if_neg (Nat.succ_ne_zero _)]
  dsimp only
  rw [hmin, hfraction, shiftRight_eq_div, hsignificand, Nat.add_sub_cancel, Nat.add_sub_cancel_left]
  exact hfields.symm

theorem wideMagnitude_lt (magnitude : Nat) : wideMagnitude magnitude < 0x8000000000000000 := by
  by_cases hinfinite : infinity ≤ magnitude
  · rw [wideMagnitude, if_pos hinfinite]
    decide
  by_cases hzero : magnitude = 0
  · rw [hzero]
    decide
  have hfinite : magnitude < infinity := Nat.lt_of_not_le hinfinite
  obtain ⟨-, -, -, hscale, -⟩ := fields hzero hfinite
  obtain ⟨top, fraction, htop, -, hlt, hwide, -⟩ := wideMagnitude_parts hzero hfinite
  have hmax : top + scale magnitude + 874 + 1 ≤ 0x800 := by omega
  calc wideMagnitude magnitude
      = fraction + (top + scale magnitude + 874) * 1 <<< 52 := hwide
    _ < 1 <<< 52 + (top + scale magnitude + 874) * 1 <<< 52 := Nat.add_lt_add_right hlt _
    _ = (top + scale magnitude + 874 + 1) * 1 <<< 52 :=
        (Nat.add_comm _ _).trans (Nat.add_one_mul _ _).symm
    _ ≤ 0x800 * 1 <<< 52 := Nat.mul_le_mul_right _ hmax
    _ = 0x8000000000000000 := by decide

/-! ## Numbers -/

theorem toBits64_lt (x : Binary32) : x.toBits64 < 0x10000000000000000 := by
  have hwide := wideMagnitude_lt x.magnitude
  unfold toBits64
  split <;> omega

/-- **No number is lost.** -/
theorem ofBits64_toBits64 {x : Binary32} (h : x.magnitude ≤ infinity) :
    ofBits64 x.toBits64 = x := by
  obtain ⟨negative, magnitude⟩ := x
  have hwide := wideMagnitude_lt magnitude
  have hmagnitude := narrowMagnitude_wideMagnitude h
  cases negative with
  | true =>
    have hbits : toBits64 ⟨true, magnitude⟩ = 0x8000000000000000 + wideMagnitude magnitude := rfl
    rw [ofBits64, hbits, Nat.add_mod_left, Nat.mod_eq_of_lt hwide, hmagnitude,
      decide_eq_true (Nat.le_add_right _ _)]
  | false =>
    have hbits : toBits64 ⟨false, magnitude⟩ = wideMagnitude magnitude := Nat.zero_add _
    rw [ofBits64, hbits, Nat.mod_eq_of_lt hwide, hmagnitude, decide_eq_false (Nat.not_le.mpr hwide)]

end ProcLang.Binary32
