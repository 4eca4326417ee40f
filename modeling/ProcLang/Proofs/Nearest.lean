import Mathlib.Data.Nat.Dist
import ProcLang.Number.Binary32

/-!
# The nearest floating point number

What it means that a magnitude is the nearest one to a fraction, said without rounding: no other is
nearer, and if another is as near, the magnitude is even. Infinity counts as the number that would
be next behind the largest one. There is always one such magnitude (`Nearest.unique`), and
`magnitudeOf` gives it (`magnitudeOf_nearest`).

Magnitudes grow with what they stand for, in steps that are powers of two (`units_succ`). So a
fraction is between two neighbours, and only these have to be compared.
-/

namespace ProcLang.Binary32

/-- What a magnitude stands for, as a multiple of the smallest number. -/
def units (magnitude : Nat) : Nat :=
  significand magnitude <<< scale magnitude

theorem units_succ (m : Nat) : units (m + 1) = units m + 1 <<< scale m := by
  have step : scale (m + 1) = scale m ∧ significand (m + 1) = significand m + 1 ∨
      scale (m + 1) = scale m + 1 ∧ 2 * significand (m + 1) = significand m + 1 := by
    unfold significand scale
    omega
  unfold units
  rcases step with ⟨hscale, hsignificand⟩ | ⟨hscale, hsignificand⟩
  · rw [hscale, hsignificand, Nat.shiftLeft_eq, Nat.shiftLeft_eq, Nat.shiftLeft_eq, Nat.add_mul]
  · rw [hscale, Nat.shiftLeft_eq, Nat.shiftLeft_eq, Nat.shiftLeft_eq, ← Nat.add_mul, ← hsignificand,
      Nat.pow_succ]
    ac_rfl

theorem units_strictMono : StrictMono units := by
  refine strictMono_nat_of_lt_succ fun m => ?_
  have : 0 < 1 <<< scale m := by
    rw [Nat.one_shiftLeft]
    exact Nat.two_pow_pos _
  rw [units_succ]
  omega

/-- How far a magnitude is from a fraction, in multiples of the smallest number and of the
denominator. -/
def distance (num den magnitude : Nat) : Nat :=
  Nat.dist (num <<< 149) (den * units magnitude)

/-- The magnitude nearest to a fraction, the even one if two are equally near. -/
structure Nearest (num den magnitude : Nat) : Prop where
  le : magnitude ≤ infinity
  near : ∀ other ≤ infinity, other ≠ magnitude →
    distance num den magnitude < distance num den other ∨
      distance num den magnitude = distance num den other ∧ magnitude % 2 = 0

/-- The number nearest to a fraction with a sign. -/
structure Rounds (negative : Bool) (num den : Nat) (x : Binary32) : Prop where
  negative : x.negative = negative
  nearest : Nearest num den x.magnitude

section

variable {num den : Nat} (hden : 0 < den)

include hden

/-- Below a fraction the larger magnitude is nearer. -/
theorem distance_lt_below {m n : Nat} (hlt : m < n) (hn : den * units n ≤ num <<< 149) :
    distance num den n < distance num den m := by
  have := Nat.mul_lt_mul_of_pos_left (units_strictMono hlt) hden
  unfold distance Nat.dist
  omega

/-- Above a fraction the smaller magnitude is nearer. -/
theorem distance_lt_above {m n : Nat} (hlt : m < n) (hm : num <<< 149 ≤ den * units m) :
    distance num den m < distance num den n := by
  have := Nat.mul_lt_mul_of_pos_left (units_strictMono hlt) hden
  unfold distance Nat.dist
  omega

/-- **There is only one nearest magnitude.** Between two that are equally near and even there is
another one, and that is nearer. -/
theorem Nearest.unique {m n : Nat} (hm : Nearest num den m) (hn : Nearest num den n) : m = n := by
  have apart : ∀ {a b : Nat}, Nearest num den a → Nearest num den b → ¬ a < b := by
    intro a b ha hb hlt
    have hab := ha.near b hb.le (by omega)
    have hba := hb.near a ha.le (by omega)
    have hmid := ha.near (a + 1) (hlt.trans_le hb.le) (by omega)
    rcases Nat.le_total (den * units (a + 1)) (num <<< 149) with hle | hle
    · have := distance_lt_below hden (show a < a + 1 by omega) hle
      omega
    · have := distance_lt_above hden (show a + 1 < b by omega) hle
      omega
  rcases Nat.lt_trichotomy m n with hlt | heq | hlt
  · exact absurd hlt (apart hm hn)
  · exact heq
  · exact absurd hlt (apart hn hm)

/-- The nearer one of the neighbours of a fraction is the nearest magnitude, up to infinity. -/
theorem nearest_of_between {k m : Nat} (hlow : den * units k ≤ num <<< 149)
    (hhigh : num <<< 149 ≤ den * units (k + 1)) (hm : m = k ∨ m = k + 1)
    (hnear : ∀ other, other = k ∨ other = k + 1 → other ≠ m →
      distance num den m < distance num den other ∨
        distance num den m = distance num den other ∧ m % 2 = 0) :
    Nearest num den (min m infinity) := by
  refine ⟨Nat.min_le_right _ _, fun other hother hne => ?_⟩
  rcases Nat.lt_or_ge infinity m with hlt | hle
  · -- The fraction is not less than infinity.
    rw [Nat.min_eq_right hlt.le] at hne ⊢
    have hmono := units_strictMono.monotone (show infinity ≤ k by omega)
    exact Or.inl (distance_lt_below hden (Nat.lt_of_le_of_ne hother hne)
      ((Nat.mul_le_mul_left den hmono).trans hlow))
  · rw [Nat.min_eq_left hle] at hne ⊢
    have hle : ∀ next, next = k ∨ next = k + 1 → distance num den m ≤ distance num den next := by
      intro next hnext
      rcases eq_or_ne next m with rfl | hne
      · exact Nat.le_refl _
      · exact (hnear next hnext hne).elim Nat.le_of_lt fun h => h.1.le
    rcases Nat.lt_or_ge other k with hlt | hge
    · exact Or.inl ((hle k (Or.inl rfl)).trans_lt (distance_lt_below hden hlt hlow))
    · rcases Nat.lt_or_ge (k + 1) other with hgt | hle'
      · exact Or.inl ((hle _ (Or.inr rfl)).trans_lt (distance_lt_above hden hgt hhigh))
      · exact hnear other (by omega) hne

end

/-- A number of units is cut off to 24 bits, and they make up a magnitude. -/
theorem cut (q : Nat) {s : Nat} (hs : q.log2 - 23 = s) :
    scale (s * 0x800000 + q / 1 <<< s) = s ∧
      significand (s * 0x800000 + q / 1 <<< s) = q / 1 <<< s := by
  rw [Nat.one_shiftLeft]
  have hlt : q / 2 ^ s < 2 ^ 24 := by
    rw [Nat.div_lt_iff_lt_mul (Nat.two_pow_pos s), ← Nat.pow_add]
    exact Nat.lt_log2_self.trans_le (Nat.pow_le_pow_right (by decide) (by omega))
  have hge : 0 < s → 2 ^ 23 ≤ q / 2 ^ s := by
    intro hpos
    rw [Nat.le_div_iff_mul_le (Nat.two_pow_pos s), ← Nat.pow_add, ← hs,
      Nat.add_sub_cancel' (by omega)]
    exact Nat.log2_self_le (by rintro rfl; simp at hs; omega)
  generalize q / 2 ^ s = r at hlt hge ⊢
  unfold significand scale
  omega

/-- **Rounding gives the nearest magnitude.** -/
theorem magnitudeOf_nearest (num : Nat) {den : Nat} (hden : 0 < den) :
    Nearest num den (magnitudeOf num den) := by
  unfold magnitudeOf roundHalfEven
  dsimp only
  generalize hs : (num <<< 149 / den).log2 - 23 = s
  obtain ⟨hscale, hsignificand⟩ := cut _ hs
  have hstep : den <<< s = den * 1 <<< s := by rw [Nat.shiftLeft_eq, Nat.shiftLeft_eq, Nat.one_mul]
  have hpos : 0 < den <<< s := by
    rw [Nat.shiftLeft_eq]
    exact Nat.mul_pos hden (Nat.two_pow_pos s)
  have hsplit := Nat.div_add_mod (num <<< 149) (den <<< s)
  have hmod := Nat.mod_lt (num <<< 149) hpos
  rw [Nat.div_div_eq_div_mul, ← hstep] at hscale hsignificand
  generalize num <<< 149 / den <<< s = r at *
  generalize hk : s * 0x800000 + r = k at *
  have hunits : den * units k = den <<< s * r := by
    rw [units, hscale, hsignificand, Nat.shiftLeft_eq, Nat.shiftLeft_eq]
    ac_rfl
  have hnext : den * units (k + 1) = den * units k + den <<< s := by
    rw [units_succ, hscale, Nat.mul_add, ← hstep]
  have hlow : den * units k ≤ num <<< 149 := by omega
  have hhigh : num <<< 149 ≤ den * units (k + 1) := by omega
  split
  · rw [← Nat.add_assoc, hk]
    refine nearest_of_between hden hlow hhigh (Or.inr rfl) fun other hother hne => ?_
    obtain rfl : other = k := by omega
    unfold distance Nat.dist
    omega
  · rw [hk]
    refine nearest_of_between hden hlow hhigh (Or.inl rfl) fun other hother hne => ?_
    obtain rfl : other = k + 1 := by omega
    unfold distance Nat.dist
    omega

theorem ofInt_rounds (n : Int) : Rounds (decide (n < 0)) n.natAbs 1 (ofInt n) :=
  ⟨rfl, magnitudeOf_nearest _ Nat.one_pos⟩

theorem ofDecimal_rounds (digits places : Nat) :
    Rounds false digits (Nat.pow 10 places) (ofDecimal digits places) :=
  ⟨rfl, magnitudeOf_nearest _ (Nat.pow_pos (by decide))⟩

/-- A fraction is rounded to one number. -/
theorem Rounds.unique {negative : Bool} {num den : Nat} (hden : 0 < den) {x y : Binary32}
    (hx : Rounds negative num den x) (hy : Rounds negative num den y) : x = y := by
  have hmagnitude := hx.nearest.unique hden hy.nearest
  have hnegative := hx.negative.trans hy.negative.symm
  cases x
  cases y
  cases hmagnitude
  cases hnegative
  rfl

end ProcLang.Binary32
