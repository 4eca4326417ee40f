import ProcLang.Number.Shortest
import ProcLang.Proofs.Widening

/-!
# Decimal texts tell numbers apart

The decimal text of a number lies in the interval of its magnitude, and the intervals of two
magnitudes have no point in common: where they touch, exactly one of the two significands is even,
and the point belongs to that one. So numbers with the same text are the same (`render_inj`).

* `decimal_has`: a decimal is found for every magnitude, since the last grid that is tried is finer
  than every interval;
* `magnitude_of_point`: a point lies in the interval of at most one magnitude;
* `positional_inj`: a text determines the point for which it stands.
-/

namespace ProcLang.Binary32

/-! ## Grids -/

variable {magnitude : Nat} {i : Interval} {c : Char}

namespace Interval

/-- The distance of the points on a grid is `step` divided by `parts`. -/
def step (exponent : Int) : Nat :=
  Nat.pow 10 exponent.toNat <<< 151

/-- See `step`. -/
def parts (exponent : Int) : Nat :=
  Nat.pow 10 (-exponent).toNat

theorem shiftLeft_pos {a : Nat} (h : 0 < a) (k : Nat) : 0 < a <<< k := by
  rw [shiftLeft_eq_mul]
  exact Nat.mul_pos h (one_shiftLeft_pos k)

theorem mul_shiftLeft (a b k : Nat) : a * b <<< k = (a * b) <<< k := by
  rw [shiftLeft_eq_mul, shiftLeft_eq_mul (a * b), Nat.mul_assoc]

theorem mul_step (digits : Nat) (exponent : Int) :
    digits * step exponent = (digits * Nat.pow 10 exponent.toNat) <<< 151 :=
  mul_shiftLeft _ _ _

theorem step_pos (exponent : Int) : 0 < step exponent :=
  shiftLeft_pos (Nat.pow_pos (by decide)) 151

theorem parts_pos (exponent : Int) : 0 < parts exponent :=
  Nat.pow_pos (by decide)

/-- A decimal that lies in the interval. -/
def Has (i : Interval) (d : Decimal) : Prop :=
  i.holds d.digits (step d.exponent) (parts d.exponent) = true

theorem holds_of_lt {digits step parts : Nat} (hlow : i.low * parts < digits * step)
    (hhigh : digits * step < i.high * parts) : i.holds digits step parts = true := by
  unfold holds
  dsimp only
  split
  · exact decide_eq_true ⟨Nat.le_of_lt hlow, Nat.le_of_lt hhigh⟩
  · exact decide_eq_true ⟨hlow, hhigh⟩

theorem le_of_holds {digits step parts : Nat} (h : i.holds digits step parts = true) :
    i.low * parts ≤ digits * step ∧ digits * step ≤ i.high * parts ∧
      (i.closed = false → i.low * parts < digits * step ∧ digits * step < i.high * parts) := by
  unfold holds at h
  dsimp only at h
  split at h
  · rename_i hclosed
    obtain ⟨hlow, hhigh⟩ := of_decide_eq_true h
    exact ⟨hlow, hhigh, fun hopen => absurd (hclosed.symm.trans hopen) (by decide)⟩
  · obtain ⟨hlow, hhigh⟩ := of_decide_eq_true h
    exact ⟨Nat.le_of_lt hlow, Nat.le_of_lt hhigh, fun _ => ⟨hlow, hhigh⟩⟩

theorem has_of_onGrid? {exponent : Int} {digits : Nat} (h : i.onGrid? exponent = some digits) :
    i.Has ⟨digits, exponent⟩ := by
  unfold onGrid? at h
  unfold Has step parts
  dsimp only at h ⊢
  split at h
  · rename_i hfloor hnext
    obtain rfl := Option.some.inj h
    split
    · exact hfloor
    · exact hnext
  · rename_i hfloor _
    obtain rfl := Option.some.inj h
    exact hfloor
  · rename_i _ hnext
    obtain rfl := Option.some.inj h
    exact hnext
  · cases h

/-- If a grid among those that are tried has a point in the interval, a decimal is found. -/
theorem onFirstGrid_has : ∀ {tries : Nat} {exponent : Int},
    (∃ k < tries, (i.onGrid? (exponent - k)).isSome = true) → i.Has (i.onFirstGrid tries exponent)
  | 0, _, ⟨_, hlt, _⟩ => absurd hlt (Nat.not_lt_zero _)
  | tries + 1, exponent, ⟨k, hlt, hsome⟩ => by
    rw [onFirstGrid]
    split
    · rename_i digits hgrid
      exact has_of_onGrid? hgrid
    · rename_i hgrid
      refine onFirstGrid_has ?_
      cases k with
      | zero =>
        rw [Int.natCast_zero, Int.sub_zero, hgrid] at hsome
        cases hsome
      | succ k =>
        refine ⟨k, Nat.lt_of_succ_lt_succ hlt, ?_⟩
        have hexponent : exponent - ((k + 1 : Nat) : Int) = exponent - 1 - k := by omega
        rwa [hexponent] at hsome

/-- A grid whose points are less than a unit apart has a point in every interval that reaches a unit
to both sides of its value. -/
theorem onGrid?_isSome {exponent : Int} (hfine : step exponent < parts exponent)
    (hlow : i.low + 1 ≤ i.value) (hhigh : i.value + 1 ≤ i.high) :
    (i.onGrid? exponent).isSome = true := by
  have hstep := step_pos exponent
  -- the point on the grid just below the value
  have hfloor : i.holds (i.value * parts exponent / step exponent) (step exponent)
      (parts exponent) = true := by
    have hbelow := Nat.div_mul_le_self (i.value * parts exponent) (step exponent)
    have hnear := Nat.lt_div_mul_add hstep (a := i.value * parts exponent)
    have hlow' : i.low * parts exponent + parts exponent ≤ i.value * parts exponent := by
      rw [← Nat.add_one_mul]
      exact Nat.mul_le_mul_right _ hlow
    have hhigh' : i.value * parts exponent + parts exponent ≤ i.high * parts exponent := by
      rw [← Nat.add_one_mul]
      exact Nat.mul_le_mul_right _ hhigh
    exact holds_of_lt (by omega) (by omega)
  unfold step parts at hfloor
  unfold onGrid?
  dsimp only
  rw [hfloor]
  cases i.holds (i.value * Nat.pow 10 (-exponent).toNat / Nat.pow 10 exponent.toNat <<< 151 + 1)
    (Nat.pow 10 exponent.toNat <<< 151) (Nat.pow 10 (-exponent).toNat) <;> rfl

end Interval

/-! ## Intervals -/

theorem interval_bounds (hzero : magnitude ≠ 0) (hfinite : magnitude < infinity) :
    (interval magnitude).low + 1 ≤ (interval magnitude).value ∧
      (interval magnitude).value + 1 ≤ (interval magnitude).high := by
  obtain ⟨-, hne, -, -, -⟩ := fields hzero hfinite
  have hunit := one_shiftLeft_pos (scale magnitude)
  unfold interval
  dsimp only
  generalize 1 <<< scale magnitude = unit at *
  generalize significand magnitude = m at *
  have hbelow : 1 ≤ (if m = 0x800000 ∧ 0 < scale magnitude then 1 else 2) ∧
      (if m = 0x800000 ∧ 0 < scale magnitude then 1 else 2) ≤ 2 := by
    split <;> decide
  generalize (if m = 0x800000 ∧ 0 < scale magnitude then 1 else 2) = below at *
  constructor
  · calc (4 * m - below) * unit + 1
        ≤ (4 * m - below) * unit + below * unit :=
          Nat.add_le_add_left (Nat.mul_pos hbelow.1 hunit) _
      _ = 4 * m * unit := by rw [← Nat.add_mul, Nat.sub_add_cancel (by omega)]
  · calc 4 * m * unit + 1 ≤ 4 * m * unit + 2 * unit := by omega
      _ = (4 * m + 2) * unit := (Nat.add_mul _ _ _).symm

/-- The decimal that is written for a finite magnitude. -/
def decimal (magnitude : Nat) : Decimal :=
  if magnitude = 0 then ⟨0, 0⟩ else shortest magnitude

/-- **A decimal is found** for every finite magnitude, and it lies in the interval. -/
theorem decimal_has (hfinite : magnitude < infinity) :
    (interval magnitude).Has (decimal magnitude) := by
  unfold decimal
  split
  · rename_i hzero
    rw [hzero, Interval.Has]
    decide +kernel
  · rename_i hzero
    obtain ⟨hlow, hhigh⟩ := interval_bounds hzero hfinite
    refine Interval.onFirstGrid_has ⟨92, by decide, Interval.onGrid?_isSome ?_ hlow hhigh⟩
    decide +kernel

/-- **Neighbours touch**: the interval of a magnitude ends where that of the next one begins, and
the point there does not belong to both. -/
theorem interval_succ (hfinite : magnitude + 1 < infinity) :
    (interval magnitude).high = (interval (magnitude + 1)).low ∧
      ((interval magnitude).closed = false ∨ (interval (magnitude + 1)).closed = false) := by
  by_cases hzero : magnitude = 0
  · rw [hzero]
    exact ⟨by decide, Or.inr (by decide)⟩
  obtain ⟨hfields, -, hlt, -, hnormal⟩ := fields hzero (Nat.lt_of_succ_lt hfinite)
  obtain ⟨hfields', -, hlt', -, hnormal'⟩ := fields (by omega : magnitude + 1 ≠ 0) hfinite
  unfold interval
  dsimp only
  by_cases hscale : scale (magnitude + 1) = scale magnitude
  · -- the next significand of the same scale
    have hsignificand : significand (magnitude + 1) = significand magnitude + 1 := by omega
    have hbelow : ¬ (significand magnitude + 1 = 0x800000 ∧ 0 < scale magnitude) := by omega
    rw [hscale, hsignificand, if_neg hbelow]
    refine ⟨congrArg (· * 1 <<< scale magnitude) (by omega), ?_⟩
    simp only [decide_eq_false_iff_not]
    omega
  · -- the first significand of the next scale
    have hnext : scale (magnitude + 1) = scale magnitude + 1 ∧
        significand (magnitude + 1) = 0x800000 ∧ significand magnitude = 0xFFFFFF := by omega
    obtain ⟨hs, hm, hlast⟩ := hnext
    rw [hs, hm, hlast, if_pos ⟨rfl, Nat.succ_pos _⟩, Nat.shiftLeft_succ]
    refine ⟨?_, Or.inl (by decide)⟩
    omega

/-- The interval of a magnitude lies in front of that of a larger one. They touch at most if the two
are neighbours. -/
theorem interval_separate {a b : Nat} (hab : a < b) (hb : b < infinity) :
    (interval a).high < (interval b).low ∨ (interval a).high = (interval b).low ∧
      ((interval a).closed = false ∨ (interval b).closed = false) := by
  obtain ⟨k, rfl⟩ := Nat.exists_eq_add_of_lt hab
  induction k with
  | zero => exact Or.inr (interval_succ hb)
  | succ k ih =>
    rw [← Nat.add_assoc a k 1] at hb ⊢
    have hne : a + k + 1 ≠ 0 := Nat.succ_ne_zero _
    obtain ⟨hlow, hhigh⟩ := interval_bounds hne (Nat.lt_of_succ_lt hb)
    obtain ⟨hsucc, -⟩ := interval_succ hb
    have hfront := ih (by omega) (Nat.lt_of_succ_lt hb)
    rw [← hsucc]
    omega

/-- No point lies in the intervals of two magnitudes. -/
theorem not_has_both {a b parts : Nat} (hab : a < b) (hb : b < infinity)
    {digits digits' step step' : Nat} (hpoint : digits * step = digits' * step')
    (h : (interval a).holds digits step parts = true)
    (h' : (interval b).holds digits' step' parts = true) (hparts : 0 < parts) : False := by
  obtain ⟨-, hhigh, hopen⟩ := Interval.le_of_holds h
  obtain ⟨hlow, -, hopen'⟩ := Interval.le_of_holds h'
  rw [hpoint] at hhigh hopen
  rcases interval_separate hab hb with hlt | ⟨htouch, hone⟩
  · have := Nat.mul_lt_mul_of_pos_right hlt hparts
    omega
  · rw [htouch] at hhigh hopen
    rcases hone with hclosed | hclosed
    · have := (hopen hclosed).2
      omega
    · have := (hopen' hclosed).1
      omega

/-- **A point lies in the interval of at most one magnitude.** -/
theorem magnitude_of_point {a b : Nat} {d d' : Decimal} (ha : a < infinity) (hb : b < infinity)
    (h : (interval a).Has d) (h' : (interval b).Has d')
    (hparts : Interval.parts d.exponent = Interval.parts d'.exponent)
    (hpoint : d.digits * Interval.step d.exponent = d'.digits * Interval.step d'.exponent) :
    a = b := by
  unfold Interval.Has at h h'
  rw [← hparts] at h'
  rcases Nat.lt_trichotomy a b with hlt | heq | hlt
  · exact (not_has_both hlt hb hpoint h h' (Interval.parts_pos _)).elim
  · exact heq
  · exact (not_has_both hlt ha hpoint.symm h' h (Interval.parts_pos _)).elim

/-! ## Positional texts -/

/-- The number that a list of digits stands for. -/
def digitsValue (digits : List Char) : Nat :=
  Nat.ofDigitChars 10 digits 0

theorem digitsValue_zeros_append (k n : Nat) :
    digitsValue (List.replicate k '0' ++ Nat.toDigits 10 n) = n := by
  rw [digitsValue, Nat.ofDigitChars_append, Nat.ofDigitChars_replicate_zero, Nat.mul_zero,
    Nat.ofDigitChars_toDigits (by decide) (by decide)]

theorem digitsValue_append_zeros (k n : Nat) :
    digitsValue (Nat.toDigits 10 n ++ List.replicate k '0') = n * Nat.pow 10 k := by
  rw [digitsValue, Nat.ofDigitChars_append, Nat.ofDigitChars_replicate_zero,
    Nat.ofDigitChars_toDigits (by decide) (by decide), Nat.mul_comm]
  rfl

namespace Decimal

/-- The digits of a decimal that is not whole, with a zero in front of the point if there is nothing
else. -/
def padded (d : Decimal) : List Char :=
  List.replicate ((-d.exponent).toNat + 1 - (Nat.toDigits 10 d.digits).length) '0' ++
    Nat.toDigits 10 d.digits

variable {d d' : Decimal}

theorem positional_whole (h : 0 ≤ d.exponent) : d.positional.toList =
    Nat.toDigits 10 d.digits ++ List.replicate d.exponent.toNat '0' := by
  rw [positional, if_pos h, String.toList_ofList]

/-- A decimal that is not whole: its digits, with a point somewhere between them. -/
theorem positional_broken (h : ¬ 0 ≤ d.exponent) :
    ∃ whole places, d.positional.toList = whole ++ '.' :: places ∧ whole ++ places = d.padded ∧
      places.length = (-d.exponent).toNat := by
  refine ⟨_, _, ?_, List.take_append_drop (d.padded.length - (-d.exponent).toNat) d.padded, ?_⟩
  · rw [positional, if_neg h, String.toList_ofList]
    simp only [List.append_assoc, List.singleton_append]
    rfl
  · have hlength : (-d.exponent).toNat ≤ d.padded.length := by
      rw [padded, List.length_append, List.length_replicate]
      omega
    rw [List.length_drop]
    omega

theorem isDigit_of_mem_padded (h : c ∈ d.padded) : c.isDigit = true := by
  rcases List.mem_append.mp h with h | h
  · rw [List.eq_of_mem_replicate h]
    rfl
  · exact Nat.isDigit_of_mem_toDigits (by decide) (by decide) h

theorem mem_positional (h : c ∈ d.positional.toList) : c.isDigit = true ∨ c = '.' := by
  by_cases hwhole : 0 ≤ d.exponent
  · rw [positional_whole hwhole] at h
    rcases List.mem_append.mp h with h | h
    · exact Or.inl (Nat.isDigit_of_mem_toDigits (by decide) (by decide) h)
    · exact Or.inl (by rw [List.eq_of_mem_replicate h]; rfl)
  · obtain ⟨whole, places, htext, hpadded, -⟩ := positional_broken hwhole
    rw [htext, List.mem_append, List.mem_cons] at h
    rcases h with h | h | h
    · exact Or.inl (isDigit_of_mem_padded (hpadded ▸ List.mem_append_left places h))
    · exact Or.inr h
    · exact Or.inl (isDigit_of_mem_padded (hpadded ▸ List.mem_append_right whole h))

/-- The digits behind the point of a text. -/
def places (text : String) : List Char :=
  (text.toList.dropWhile Char.isDigit).tail

/-- **The text of a decimal** shows its places and its digits, with the zeros at the end of a whole
number. -/
theorem positional_reads (d : Decimal) : (places d.positional).length = (-d.exponent).toNat ∧
    digitsValue (d.positional.toList.takeWhile Char.isDigit ++ places d.positional) =
      d.digits * Nat.pow 10 d.exponent.toNat := by
  unfold places
  by_cases hwhole : 0 ≤ d.exponent
  · have hdigits : ∀ c ∈ d.positional.toList, c.isDigit = true := by
      rw [positional_whole hwhole]
      exact List.forall_mem_append.mpr
        ⟨fun _ => Nat.isDigit_of_mem_toDigits (by decide) (by decide),
        fun c hc => by rw [List.eq_of_mem_replicate hc]; rfl⟩
    rw [← List.append_nil d.positional.toList, List.dropWhile_append_of_pos hdigits,
      List.takeWhile_append_of_pos hdigits, List.dropWhile_nil, List.takeWhile_nil, List.tail_nil,
      List.append_nil, List.append_nil, positional_whole hwhole, digitsValue_append_zeros,
      List.length_nil]
    exact ⟨by omega, rfl⟩
  · obtain ⟨whole, places, htext, hpadded, hlength⟩ := positional_broken hwhole
    have hdigits : ∀ c ∈ whole, c.isDigit = true := fun c hc =>
      isDigit_of_mem_padded (hpadded ▸ List.mem_append_left places hc)
    have hzero : d.exponent.toNat = 0 := by omega
    rw [htext, List.dropWhile_append_of_pos hdigits, List.takeWhile_append_of_pos hdigits,
      List.dropWhile_cons_of_neg (by decide), List.takeWhile_cons_of_neg (by decide),
      List.tail_cons, List.append_nil, hpadded, padded, digitsValue_zeros_append, hzero]
    exact ⟨hlength, (Nat.mul_one _).symm⟩

/-- **The text determines the point** for which a decimal stands. -/
theorem positional_inj (h : d.positional = d'.positional) :
    Interval.parts d.exponent = Interval.parts d'.exponent ∧
      d.digits * Interval.step d.exponent = d'.digits * Interval.step d'.exponent := by
  obtain ⟨hplaces, hdigits⟩ := positional_reads d
  obtain ⟨hplaces', hdigits'⟩ := positional_reads d'
  rw [Interval.mul_step, Interval.mul_step, ← hdigits, ← hdigits', Interval.parts, Interval.parts,
    ← hplaces, ← hplaces', h]
  exact ⟨rfl, rfl⟩

end Decimal

/-! ## Numbers -/

/-- The text of a magnitude. -/
def renderMagnitude (magnitude : Nat) : String :=
  if infinity ≤ magnitude then "inf" else (decimal magnitude).positional

theorem render_eq (x : Binary32) :
    x.render = (if x.negative then "-" else "") ++ renderMagnitude x.magnitude := by
  unfold render renderMagnitude decimal
  dsimp only
  split
  · rfl
  · split <;> rfl

theorem mem_renderMagnitude (h : c ∈ (renderMagnitude magnitude).toList) :
    c.isDigit = true ∨ c ∈ ['.', 'i', 'n', 'f'] := by
  unfold renderMagnitude at h
  split at h
  · exact Or.inr (List.mem_cons_of_mem '.' h)
  · rcases Decimal.mem_positional h with h | rfl
    · exact Or.inl h
    · exact Or.inr List.mem_cons_self

/-- Only the text of infinity has letters. -/
theorem letter_mem_renderMagnitude :
    'i' ∈ (renderMagnitude magnitude).toList ↔ infinity ≤ magnitude := by
  unfold renderMagnitude
  split
  · rename_i hinfinite
    exact iff_of_true (by decide) hinfinite
  · rename_i hfinite
    refine iff_of_false (fun hmem => ?_) hfinite
    rcases Decimal.mem_positional hmem with h | h <;> exact absurd h (by decide)

/-- **The text determines the magnitude**, up to infinity. -/
theorem renderMagnitude_inj {a b : Nat} (ha : a ≤ infinity) (hb : b ≤ infinity)
    (h : renderMagnitude a = renderMagnitude b) : a = b := by
  have hinfinite : infinity ≤ a ↔ infinity ≤ b := by
    rw [← letter_mem_renderMagnitude, ← letter_mem_renderMagnitude, h]
  by_cases hinf : infinity ≤ a
  · have := hinfinite.mp hinf
    omega
  have ha' : a < infinity := Nat.lt_of_not_le hinf
  have hb' : b < infinity := Nat.lt_of_not_le fun hle => hinf (hinfinite.mpr hle)
  rw [renderMagnitude, if_neg hinf, renderMagnitude, if_neg (Nat.not_le.mpr hb')] at h
  obtain ⟨hparts, hpoint⟩ := Decimal.positional_inj h
  exact magnitude_of_point ha' hb' (decimal_has ha') (decimal_has hb') hparts hpoint

/-- What a text of a number consists of. -/
theorem mem_render {x : Binary32} (h : c ∈ x.render.toList) :
    c.isDigit = true ∨ c ∈ ['-', '.', 'i', 'n', 'f'] := by
  rw [render_eq, String.toList_append, List.mem_append] at h
  rcases h with h | h
  · right
    split at h
    · rw [show "-".toList = ['-'] from rfl, List.mem_singleton] at h
      rw [h]
      exact List.mem_cons_self
    · cases h
  · exact (mem_renderMagnitude h).imp id (List.mem_cons_of_mem '-')

/-- **Numbers with the same text are the same.** -/
theorem render_inj {x y : Binary32} (hx : x.magnitude ≤ infinity) (hy : y.magnitude ≤ infinity)
    (h : x.render = y.render) : x = y := by
  obtain ⟨negative, a⟩ := x
  obtain ⟨negative', b⟩ := y
  -- there is a minus sign in front of negative numbers only
  have hsign : ∀ {magnitude : Nat} (text : String), renderMagnitude magnitude ≠ "-" ++ text := by
    intro magnitude text heq
    have hmem : '-' ∈ (renderMagnitude magnitude).toList := by
      rw [heq, String.toList_append]
      exact List.mem_append_left _ List.mem_cons_self
    rcases mem_renderMagnitude hmem with h | h <;> exact absurd h (by decide)
  rw [render_eq, render_eq] at h
  cases negative <;> cases negative'
  · exact congrArg (mk _) (renderMagnitude_inj hx hy ((String.append_right_inj _).mp h))
  · exact absurd (String.empty_append.symm.trans h) (hsign _)
  · exact absurd (h.symm.trans rfl) (hsign _)
  · exact congrArg (mk _) (renderMagnitude_inj hx hy ((String.append_right_inj _).mp h))

end ProcLang.Binary32
