import DivisionScript.Number.Decimal
import DivisionScript.Proofs.Number.Binary

/-!
# Number — Shortest

The decimal that the search finds reads back to the number it was found for, and a decimal reads
back to one number only. So the shortest decimals of two numbers differ.
-/

namespace DivisionScript.Number

/-- The value of a decimal. -/
def Decimal.value (d : Decimal) : ℚ :=
  d.digits * 10 ^ d.exponent

/-- The lower end of the rounding interval of `m · 2 ^ e` in quarters of `2 ^ e`. -/
def lowQuarters (m : Nat) (e : Int) : Nat :=
  4 * m - if m = 2 ^ 52 ∧ -1074 < e then 1 else 2

/-- The numbers that round to `m · 2 ^ e`: those in an interval around it, which has its ends if
`m` is even. -/
def Rounds (q : ℚ) (m : Nat) (e : Int) : Prop :=
  if m % 2 = 0 then
    lowQuarters m e * 2 ^ (e - 2) ≤ q ∧ q ≤ (4 * m + 2 : Nat) * 2 ^ (e - 2)
  else
    lowQuarters m e * 2 ^ (e - 2) < q ∧ q < (4 * m + 2 : Nat) * 2 ^ (e - 2)

/-- The number in quarters of its last place. -/
theorem quarters (m : Nat) (e : Int) : (m : ℚ) * 2 ^ e = (4 * m : Nat) * 2 ^ (e - 2) := by
  rw [zpow_sub₀ two_ne_zero]
  push_cast
  ring

theorem lowQuarters_lt {m : Nat} (e : Int) (hpos : 0 < m) : lowQuarters m e < 4 * m := by
  rw [lowQuarters]
  split <;> omega

namespace Rounds

variable {p q : ℚ} {m n : Nat} {e f : Int}

theorem low_le (h : Rounds q m e) : lowQuarters m e * 2 ^ (e - 2) ≤ q := by
  rw [Rounds] at h
  split at h
  · exact h.1
  · exact h.1.le

theorem le_high (h : Rounds q m e) : q ≤ (4 * m + 2 : Nat) * 2 ^ (e - 2) := by
  rw [Rounds] at h
  split at h
  · exact h.2
  · exact h.2.le

theorem lt_high (h : Rounds q m e) (hodd : m % 2 = 1) : q < (4 * m + 2 : Nat) * 2 ^ (e - 2) := by
  rw [Rounds, if_neg (by omega)] at h
  exact h.2

theorem low_lt (h : Rounds q m e) (hodd : m % 2 = 1) : lowQuarters m e * 2 ^ (e - 2) < q := by
  rw [Rounds, if_neg (by omega)] at h
  exact h.1

/-- Within one binade the intervals of two significands do not meet. If they touch, one of the two
significands is odd. -/
theorem not_significand_lt (hm : Rounds q m e) (hn : Rounds p n e) (hle : p ≤ q) : ¬ m < n := by
  intro hlt
  have unit : (0 : ℚ) < 2 ^ (e - 2) := by positivity
  have hlow : 4 * n - 2 ≤ lowQuarters n e := by
    rw [lowQuarters]
    split <;> omega
  have touching : lowQuarters n e ≤ 4 * m + 2 := by
    have := (mul_le_mul_iff_of_pos_right unit).mp ((hn.low_le.trans hle).trans hm.le_high)
    exact_mod_cast this
  rcases Nat.mod_two_eq_zero_or_one m with heven | hodd
  · have := (mul_lt_mul_iff_of_pos_right unit).mp 
      (((hn.low_lt (by omega)).trans_le hle).trans_le hm.le_high)
    have : lowQuarters n e < 4 * m + 2 := by exact_mod_cast this
    omega
  · have := (mul_lt_mul_iff_of_pos_right unit).mp 
      ((hn.low_le.trans hle).trans_lt (hm.lt_high hodd))
    have : lowQuarters n e < 4 * m + 2 := by exact_mod_cast this
    omega

/-- The intervals of numbers with different exponents do not meet: the greatest significand of all
is odd. -/
theorem not_exponent_lt (hm : Rounds q m e) (hn : Rounds p n f) (hle : p ≤ q)
    (hfirst : Aligned m e) (hsecond : Aligned n f) : ¬ e < f := by
  intro hlt
  have unit : (0 : ℚ) < 2 ^ (e - 2) := by positivity
  have hleast := hfirst.least
  have hlarge := hfirst.lt
  have hfull := hsecond.full
  have below : q < (2 ^ 55 - 2 : Nat) * 2 ^ (e - 2) := by
    by_cases hgreatest : m = 2 ^ 53 - 1
    · subst hgreatest
      exact hm.lt_high (by norm_num)
    · refine hm.le_high.trans_lt ((mul_lt_mul_iff_of_pos_right unit).mpr ?_)
      exact_mod_cast (by omega : 4 * m + 2 < 2 ^ 55 - 2)
  have hlow : 2 ^ 54 - 1 ≤ lowQuarters n f := by
    rw [lowQuarters]
    split <;> omega
  have binade : 2 * (2 : ℚ) ^ (e - 2) ≤ 2 ^ (f - 2) := by
    rw [← zpow_one_add₀ two_ne_zero]
    exact zpow_le_zpow_right₀ one_le_two (by omega)
  have above : (2 ^ 55 - 2 : Nat) * (2 : ℚ) ^ (e - 2) ≤ q :=
    calc (2 ^ 55 - 2 : Nat) * (2 : ℚ) ^ (e - 2)
        = (2 ^ 54 - 1 : Nat) * (2 * 2 ^ (e - 2)) := by norm_num; ring
      _ ≤ (2 ^ 54 - 1 : Nat) * 2 ^ (f - 2) := by gcongr
      _ ≤ lowQuarters n f * 2 ^ (f - 2) := by gcongr
      _ ≤ p := hn.low_le
      _ ≤ q := hle
  exact absurd (below.trans_le above) (lt_irrefl _)

/-- Rounding keeps the order of numbers. -/
theorem mono (hm : Rounds p m e) (hn : Rounds q n f) (hle : p ≤ q) (hfirst : Aligned m e)
    (hsecond : Aligned n f) : e < f ∨ e = f ∧ m ≤ n := by
  rcases (not_lt.mp (hn.not_exponent_lt hm hle hsecond hfirst)).lt_or_eq with hlt | rfl
  · exact .inl hlt
  · exact .inr ⟨rfl, not_lt.mp (hn.not_significand_lt hm hle)⟩

/-- A number rounds to one number of the format only. -/
theorem unique (hm : Rounds q m e) (hn : Rounds q n f) (hfirst : Aligned m e)
    (hsecond : Aligned n f) : m = n ∧ e = f := by
  have hle := hm.mono hn le_rfl hfirst hsecond
  have hge := hn.mono hm le_rfl hsecond hfirst
  omega

theorem of_lt (hlow : lowQuarters m e * 2 ^ (e - 2) < q)
    (hhigh : q < (4 * m + 2 : Nat) * 2 ^ (e - 2)) : Rounds q m e := by
  rw [Rounds]
  split
  · exact ⟨hlow.le, hhigh.le⟩
  · exact ⟨hlow, hhigh⟩

/-- A number rounds to itself. -/
theorem self (hpos : 0 < m) : Rounds (m * 2 ^ e) m e := by
  have hlow := lowQuarters_lt e hpos
  rw [quarters m e]
  exact of_lt (by gcongr) (by gcongr; omega)

end Rounds

namespace Decimal

variable {m n k : Nat} {e : Int}

/-- A power with a negative exponent moved to the other side. -/
theorem pow_toNat_eq {b : ℚ} (hb : b ≠ 0) (i : Int) :
    b ^ i.toNat = b ^ (-i).toNat * b ^ i := by
  rw [← zpow_natCast, ← zpow_natCast, ← zpow_add₀ hb]
  congr 1
  omega

/-- The common unit of a number and its grid. -/
def unit (e k : Int) : ℚ :=
  2 ^ (2 - e).toNat * 10 ^ (-k).toNat

theorem unit_pos (e k : Int) : 0 < unit e k := by
  rw [unit]
  positivity

theorem step_eq (m : Nat) (e k : Int) : ((Scaled.of m e k).step : ℚ) = unit e k * 10 ^ k := by
  rw [Scaled.of, unit]
  push_cast [Nat.pow_eq]
  rw [pow_toNat_eq (by norm_num : (10 : ℚ) ≠ 0) k]
  ring

theorem scale_eq (e k : Int) :
    ((Nat.pow 2 (e - 2).toNat * Nat.pow 10 (-k).toNat : Nat) : ℚ) = unit e k * 2 ^ (e - 2) := by
  rw [unit]
  push_cast [Nat.pow_eq]
  rw [pow_toNat_eq two_ne_zero (e - 2), neg_sub]
  ring

theorem low_eq (m : Nat) (e k : Int) :
    ((Scaled.of m e k).low : ℚ) = unit e k * (lowQuarters m e * 2 ^ (e - 2)) := by
  have scaled : (Scaled.of m e k).low =
      lowQuarters m e * (Nat.pow 2 (e - 2).toNat * Nat.pow 10 (-k).toNat) := rfl
  rw [scaled, Nat.cast_mul, scale_eq]
  ring

theorem high_eq (m : Nat) (e k : Int) :
    ((Scaled.of m e k).high : ℚ) = unit e k * ((4 * m + 2 : Nat) * 2 ^ (e - 2)) := by
  rw [Scaled.of, Nat.cast_mul, scale_eq]
  ring

theorem value_eq (m : Nat) (e k : Int) :
    ((Scaled.of m e k).value : ℚ) = unit e k * (m * 2 ^ e) := by
  rw [Scaled.of, Nat.cast_mul, scale_eq, zpow_sub₀ two_ne_zero]
  push_cast
  ring

theorem point_eq (m n : Nat) (e k : Int) :
    ((n * (Scaled.of m e k).step : Nat) : ℚ) = unit e k * (n * 10 ^ k) := by
  rw [Nat.cast_mul, step_eq]
  ring

/-- The search admits the points of a grid that round to the number. -/
theorem admits_iff (m n : Nat) (e k : Int) :
    (Scaled.of m e k).admits n = true ↔ Rounds (n * 10 ^ k) m e := by
  have hunit := unit_pos e k
  have hclosed : (Scaled.of m e k).closed = decide (m % 2 = 0) := rfl
  rw [Scaled.admits, Rounds, hclosed]
  by_cases heven : m % 2 = 0
  · simp only [heven, decide_true, if_true, decide_eq_true_eq, ← Nat.cast_le (α := ℚ),
      point_eq,      low_eq, high_eq, mul_le_mul_iff_of_pos_left hunit]
  · simp only [heven, decide_false, if_false, Bool.false_eq_true, decide_eq_true_eq,
      ← Nat.cast_lt (α := ℚ), point_eq, low_eq, high_eq, mul_lt_mul_iff_of_pos_left hunit]

theorem admits_of_nearest? {s : Scaled} {tie : Tie} (h : s.nearest? tie = some n) :
    s.admits n = true := by
  unfold Scaled.nearest? at h
  grind

theorem not_admits_of_nearest? {s : Scaled} {tie : Tie} (h : s.nearest? tie = none) :
    s.admits (s.value / s.step + 1) = false := by
  unfold Scaled.nearest? at h
  grind

theorem step_pos (m : Nat) (e k : Int) : 0 < (Scaled.of m e k).step := by
  have hunit := unit_pos e k
  have : (0 : ℚ) < (Scaled.of m e k).step := by
    rw [step_eq]
    positivity
  exact_mod_cast this

/-- The two points of a grid that the search looks at are the neighbours of the number. -/
theorem between (m : Nat) (e k : Int) :
    let n := (Scaled.of m e k).value / (Scaled.of m e k).step
    (n * 10 ^ k : ℚ) ≤ m * 2 ^ e ∧ m * 2 ^ e < ((n + 1 : Nat) * 10 ^ k : ℚ) := by
  intro n
  have hunit := unit_pos e k
  have hbelow : n * (Scaled.of m e k).step ≤ (Scaled.of m e k).value :=
    Nat.div_mul_le_self _ _
  have habove : (Scaled.of m e k).value < (n + 1) * (Scaled.of m e k).step :=
    Nat.lt_mul_of_div_lt (Nat.lt_succ_self n) (step_pos m e k)
  constructor
  · rw [← mul_le_mul_iff_of_pos_left hunit, ← value_eq, ← point_eq]
    exact_mod_cast hbelow
  · rw [← mul_lt_mul_iff_of_pos_left hunit, ← value_eq, ← point_eq]
    exact_mod_cast habove

/-- On a grid finer than half the distance to the next number the search ends: the grid point above
the number still rounds to it. -/
theorem nearest?_ne_none (tie : Tie) (hpos : 0 < m) {k : Int}
    (hfine : (10 : ℚ) ^ k < 2 ^ (e - 1)) : (Scaled.of m e k).nearest? tie ≠ none := by
  intro hnone
  have unit : (0 : ℚ) < 2 ^ (e - 2) := by positivity
  obtain ⟨hbelow, habove⟩ := between m e k
  set n := (Scaled.of m e k).value / (Scaled.of m e k).step with hn
  have hlow : (lowQuarters m e : ℚ) * 2 ^ (e - 2) < (n + 1 : Nat) * 10 ^ k := by
    refine lt_trans ?_ habove
    rw [quarters m e]
    have := lowQuarters_lt e hpos
    gcongr
  have half : (2 : ℚ) ^ (e - 1) = 2 * 2 ^ (e - 2) := by
    rw [← zpow_one_add₀ two_ne_zero]
    congr 1
    omega
  have hhigh : ((n + 1 : Nat) * 10 ^ k : ℚ) < (4 * m + 2 : Nat) * 2 ^ (e - 2) := by
    rw [quarters m e] at hbelow
    rw [half] at hfine
    push_cast at hbelow ⊢
    linarith
  have hadmitted := (admits_iff m (n + 1) e k).mpr (Rounds.of_lt hlow hhigh)
  rw [not_admits_of_nearest? hnone] at hadmitted
  cases hadmitted

/-- If one of the grids that the search walks through is fine enough, the result rounds to the
number. -/
theorem search_rounds (tie : Tie) (hpos : 0 < m) {k : Int} (hfine : (10 : ℚ) ^ k < 2 ^ (e - 1))
    (fuel : Nat) (above : Nat) (henough : above < fuel) :
    Rounds (search tie m e fuel (k + above)).value m e := by
  induction fuel generalizing above with
  | zero => omega
  | succ fuel ih =>
    rw [search]
    cases hnearest : (Scaled.of m e (k + above)).nearest? tie with
    | some n => exact (admits_iff m n e _).mp (admits_of_nearest? hnearest)
    | none =>
      cases above with
      | zero => exact absurd hnearest (by simpa using nearest?_ne_none tie hpos hfine)
      | succ above =>
        have next : k + (above + 1 : Nat) - 1 = k + above := by omega
        rw [next]
        exact ih above (by omega)

theorem strip_value (fuel : Nat) (d : Decimal) : (strip fuel d).value = d.value := by
  induction fuel generalizing d with
  | zero => rfl
  | succ fuel ih =>
    rw [strip]
    split
    · next hten =>
      have hdigits : d.digits = d.digits / 10 * 10 := by omega
      rw [ih, value, value, hdigits, Nat.mul_div_cancel _ (by decide : 0 < 10),
        zpow_add_one₀ (by norm_num)]
      push_cast
      ring
    · rfl

/-! ## The magnitude of a number -/

/-- A power of ten is below a power of two if a power of it is. -/
theorem ten_pow_lt {a b p : Int} {q : Nat} (happrox : ((10 : ℚ) ^ q) ^ a ≤ (2 ^ p) ^ a)
    (hlt : p * a < q * b) : (10 : ℚ) ^ a < 2 ^ b := by
  refine lt_of_pow_lt_pow_left₀ q (by positivity) ?_
  calc ((10 : ℚ) ^ a) ^ q = (10 ^ q) ^ a := by
        rw [← zpow_natCast, ← zpow_natCast, ← zpow_mul, ← zpow_mul, mul_comm]
    _ ≤ (2 ^ p) ^ a := happrox
    _ = 2 ^ (p * a) := by rw [← zpow_mul]
    _ < 2 ^ (q * b) := zpow_lt_zpow_right₀ one_lt_two hlt
    _ = (2 ^ b) ^ q := by rw [← zpow_natCast, ← zpow_mul, mul_comm]

theorem ten_pow_lt_of_nonneg {a b : Int} (ha : 0 ≤ a) (hlt : 196 * a < (59 : Nat) * b) :
    (10 : ℚ) ^ a < 2 ^ b := by
  have approximation : (10 : ℚ) ^ 59 ≤ 2 ^ (196 : Int) := by norm_num
  exact ten_pow_lt (zpow_le_zpow_left₀ ha (by positivity) approximation) hlt

theorem ten_pow_lt_of_nonpos {a b : Int} (ha : a ≤ 0) (hlt : 93 * a < (28 : Nat) * b) :
    (10 : ℚ) ^ a < 2 ^ b := by
  have approximation : (2 : ℚ) ^ (93 : Int) ≤ 10 ^ 28 := by norm_num
  refine ten_pow_lt ?_ hlt
  rw [← neg_neg a, zpow_neg _ (-a), zpow_neg _ (-a)]
  exact inv_anti₀ (by positivity)
    (zpow_le_zpow_left₀ (by omega) (by positivity) approximation)

/-- Seventeen digits are as fine as a number of the format. -/
theorem ten_pow_magnitude_lt (h : Canonical m e) :
    (10 : ℚ) ^ (((m.log2 : Int) + e) * 30103 / 100000 - 17) < 2 ^ (e - 1) := by
  have hleast := h.least
  have hgreatest := h.greatest
  have hlog : m.log2 ≤ 52 := by
    have := (Nat.log2_lt h.pos.ne').mpr h.lt
    omega
  rcases le_total 0 (((m.log2 : Int) + e) * 30103 / 100000 - 17) with hnonneg | hneg
  · exact ten_pow_lt_of_nonneg hnonneg (by omega)
  · exact ten_pow_lt_of_nonpos hneg (by omega)

/-- The shortest decimal of a number reads back to it. -/
theorem shortest_rounds (tie : Tie) (h : Canonical m e) : Rounds (shortest tie m e).value m e := by
  rw [shortest, strip_value]
  have start : ((m.log2 : Int) + e) * 30103 / 100000 + 2 =
      ((m.log2 : Int) + e) * 30103 / 100000 - 17 + (19 : Nat) := by
    omega
  rw [start]
  exact search_rounds tie h.pos (ten_pow_magnitude_lt h) 20 19 (by decide)

end Decimal

end DivisionScript.Number
