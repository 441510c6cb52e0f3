import DivisionScript.Proofs.Number.Scientific
import DivisionScript.Proofs.Number.Value

/-!
# Number — Nearest

A whole number becomes the binary64 number nearest to it: none of the finite numbers is nearer. So
it is kept as it is if the format has it, and it stays between all numbers of the format that it
lies between.
-/

namespace DivisionScript.Number

open Float.Model (UnpackedFloat)
open Float.Model.UnpackedFloat

variable {x y : Float} {p q : ℚ} {sign : Sign} {m n : Nat} {e f : Int}

/-- A finite number to which no finite number is nearer. -/
structure Nearest (q : ℚ) (x : Float) : Prop where
  isFinite : x.isFinite
  le : ∀ y : Float, y.isFinite → |value x - q| ≤ |value y - q|

/-! ## The ends of a rounding interval -/

/-- A number with a lower exponent is below the middle between its upper neighbours. -/
theorem le_of_exponent_lt (hn : Aligned n f) (hlt : f < e) :
    (n * 2 ^ f : ℚ) ≤ (2 ^ 54 - 2 : Nat) * 2 ^ (e - 2) := by
  have hdigits := hn.lt
  calc (n * 2 ^ f : ℚ) ≤ (2 ^ 53 - 1 : Nat) * 2 ^ (e - 1) := by
        gcongr
        · omega
        · exact one_le_two
        · omega
    _ = (2 ^ 54 - 2 : Nat) * 2 ^ (e - 2) := by
        have : e - 1 = e - 2 + 1 := by omega
        rw [this, zpow_add_one₀ two_ne_zero]
        norm_num
        ring

/-- A number with an exponent that is not lower in quarters. -/
theorem quarters_of_exponent_le (n : Nat) (hle : e ≤ f) :
    ∃ k : Nat, (n * 2 ^ f : ℚ) = (4 * k : Nat) * 2 ^ (e - 2) := by
  obtain ⟨j, hj⟩ := Int.eq_ofNat_of_zero_le (sub_nonneg.mpr hle)
  refine ⟨n * 2 ^ j, ?_⟩
  rw [← quarters, (by omega : f = j + e), zpow_add₀ two_ne_zero, zpow_natCast]
  push_cast
  ring

/-- The upper end of a rounding interval is the middle to the next number. -/
theorem midpoint_above (hm : Aligned m e) (hn : Aligned n f)
    (hlt : (m * 2 ^ e : ℚ) < n * 2 ^ f) :
    2 * ((4 * m + 2 : Nat) * 2 ^ (e - 2)) ≤ (m * 2 ^ e + n * 2 ^ f : ℚ) := by
  have unit : (0 : ℚ) < 2 ^ (e - 2) := by positivity
  rw [quarters m e] at hlt ⊢
  rcases le_or_gt e f with hle | hlt'
  · obtain ⟨k, hk⟩ := quarters_of_exponent_le n hle
    rw [hk] at hlt ⊢
    have hmk : 4 * m < 4 * k := by exact_mod_cast (mul_lt_mul_iff_of_pos_right unit).mp hlt
    rw [← add_mul, ← mul_assoc]
    refine mul_le_mul_of_nonneg_right ?_ unit.le
    exact_mod_cast (by omega : 2 * (4 * m + 2) ≤ 4 * m + 4 * k)
  · have hfull := hm.full
    have hleast := hn.least
    have := (mul_lt_mul_iff_of_pos_right unit).mp (hlt.trans_le (le_of_exponent_lt hn hlt'))
    have : 4 * m < 2 ^ 54 - 2 := by exact_mod_cast this
    omega

/-- The lower end of a rounding interval is the middle to the number before. -/
theorem midpoint_below (hm : Aligned m e) (hn : Aligned n f)
    (hlt : (n * 2 ^ f : ℚ) < m * 2 ^ e) :
    (m * 2 ^ e + n * 2 ^ f : ℚ) ≤ 2 * (lowQuarters m e * 2 ^ (e - 2)) := by
  have unit : (0 : ℚ) < 2 ^ (e - 2) := by positivity
  rw [quarters m e] at hlt ⊢
  obtain ⟨k, hk, hquarters⟩ : ∃ k : Nat, (n * 2 ^ f : ℚ) ≤ k * 2 ^ (e - 2) ∧
      4 * m + k ≤ 2 * lowQuarters m e := by
    rcases le_or_gt e f with hle | hlt'
    · obtain ⟨k, hk⟩ := quarters_of_exponent_le n hle
      rw [hk] at hlt
      have hmk : 4 * k < 4 * m := by exact_mod_cast (mul_lt_mul_iff_of_pos_right unit).mp hlt
      refine ⟨4 * k, hk.le, ?_⟩
      rw [lowQuarters]
      split <;> omega
    · have hfull := hm.full
      have hleast := hn.least
      refine ⟨2 ^ 54 - 2, le_of_exponent_lt hn hlt', ?_⟩
      rw [lowQuarters]
      split <;> omega
  calc ((4 * m : Nat) * 2 ^ (e - 2) + n * 2 ^ f : ℚ)
      ≤ (4 * m : Nat) * 2 ^ (e - 2) + k * 2 ^ (e - 2) := by gcongr
    _ = (4 * m + k : Nat) * 2 ^ (e - 2) := by push_cast; ring
    _ ≤ (2 * lowQuarters m e : Nat) * 2 ^ (e - 2) := by gcongr
    _ = 2 * (lowQuarters m e * 2 ^ (e - 2)) := by push_cast; ring

/-- What rounds to a number is no nearer to another one. -/
theorem Rounds.abs_sub_le (h : Rounds q m e) (hm : Aligned m e) (hn : Aligned n f) :
    |(m * 2 ^ e : ℚ) - q| ≤ |(n * 2 ^ f : ℚ) - q| := by
  have hlow := h.low_le
  have hhigh := h.le_high
  rcases lt_trichotomy (m * 2 ^ e : ℚ) (n * 2 ^ f) with hlt | heq | hgt
  · have hmid := midpoint_above hm hn hlt
    rw [abs_of_nonneg (by linarith : (0 : ℚ) ≤ n * 2 ^ f - q), abs_le]
    constructor <;> linarith
  · rw [heq]
  · have hmid := midpoint_below hm hn hgt
    rw [abs_of_nonpos (by linarith : (n * 2 ^ f - q : ℚ) ≤ 0), abs_le]
    constructor <;> linarith

theorem Rounds.nearest (h : Rounds q m e) (hx : Consists x .positive m e) : Nearest q x := by
  refine ⟨hx.isFinite, fun y hy => ?_⟩
  obtain ⟨sign, n, f, hy⟩ := consists_of_isFinite hy
  have hvalue : value x = m * 2 ^ e := hx.value_eq
  rw [hvalue, hy.value_eq]
  cases sign with
  | positive => exact h.abs_sub_le hx.aligned hy.aligned
  | negative =>
    -- Zero is nearer than a negative number.
    have hpos : 0 ≤ q := le_trans (by positivity) h.low_le
    have hzero := h.abs_sub_le hx.aligned (n := 0) ⟨by norm_num, le_rfl, .inr rfl⟩
    have hmagnitude : (0 : ℚ) ≤ n * 2 ^ f := by positivity
    refine hzero.trans ?_
    simp only [Sign.apply, Int.cast_neg, Int.cast_natCast, Nat.cast_zero, zero_mul, zero_sub,
      neg_mul, abs_neg, abs_of_nonneg hpos]
    rw [abs_of_nonpos (by linarith)]
    linarith

/-! ## Signs -/

theorem isFinite_neg (hx : x.isFinite) : (-x).isFinite := by
  obtain ⟨sign, m, e, hx⟩ := consists_of_isFinite hx
  exact hx.neg.isFinite

theorem value_neg (hx : x.isFinite) : value (-x) = -value x := by
  obtain ⟨sign, m, e, hx⟩ := consists_of_isFinite hx
  rw [hx.value_eq, hx.neg.value_eq]
  cases sign with
  | positive => simp [Sign.apply]
  | negative => simp [Sign.apply]

namespace Nearest

theorem neg (h : Nearest q x) : Nearest (-q) (-x) := by
  refine ⟨isFinite_neg h.isFinite, fun y hy => ?_⟩
  have hle := h.le (-y) (isFinite_neg hy)
  rw [value_neg hy] at hle
  rw [value_neg h.isFinite]
  rwa [← abs_neg, (by ring : -(-value x - -q) = value x - q), ← abs_neg (value y - -q),
    (by ring : -(value y - -q) = -value y - q)]

/-- A number of the format is nearest to its own value only. -/
theorem value_eq (h : Nearest (value y) x) (hy : y.isFinite) : value x = value y := by
  have hle := h.le y hy
  rw [sub_self, abs_zero] at hle
  exact sub_eq_zero.mp (abs_nonpos_iff.mp hle)

/-- The nearest number is not below a number of the format that is not above. -/
theorem le_value (h : Nearest q x) (hy : y.isFinite) (hle : value y ≤ q) : value y ≤ value x := by
  by_contra hlt
  have hnear := h.le y hy
  rw [abs_of_nonpos (by linarith), abs_of_nonpos (by linarith)] at hnear
  linarith

theorem value_le (h : Nearest q x) (hy : y.isFinite) (hle : q ≤ value y) : value x ≤ value y := by
  by_contra hlt
  have hnear := h.le y hy
  rw [abs_of_nonneg (by linarith), abs_of_nonneg (by linarith)] at hnear
  linarith

/-- The nearest numbers of two numbers are in the same order. -/
theorem mono (hx : Nearest p x) (hy : Nearest q y) (hlt : p < q) : value x ≤ value y := by
  by_contra hgt
  have hfirst := sq_le_sq.mpr (hx.le y hy.isFinite)
  have hsecond := sq_le_sq.mpr (hy.le x hx.isFinite)
  nlinarith

end Nearest

/-! ## Whole numbers -/

theorem exists_rounds (hle : n ≤ 2 ^ 64) : ∃ m e, Aligned m e ∧ e ≤ 971 ∧ Rounds n m e := by
  rcases n.eq_zero_or_pos with rfl | hpos
  · refine ⟨0, -1074, ⟨by norm_num, le_rfl, .inr rfl⟩, by norm_num, ?_⟩
    simp [Rounds, lowQuarters]
  have hrounded := round_rounded .positive hpos
  cases hround : UnpackedFloat.round .binary64 .positive n 0 with
  | infinity => rw [hround] at hrounded; cases hrounded
  | notANumber => rw [hround] at hrounded; cases hrounded
  | zero =>
    rw [hround] at hrounded
    cases hrounded with
    | zero h => exact ⟨0, _, ⟨by norm_num, le_rfl, .inr rfl⟩, by norm_num, h⟩
  | finite sign m e hm =>
    rw [hround] at hrounded
    cases hrounded with
    | finite _ haligned h =>
      refine ⟨m, e, haligned, ?_, h⟩
      by_contra hgreat
      have hfull := haligned.full
      have hquarters : 1 ≤ lowQuarters m e := by
        rw [lowQuarters]
        split <;> omega
      have : (2 : ℚ) ^ (65 : Int) ≤ 2 ^ 64 :=
        calc (2 : ℚ) ^ (65 : Int) ≤ 2 ^ (e - 2) := zpow_le_zpow_right₀ one_le_two (by omega)
          _ ≤ lowQuarters m e * 2 ^ (e - 2) :=
            le_mul_of_one_le_left (by positivity) (one_le_cast hquarters)
          _ ≤ n := h.low_le
          _ ≤ 2 ^ 64 := by exact_mod_cast hle
      norm_num at this

theorem ofNat_nearest (hle : n ≤ 2 ^ 64) : Nearest n (Float.ofNat n) := by
  obtain ⟨m, e, haligned, hgreatest, hrounds⟩ := exists_rounds hle
  have hvalue : scientificValue n false 0 = n := by simp [scientificValue]
  exact hrounds.nearest (ofScientific_consists (by rwa [hvalue]) haligned hgreatest)

theorem consists_one : Consists (Float.ofScientific 1 false 0) .positive (2 ^ 52) (-52) := by
  have hone : Rounds (2 ^ 52 * 2 ^ (-52 : Int)) (2 ^ 52) (-52) := by
    exact_mod_cast Rounds.self (by norm_num : 0 < 2 ^ 52)
  refine ofScientific_consists ?_ ⟨by norm_num, by norm_num, .inl le_rfl⟩ (by norm_num)
  norm_num [scientificValue] at hone ⊢
  exact hone

/-- A product with one is the other factor. -/
theorem Consists.mul_one (hx : Consists x .positive m e) :
    Consists (x * Float.ofScientific 1 false 0) .positive m e := by
  rw [mul_eq, consists_one.unpack_eq (by norm_num)]
  cases hx with
  | zero h =>
    rw [h]
    exact consists_zero .positive
  | finite hpos h =>
    have hx : Consists x .positive m e := .finite hpos h
    have hvalue : (m * 2 ^ e * ((2 ^ 52 : Nat) * 2 ^ (-52 : Int)) : ℚ) = m * 2 ^ e := by norm_num
    have hrounded : Rounded (m * 2 ^ e) .positive (mul .binary64 (.finite .positive m e hpos)
        (.finite .positive (2 ^ 52) (-52) (by norm_num))) := by
      rw [← hvalue]
      exact mul_rounded (Nat.le_mul_of_pos_left _ hpos)
    rw [h]
    exact hrounded.consists hx.aligned (Rounds.self hpos) hx.greatest

theorem isFinite_ofNat_mul_one (hle : n ≤ 2 ^ 64) :
    (Float.ofNat n * Float.ofScientific 1 false 0).isFinite := by
  obtain ⟨m, e, haligned, hgreatest, hrounds⟩ := exists_rounds hle
  have hvalue : scientificValue n false 0 = n := by simp [scientificValue]
  exact (ofScientific_consists (by rwa [hvalue]) haligned hgreatest).mul_one.isFinite

/-- A whole number becomes the number nearest to it. -/
theorem ofWhole_nearest {k : Int} (hle : k.natAbs ≤ 2 ^ 63) : Nearest k (ofWhole k) := by
  have hle : k.natAbs ≤ 2 ^ 64 := hle.trans (by norm_num)
  cases k with
  | ofNat n => exact ofNat_nearest hle
  | negSucc n =>
    have hneg : ((Int.negSucc n : Int) : ℚ) = -((n + 1 : Nat) : ℚ) := by
      rw [Int.cast_negSucc]
    rw [hneg]
    exact (ofNat_nearest hle).neg

theorem exists_of_nat_le (hle : n ≤ 2 ^ 53) : ∃ y : Float, y.isFinite ∧ value y = n := by
  rcases n.eq_zero_or_pos with rfl | hpos
  · have hzero := consists_zero .positive
    exact ⟨_, hzero.isFinite, by simp [hzero.value_eq, Sign.apply]⟩
  · obtain ⟨m, e, hcanonical, hvalue⟩ :
        ∃ m e, Canonical m e ∧ (m * 2 ^ e : ℚ) = n := by
      rcases hle.lt_or_eq with hlt | rfl
      · have hvalue := filled_value hlt 0
        rw [zpow_zero, mul_one] at hvalue
        exact ⟨_, _, canonical_filled hpos hlt (by norm_num) (by norm_num), hvalue⟩
      · exact ⟨2 ^ 52, 1, ⟨⟨by norm_num, by norm_num, by simp⟩, by norm_num, by norm_num⟩,
          by norm_num⟩
    have hconsists := consists_finite .positive hcanonical
    exact ⟨_, hconsists.isFinite, hconsists.value_eq.trans hvalue⟩

/-- The format has all whole numbers up to `2 ^ 53`. -/
theorem exists_of_natAbs_le {k : Int} (hle : k.natAbs ≤ 2 ^ 53) :
    ∃ y : Float, y.isFinite ∧ value y = k := by
  obtain ⟨y, hy, hvalue⟩ := exists_of_nat_le hle
  rcases k.natAbs_eq with hk | hk
  · refine ⟨y, hy, ?_⟩
    rw [hvalue, hk]
    simp
  · refine ⟨-y, isFinite_neg hy, ?_⟩
    rw [value_neg hy, hvalue, hk]
    simp

/-- A number from `2 ^ 53` on has no fraction. -/
theorem whole_of_le_abs (hx : x.isFinite) (hle : 2 ^ 53 ≤ |value x|) :
    ∃ k, whole? x = some k := by
  obtain ⟨sign, m, e, hconsists⟩ := consists_of_isFinite hx
  have hlt := hconsists.aligned.lt
  have hmagnitude : |value x| = m * 2 ^ e := by
    have hpos : (0 : ℚ) ≤ m * 2 ^ e := by positivity
    rw [hconsists.value_eq]
    cases sign <;> simp [Sign.apply]
  rw [hmagnitude] at hle
  have hnonneg : 0 ≤ e := by
    by_contra hneg
    have : (m * 2 ^ e : ℚ) < 2 ^ 53 := by
      calc (m * 2 ^ e : ℚ) ≤ m * 2 ^ (0 : Int) := by
            gcongr
            · exact one_le_two
            · omega
        _ = m := by simp
        _ < 2 ^ 53 := by exact_mod_cast hlt
    linarith
  obtain ⟨j, rfl⟩ := Int.eq_ofNat_of_zero_le hnonneg
  refine ⟨sign.apply m * 2 ^ j, whole?_eq_some_iff.mpr ⟨hx, ?_⟩⟩
  rw [hconsists.value_eq, zpow_natCast]
  push_cast
  rfl

/-- The number nearest to a whole number is a whole number. -/
theorem Nearest.whole {k : Int} (h : Nearest k x) : ∃ j, whole? x = some j := by
  by_cases hsmall : k.natAbs ≤ 2 ^ 53
  · obtain ⟨y, hy, hvalue⟩ := exists_of_natAbs_le hsmall
    rw [← hvalue] at h
    exact ⟨k, whole?_eq_some_iff.mpr ⟨h.isFinite, (h.value_eq hy).trans hvalue⟩⟩
  · apply whole_of_le_abs h.isFinite
    rcases le_total 0 k with hnonneg | hneg
    · obtain ⟨y, hy, hvalue⟩ := exists_of_natAbs_le (k := 2 ^ 53) (by norm_num)
      have hle := h.le_value hy (by rw [hvalue]; exact_mod_cast (by omega : 2 ^ 53 ≤ k))
      rw [hvalue] at hle
      exact le_abs.mpr (.inl (by exact_mod_cast hle))
    · obtain ⟨y, hy, hvalue⟩ := exists_of_natAbs_le (k := -2 ^ 53) (by norm_num)
      have hle := h.value_le hy (by rw [hvalue]; exact_mod_cast (by omega : k ≤ -2 ^ 53))
      rw [hvalue] at hle
      push_cast at hle
      exact le_abs.mpr (.inr (by linarith))

end DivisionScript.Number
