import DivisionScript.Number.Reading
import DivisionScript.Proofs.Number.Packing

/-!
# Number — Scientific

A decimal is read as the number nearest to it, however many digits it has and however large its
power of ten is. Short decimals take one multiplication or division of exact numbers, all others a
longer way; both round once.
-/

namespace DivisionScript.Number

open Float.Model (Format UnpackedFloat totalExponent)
open Float.Model.UnpackedFloat

variable {q : ℚ} {sign : Sign} {m n : Nat} {e f : Int}

/-- The residual bits of a proper fraction behind a whole number. -/
theorem residual_of_lt (k : Nat) {r : Nat} (hr : r < n) :
    Residual (.ofMantissaAndAccuracy k (accuracyOfFraction r n)) (k + r / n : ℚ) := by
  have hn : (0 : ℚ) < n := by exact_mod_cast Nat.zero_lt_of_lt hr
  have hlt : (r / n : ℚ) < 1 := (div_lt_one hn).mpr (by exact_mod_cast hr)
  rw [accuracyOfFraction]
  split
  · next hzero => simp [hzero, Residual, ExtendedMantissa.ofMantissaAndAccuracy]
  · next hne =>
    have hpos : (0 : ℚ) < r / n := div_pos (by exact_mod_cast Nat.pos_of_ne_zero hne) hn
    cases hcompare : compare (2 * r) n with
    | lt =>
      have hbelow : (2 * r : ℚ) < n := by exact_mod_cast Nat.compare_eq_lt.mp hcompare
      have hhalf : (r / n : ℚ) < 1 / 2 := by
        rw [div_lt_div_iff₀ hn two_pos]
        linarith
      simp only [Residual, ExtendedMantissa.ofMantissaAndAccuracy]
      constructor <;> linarith
    | eq =>
      have hequal : (2 * r : ℚ) = n := by exact_mod_cast Nat.compare_eq_eq.mp hcompare
      simp only [Residual, ExtendedMantissa.ofMantissaAndAccuracy]
      rw [← hequal]
      field_simp
    | gt =>
      have habove : (n : ℚ) < 2 * r := by exact_mod_cast Nat.compare_eq_gt.mp hcompare
      have hhalf : (1 / 2 : ℚ) < r / n := by
        rw [div_lt_div_iff₀ two_pos hn]
        linarith
      simp only [Residual, ExtendedMantissa.ofMantissaAndAccuracy]
      constructor <;> linarith

/-- The residual bits of a quotient. -/
theorem residual_fraction (m : Nat) (hn : 0 < n) :
    Residual (.ofMantissaAndAccuracy (m / n) (accuracyOfFraction (m % n) n)) (m / n : ℚ) := by
  have hunit : (n : ℚ) ≠ 0 := by exact_mod_cast hn.ne'
  have hparts : (m : ℚ) = n * (m / n : Nat) + (m % n : Nat) := by
    exact_mod_cast (Nat.div_add_mod m n).symm
  have hvalue : (m / n : ℚ) = (m / n : Nat) + (m % n : Nat) / n := by
    rw [div_eq_iff hunit, add_mul, div_mul_cancel₀ _ hunit, mul_comm ((m / n : Nat) : ℚ)]
    exact hparts
  rw [hvalue]
  exact residual_of_lt (m / n) (Nat.mod_lt m hn)

/-- A product of which no digit is missing is rounded once. -/
theorem mul_rounded {hm : 0 < m} {hn : 0 < n} (hfull : 2 ^ 52 ≤ m * n) :
    Rounded (m * 2 ^ e * (n * 2 ^ f)) .positive
      (mul .binary64 (.finite .positive m e hm) (.finite .positive n f hn)) := by
  have hlog : 52 ≤ (m * n).log2 := (Nat.le_log2 (by positivity)).mpr hfull
  have hvalue : (m * 2 ^ e * (n * 2 ^ f) : ℚ) = (m * n : Nat) * 2 ^ (e + f) := by
    rw [zpow_add₀ two_ne_zero]
    push_cast
    ring
  rw [hvalue]
  refine roundWithAccuracy_rounded _ (residual_exact _) ?_
  rw [targetExponent_eq]
  omega

/-- The quotient has as many digits as the format keeps, or it is at the least exponent. -/
theorem divCore_exponent_le (hm : 0 < m) (hn : 0 < n) {k : Nat} {target : Int}
    (htarget : target = min (e - f)
      (max (m.log2 + 1 + e - (n.log2 + 1 + f) - 53) (-1074))) (hk : target = e - f - k) :
    target ≤ Format.binary64.targetExponent (totalExponent (m * 2 ^ k / n) target) := by
  rw [targetExponent_eq]
  by_cases hleast : target ≤ -1074
  · exact le_max_of_le_right hleast
  · -- The shifted dividend has 53 digits more than the divisor.
    have hle : 2 ^ 52 * n ≤ m * 2 ^ k := by
      calc 2 ^ 52 * n ≤ 2 ^ 52 * 2 ^ (n.log2 + 1) := Nat.mul_le_mul_left _ Nat.lt_log2_self.le
        _ = 2 ^ (52 + (n.log2 + 1)) := (pow_add ..).symm
        _ ≤ 2 ^ (m.log2 + k) := Nat.pow_le_pow_right two_pos (by omega)
        _ = 2 ^ m.log2 * 2 ^ k := pow_add ..
        _ ≤ m * 2 ^ k := Nat.mul_le_mul_right _ (Nat.log2_self_le hm.ne')
    have hquotient : 2 ^ 52 ≤ m * 2 ^ k / n := (Nat.le_div_iff_mul_le hn).mpr hle
    have hlog : 52 ≤ (m * 2 ^ k / n).log2 := (Nat.le_log2 (by omega)).mpr hquotient
    omega

/-- A quotient is rounded once. -/
theorem div_rounded {hm : 0 < m} {hn : 0 < n} :
    Rounded (m * 2 ^ e / (n * 2 ^ f)) .positive
      (div .binary64 (.finite .positive m e hm) (.finite .positive n f hn)) := by
  obtain ⟨target, htarget⟩ : ∃ target, target = min (e - f)
      (max (m.log2 + 1 + e - (n.log2 + 1 + f) - 53) (-1074)) := ⟨_, rfl⟩
  obtain ⟨k, hk⟩ : ∃ k : Nat, (e - f - target).toNat = k := ⟨_, rfl⟩
  have hcore : divCore .binary64 m e n f =
      (m * 2 ^ k / n, target, accuracyOfFraction (m * 2 ^ k % n) n) := by
    rw [← hk, htarget, ← Nat.shiftLeft_eq]
    rfl
  have hshift : target = e - f - k := by omega
  have hvalue : (m * 2 ^ e / (n * 2 ^ f) : ℚ) = (m * 2 ^ k : Nat) / n * 2 ^ target := by
    rw [hshift, zpow_sub₀ two_ne_zero, zpow_sub₀ two_ne_zero, zpow_natCast]
    push_cast
    field_simp
  rw [div, hcore, hvalue]
  exact roundWithAccuracy_rounded _ (residual_fraction _ hn)
    (divCore_exponent_le hm hn htarget hshift)

/-- A whole number is rounded once. -/
theorem round_rounded (sign : Sign) (hm : 0 < m) :
    Rounded m sign (UnpackedFloat.round .binary64 sign m 0) := by
  obtain ⟨k, hk⟩ : ∃ k : Nat,
      (0 - Format.binary64.targetExponent (totalExponent m 0)).toNat = k := ⟨_, rfl⟩
  have hvalue : (m : ℚ) = (m * 2 ^ k : Nat) * 2 ^ (0 - k : Int) := by
    rw [zero_sub, zpow_neg, zpow_natCast]
    push_cast
    field_simp
  rw [UnpackedFloat.round, decreaseExponent, hk, Nat.shiftLeft_eq, hvalue]
  rw [targetExponent_eq] at hk
  refine roundWithAccuracy_rounded sign (residual_exact _) ?_
  have hfull : 2 ^ 52 ≤ m * 2 ^ k :=
    calc 2 ^ 52 ≤ 2 ^ (m.log2 + k) := Nat.pow_le_pow_right two_pos (by omega)
      _ = 2 ^ m.log2 * 2 ^ k := pow_add ..
      _ ≤ m * 2 ^ k := Nat.mul_le_mul_right _ (Nat.log2_self_le hm.ne')
  have hlog : 52 ≤ (m * 2 ^ k).log2 := (Nat.le_log2 (by positivity)).mpr hfull
  rw [targetExponent_eq]
  omega

/-! ## The exact operands of a short decimal -/

/-- A whole number of at most 53 digits fills up its significand with zeros. -/
theorem filled_full (hpos : 0 < m) (hlt : m < 2 ^ 53) : 2 ^ 52 ≤ m * 2 ^ (52 - m.log2) := by
  have hlog : m.log2 < 53 := (Nat.log2_lt hpos.ne').mpr hlt
  calc 2 ^ 52 = 2 ^ m.log2 * 2 ^ (52 - m.log2) := by rw [← pow_add]; congr 1; omega
    _ ≤ m * 2 ^ (52 - m.log2) := Nat.mul_le_mul_right _ (Nat.log2_self_le hpos.ne')

theorem canonical_filled (hpos : 0 < m) (hlt : m < 2 ^ 53) (hleast : -1022 ≤ e) (hmost : e ≤ 971) :
    Canonical (m * 2 ^ (52 - m.log2)) (e + m.log2 - 52) := by
  have hlog : m.log2 < 53 := (Nat.log2_lt hpos.ne').mpr hlt
  have hhigh : m < 2 ^ (m.log2 + 1) := Nat.lt_log2_self
  refine ⟨⟨?_, by omega, .inl (filled_full hpos hlt)⟩, by positivity, by omega⟩
  calc m * 2 ^ (52 - m.log2) < 2 ^ (m.log2 + 1) * 2 ^ (52 - m.log2) := by gcongr
    _ = 2 ^ 53 := by rw [← pow_add]; congr 1; omega

theorem filled_value (hlt : m < 2 ^ 53) (e : Int) :
    ((m * 2 ^ (52 - m.log2) : Nat) : ℚ) * 2 ^ (e + m.log2 - 52) = m * 2 ^ e := by
  have hlog : m.log2 ≤ 52 := by
    by_cases hzero : m = 0
    · subst hzero
      decide
    · have := (Nat.log2_lt hzero).mpr hlt
      omega
  have hexponent : e = (52 - m.log2 : Nat) + (e + m.log2 - 52) := by omega
  conv_rhs => rw [hexponent, zpow_add₀ two_ne_zero, zpow_natCast]
  push_cast
  ring

theorem toFloat_eq (hpos : 0 < m) (hlt : m < 2 ^ 53) :
    m.toUInt64.toFloat = .ofModel (.pack (UnpackedFloat.round .binary64 .positive m 0)) := by
  have hword : m.toUInt64.toNat = m := UInt64.toNat_ofNat_of_lt' (hlt.trans (by decide))
  have hcompare : compare (m : Int) 0 = .gt := Int.compare_eq_gt.mpr (by omega)
  have hnormal : UnpackedFloat.ofUInt64 .binary64 m.toUInt64 =
      UnpackedFloat.round .binary64 .positive m 0 := by
    rw [UnpackedFloat.ofUInt64, UnpackedFloat.ofNat, hword, UnpackedFloat.ofInt,
      UnpackedFloat.normalize, hcompare]
    rfl
  rw [← hnormal]
  rfl

theorem consists_toFloat (hpos : 0 < m) (hlt : m < 2 ^ 53) :
    Consists m.toUInt64.toFloat .positive (m * 2 ^ (52 - m.log2)) (0 + m.log2 - 52) := by
  have hcanonical := canonical_filled hpos hlt (by norm_num : -1022 ≤ 0) (by norm_num)
  have hvalue := filled_value hlt 0
  rw [zpow_zero, mul_one] at hvalue
  rw [toFloat_eq hpos hlt]
  refine (round_rounded .positive hpos).consists hcanonical.toAligned ?_ hcanonical.greatest
  rw [← hvalue]
  exact Rounds.self hcanonical.pos

theorem powersOfTen_eq : ∀ n : Fin 23, Float.exactlyRepresentablePowersOfTen[n] =
    .ofModel (.pack (.finite .positive (5 ^ n.val * 2 ^ (52 - (5 ^ n.val).log2))
      (n + (5 ^ n.val).log2 - 52) (by positivity))) := by
  decide +kernel

theorem consists_powerOfTen (n : Fin 23) : Consists Float.exactlyRepresentablePowersOfTen[n]
    .positive (5 ^ n.val * 2 ^ (52 - (5 ^ n.val).log2)) (n + (5 ^ n.val).log2 - 52) := by
  have hlt : 5 ^ n.val < 2 ^ 53 :=
    (Nat.pow_le_pow_right (by decide) (by omega : n.val ≤ 22)).trans_lt (by norm_num)
  rw [powersOfTen_eq n]
  exact consists_finite .positive (canonical_filled (by positivity) hlt (by omega) (by omega))

theorem powerOfTen_value (n : Fin 23) :
    ((5 ^ n.val * 2 ^ (52 - (5 ^ n.val).log2) : Nat) : ℚ) * 2 ^ (n + (5 ^ n.val).log2 - 52 : Int) =
      10 ^ n.val := by
  have hlt : 5 ^ n.val < 2 ^ 53 :=
    (Nat.pow_le_pow_right (by decide) (by omega : n.val ≤ 22)).trans_lt (by norm_num)
  rw [filled_value hlt, zpow_natCast]
  push_cast
  rw [← mul_pow]
  norm_num

/-! ## Reading -/

/-- What digits with a power of ten denote, the power being negative if there is a mark. -/
def scientificValue (digits : Nat) (negative : Bool) (power : Nat) : ℚ :=
  if negative then digits / 10 ^ power else digits * 10 ^ power

theorem mul_eq (x y : Float) :
    x * y = .ofModel (.pack (mul .binary64 x.toModel.unpack y.toModel.unpack)) :=
  rfl

theorem div_eq (x y : Float) :
    x / y = .ofModel (.pack (div .binary64 x.toModel.unpack y.toModel.unpack)) :=
  rfl

theorem Consists.unpack_eq {x : Float} (h : Consists x sign m e) (hpos : 0 < m) :
    x.toModel.unpack = .finite sign m e hpos := by
  cases h with
  | zero => exact absurd hpos (lt_irrefl 0)
  | finite _ h => exact h

theorem Rounded.zero_zero : Rounded 0 sign (.zero sign) :=
  .zero (by simp [Rounds, lowQuarters])

variable {digits power : Nat} {negative : Bool}

theorem unpack_zero_toFloat : (0 : Nat).toUInt64.toFloat.toModel.unpack = .zero .positive :=
  unpack_packedZero .positive

/-- The short way: one operation with exact operands. -/
theorem short_rounded (hlt : digits < 2 ^ 53) (k : Fin 23) : ∃ u,
    (if negative then digits.toUInt64.toFloat / Float.exactlyRepresentablePowersOfTen[k]
      else digits.toUInt64.toFloat * Float.exactlyRepresentablePowersOfTen[k]) =
        .ofModel (.pack u) ∧ Rounded (scientificValue digits negative k) .positive u := by
  have hpower := (consists_powerOfTen k).unpack_eq (by positivity)
  have hvalue := powerOfTen_value k
  rw [mul_eq, div_eq, ← apply_ite Float.ofModel, ← apply_ite Float.Model.pack]
  refine ⟨_, rfl, ?_⟩
  rw [hpower, scientificValue, ← hvalue]
  rcases digits.eq_zero_or_pos with rfl | hpos
  · rw [unpack_zero_toFloat]
    cases negative <;> simp only [Nat.cast_zero, zero_mul, zero_div] <;> exact .zero_zero
  · have hdigits := (consists_toFloat hpos hlt).unpack_eq (by positivity)
    have hexact := filled_value hlt 0
    rw [zpow_zero, mul_one] at hexact
    rw [hdigits, ← hexact]
    cases negative with
    | false =>
      rw [if_neg Bool.false_ne_true, if_neg Bool.false_ne_true]
      exact mul_rounded ((filled_full hpos hlt).trans
        (Nat.le_mul_of_pos_right _ (Nat.pos_of_ne_zero (by positivity))))
    | true =>
      rw [if_pos rfl, if_pos rfl]
      exact div_rounded

theorem pow_two_le_pow_ten (k : Nat) : (2 : ℚ) ^ k ≤ 10 ^ k :=
  pow_le_pow_left₀ two_pos.le (by norm_num) k

theorem one_le_cast (h : 0 < m) : (1 : ℚ) ≤ m := by
  exact_mod_cast h

/-- A decimal with a large power is beyond the range of the format. -/
theorem power_le_of_lt (hpos : 0 < digits) (hrange : (digits * 10 ^ e : ℚ) < 2 ^ (1024 : Int)) :
    e ≤ 1024 := by
  by_contra hlarge
  obtain ⟨k, rfl⟩ : ∃ k : Nat, e = k := ⟨e.toNat, by omega⟩
  have : (2 : ℚ) ^ (1024 : Int) ≤ digits * 10 ^ (k : Int) :=
    calc (2 : ℚ) ^ (1024 : Int) ≤ 2 ^ (k : Int) := zpow_le_zpow_right₀ one_le_two (by omega)
      _ ≤ 10 ^ (k : Int) := by exact_mod_cast pow_two_le_pow_ten k
      _ ≤ digits * 10 ^ (k : Int) := le_mul_of_one_le_left (by positivity) (one_le_cast hpos)
  exact absurd hrange this.not_gt

/-- A decimal with a power far below the least number of the format rounds to zero. -/
theorem rounds_zero_of_power_lt (hlt : e < -(2048 + digits.log2)) :
    Rounds (digits * 10 ^ e) 0 (-1074) := by
  have hbelow : (digits : ℚ) ≤ 2 ^ (digits.log2 + 1 : Int) := by
    exact_mod_cast (Nat.lt_log2_self (n := digits)).le
  have hpower : (10 : ℚ) ^ e ≤ 2 ^ e := by
    obtain ⟨k, rfl⟩ : ∃ k : Nat, e = -k := ⟨(-e).toNat, by omega⟩
    rw [zpow_neg, zpow_neg, zpow_natCast, zpow_natCast]
    exact inv_anti₀ (by positivity) (pow_two_le_pow_ten k)
  have hquarters : ((4 * 0 + 2 : Nat) : ℚ) = 2 := by norm_num
  rw [Rounds, if_pos rfl, hquarters, ← zpow_one_add₀ two_ne_zero]
  refine ⟨by simp [lowQuarters]; positivity, ?_⟩
  calc (digits * 10 ^ e : ℚ) ≤ 2 ^ (digits.log2 + 1 : Int) * 2 ^ e := by gcongr
    _ = 2 ^ (digits.log2 + 1 + e : Int) := (zpow_add₀ two_ne_zero _ _).symm
    _ ≤ 2 ^ (1 + (-1074 - 2) : Int) := zpow_le_zpow_right₀ one_le_two (by omega)

/-- The long way: one operation with operands of any size. -/
theorem long_rounded (e : Int) (hrange : (digits * 10 ^ e : ℚ) < 2 ^ (1024 : Int)) :
    Rounded (digits * 10 ^ e) .positive (UnpackedFloat.ofScientific .binary64 digits e) := by
  have hguard : (2 : Int) ^ Format.binary64.exponentBits = 2048 := rfl
  unfold UnpackedFloat.ofScientific
  rw [hguard]
  split
  · next hzero =>
    rw [hzero, Nat.cast_zero, zero_mul]
    exact .zero_zero
  next hne =>
  have hpos : 0 < digits := Nat.pos_of_ne_zero hne
  split
  · next hlarge =>
    have := power_le_of_lt hpos hrange
    omega
  split
  · next hlt => exact .zero (rounds_zero_of_power_lt hlt)
  split
  · next hnonneg =>
    have hvalue : (digits * 10 ^ e : ℚ) =
        (digits <<< Format.binary64.mantissaBits : Nat) *
          2 ^ (-Format.binary64.mantissaBits : Int) * ((10 ^ e.toNat : Nat) * 2 ^ (0 : Int)) := by
      have hpower : (10 : ℚ) ^ e = (10 ^ e.toNat : Nat) := by
        rw [Nat.cast_pow, ← zpow_natCast, Int.toNat_of_nonneg hnonneg]
        rfl
      rw [hpower, Nat.shiftLeft_eq, zpow_neg, zpow_natCast]
      push_cast
      field_simp
    rw [hvalue]
    refine mul_rounded ?_
    calc 2 ^ 52 ≤ 2 ^ 53 := by norm_num
      _ ≤ digits <<< 53 := by rw [Nat.shiftLeft_eq]; exact Nat.le_mul_of_pos_left _ hpos
      _ ≤ digits <<< 53 * 10 ^ e.toNat := Nat.le_mul_of_pos_right _ (by positivity)
  · next hneg =>
    have hvalue : (digits * 10 ^ e : ℚ) = digits * 2 ^ (0 : Int) /
        ((10 ^ (-e).toNat : Nat) * 2 ^ (0 : Int)) := by
      push_cast
      rw [← zpow_natCast, Int.toNat_of_nonneg (by omega), zpow_neg]
      field_simp
    rw [hvalue]
    exact div_rounded

/-- A decimal in the range of the format is read as the number nearest to it. -/
theorem ofScientific_rounded (hrange : scientificValue digits negative power < 2 ^ (1024 : Int)) :
    ∃ u, Float.ofScientific digits negative power = .ofModel (.pack u) ∧
      Rounded (scientificValue digits negative power) .positive u := by
  have hvalue : scientificValue digits negative power =
      digits * 10 ^ (if negative then Int.negOfNat power else Int.ofNat power) := by
    cases negative with
    | false => simp [scientificValue]
    | true => simp [scientificValue, div_eq_mul_inv, Int.negOfNat_eq]
  rw [Float.ofScientific]
  split
  · next hshort => exact short_rounded hshort.1 ⟨power, by omega⟩
  · rw [hvalue] at hrange ⊢
    exact ⟨_, rfl, long_rounded _ hrange⟩

/-- What rounds to a number of the format is in its range. -/
theorem Rounds.lt_range (h : Rounds q m e) (haligned : Aligned m e) (hle : e ≤ 971) :
    q < 2 ^ (1024 : Int) := by
  have hlt := haligned.lt
  have hsum : (2 : ℚ) ^ (1024 : Int) = (2 ^ 55 : Nat) * 2 ^ (969 : Int) := by
    rw [Nat.cast_pow, ← zpow_natCast]
    exact zpow_add₀ two_ne_zero 55 969
  calc q ≤ (4 * m + 2 : Nat) * 2 ^ (e - 2) := h.le_high
    _ < (2 ^ 55 : Nat) * 2 ^ (e - 2) := by gcongr; omega
    _ ≤ (2 ^ 55 : Nat) * 2 ^ (969 : Int) := by
      gcongr
      · exact one_le_two
      · omega
    _ = 2 ^ (1024 : Int) := hsum.symm

/-- Reading a decimal gives the number to which the decimal rounds. -/
theorem ofScientific_consists (hrounds : Rounds (scientificValue digits negative power) m e)
    (haligned : Aligned m e) (hle : e ≤ 971) :
    Consists (Float.ofScientific digits negative power) .positive m e := by
  obtain ⟨u, hu, hrounded⟩ := ofScientific_rounded (hrounds.lt_range haligned hle)
  rw [hu]
  exact hrounded.consists haligned hrounds hle

theorem ofDecimal_consists (hrounds : Rounds (digits * 10 ^ f) m e) (haligned : Aligned m e)
    (hle : e ≤ 971) : Consists (ofDecimal digits f) .positive m e := by
  rw [ofDecimal]
  split
  · next hnonneg =>
    refine ofScientific_consists ?_ haligned hle
    rwa [scientificValue, if_neg Bool.false_ne_true, ← zpow_natCast, Int.toNat_of_nonneg hnonneg]
  · next hneg =>
    refine ofScientific_consists ?_ haligned hle
    rwa [scientificValue, if_pos rfl, ← zpow_natCast, Int.toNat_of_nonneg (by omega), zpow_neg,
      div_inv_eq_mul]

end DivisionScript.Number
