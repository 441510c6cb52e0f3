import DivisionScript.Proofs.Number.Shortest

/-!
# Number — Rounding

Binary64 arithmetic rounds to the nearest number. An intermediate significand comes with two
residual bits, which tell where the exact result lies between it and the next one. Shifting keeps
this meaning, so that the significand rounded at the end is the nearest one, and the even one of
two.
-/

namespace DivisionScript.Number

open Float.Model Float.Model.UnpackedFloat

/-- The exact results for which a significand has its residual bits, in units of its last place. -/
def Residual (em : ExtendedMantissa) (q : ℚ) : Prop :=
  match em.roundBit, em.stickyBit with
  | false, false => q = em.mantissa
  | false, true => em.mantissa < q ∧ q < em.mantissa + 1 / 2
  | true, false => q = em.mantissa + 1 / 2
  | true, true => em.mantissa + 1 / 2 < q ∧ q < em.mantissa + 1

theorem residual_exact (m : Nat) : Residual (.ofMantissaAndAccuracy m .exact) m :=
  rfl

namespace Residual

variable {em : ExtendedMantissa} {q : ℚ}

theorem mantissa_le (h : Residual em q) : (em.mantissa : ℚ) ≤ q := by
  obtain ⟨m, r, s⟩ := em
  cases r <;> cases s <;> simp only [Residual] at h ⊢ <;> linarith

theorem lt_succ (h : Residual em q) : q < em.mantissa + 1 := by
  obtain ⟨m, r, s⟩ := em
  cases r <;> cases s <;> simp only [Residual] at h ⊢ <;> linarith

/-- What falls off the significand goes to the residual bits. -/
theorem shiftRightOne (h : Residual em q) : Residual em.shiftRightOne (q / 2) := by
  obtain ⟨m, r, s⟩ := em
  obtain ⟨k, rfl | rfl⟩ := m.even_or_odd'
  · have half : 2 * k / 2 = k := by omega
    cases r <;> cases s <;>
      simp [Residual, ExtendedMantissa.shiftRightOne, half] at h ⊢ <;>
      first | linarith | constructor <;> linarith
  · have half : (2 * k + 1) / 2 = k := by omega
    have last : (2 * k + 1) % 2 = 1 := by omega
    cases r <;> cases s <;>
      simp [Residual, ExtendedMantissa.shiftRightOne, half, last] at h ⊢ <;>
      first | linarith | constructor <;> linarith

theorem shiftRight (h : Residual em q) (n : Nat) : Residual (em >>> n) (q / 2 ^ n) := by
  change Residual (n.repeat ExtendedMantissa.shiftRightOne em) _
  induction n with
  | zero => simpa [Nat.repeat] using h
  | succ n ih =>
    rw [Nat.repeat, pow_succ, ← div_div]
    exact ih.shiftRightOne

theorem mantissa_le_rounded (em : ExtendedMantissa) :
    em.mantissa ≤ em.roundedMantissa ∧ em.roundedMantissa ≤ em.mantissa + 1 := by
  obtain ⟨m, r, s⟩ := em
  cases r <;> cases s <;>
    simp [ExtendedMantissa.roundedMantissa, ExtendedMantissa.accuracy, Accuracy.roundToNearestEven]
  omega

/-- The rounded significand is at most half a unit away. -/
theorem rounded (h : Residual em q) :
    (em.roundedMantissa : ℚ) ≤ q + 1 / 2 ∧ q ≤ em.roundedMantissa + 1 / 2 := by
  obtain ⟨m, r, s⟩ := em
  have hlast : ((m % 2 : Nat) : ℚ) ≤ 1 := by exact_mod_cast (by omega : m % 2 ≤ 1)
  cases r <;> cases s <;>
    simp only [Residual, ExtendedMantissa.roundedMantissa, ExtendedMantissa.accuracy,
      Accuracy.roundToNearestEven] at h ⊢ <;>
    push_cast <;> constructor <;> linarith [(m % 2).cast_nonneg (α := ℚ)]

/-- An odd significand is less than half a unit away: a tie goes to its even neighbour. -/
theorem rounded_of_odd (h : Residual em q) (hodd : em.roundedMantissa % 2 = 1) :
    (em.roundedMantissa : ℚ) < q + 1 / 2 ∧ q < em.roundedMantissa + 1 / 2 := by
  obtain ⟨m, r, s⟩ := em
  cases r <;> cases s <;>
    simp only [Residual, ExtendedMantissa.roundedMantissa, ExtendedMantissa.accuracy,
      Accuracy.roundToNearestEven] at h hodd ⊢
  case true.false => omega
  all_goals push_cast; constructor <;> linarith

end Residual

theorem lowQuarters_of_odd {m : Nat} (e : Int) (hodd : m % 2 = 1) :
    (lowQuarters m e : ℚ) = 4 * m - 2 := by
  rw [lowQuarters, if_neg (by omega), Nat.cast_sub (by omega)]
  push_cast
  rfl

theorem lowQuarters_le {q : ℚ} {m : Nat} {e : Int} (hnear : (m : ℚ) ≤ q + 1 / 2) (hpos : 0 ≤ q)
    (hbinade : m = 2 ^ 52 → -1074 < e → 2 ^ 52 ≤ q) : (lowQuarters m e : ℚ) ≤ 4 * q := by
  rw [lowQuarters]
  split
  · next hleading =>
    have hle := hbinade hleading.1 hleading.2
    rw [hleading.1]
    norm_num
    linarith
  · by_cases hzero : m = 0
    · simp [hzero, hpos]
    · rw [Nat.cast_sub (by omega)]
      push_cast
      linarith

/-- Rounding in units of the last place. -/
theorem Rounds.of_near {q : ℚ} {m : Nat} {e : Int} (hlow : (lowQuarters m e : ℚ) ≤ 4 * q)
    (hhigh : q ≤ m + 1 / 2)
    (hodd : m % 2 = 1 → (lowQuarters m e : ℚ) < 4 * q ∧ q < m + 1 / 2) :
    Rounds (q * 2 ^ e) m e := by
  have unit : (0 : ℚ) < 2 ^ (e - 2) := by positivity
  have scaled : q * 2 ^ e = 4 * q * 2 ^ (e - 2) := by
    rw [zpow_sub₀ two_ne_zero]
    ring
  rw [Rounds, scaled]
  simp only [mul_le_mul_iff_of_pos_right unit, mul_lt_mul_iff_of_pos_right unit]
  push_cast
  split
  · exact ⟨hlow, by linarith⟩
  · next hne =>
    obtain ⟨hlow, hhigh⟩ := hodd (by omega)
    exact ⟨hlow, by linarith⟩

theorem targetExponent_eq (m : Nat) (e : Int) :
    Format.binary64.targetExponent (totalExponent m e) = max (m.log2 + 1 + e - 53) (-1074) :=
  rfl

/-- The significand that is left at the target exponent `e + n`. -/
theorem aligned_shifted {m n : Nat} {e : Int}
    (h : e + n = Format.binary64.targetExponent (totalExponent m e)) :
    Aligned (m / 2 ^ n) (e + n) := by
  rw [targetExponent_eq] at h
  have hbelow : m < 2 ^ (m.log2 + 1) := Nat.lt_log2_self
  refine ⟨?_, by omega, ?_⟩
  · rw [Nat.div_lt_iff_lt_mul (by positivity), ← pow_add]
    exact hbelow.trans_le (Nat.pow_le_pow_right two_pos (by omega))
  · by_cases hleast : e + n = -1074
    · exact .inr hleast
    · have hne : m ≠ 0 := by
        rintro rfl
        have : Nat.log2 0 = 0 := rfl
        omega
      refine .inl ((Nat.le_div_iff_mul_le (by positivity)).mpr ?_)
      rw [← pow_add]
      exact (Nat.pow_le_pow_right two_pos (by omega)).trans (Nat.log2_self_le hne)

/-- The floor of the exact result is the significand. -/
theorem Residual.mantissa_shiftRight {em : ExtendedMantissa} {q : ℚ} (h : Residual em q) (n : Nat) :
    (em >>> n).mantissa = em.mantissa / 2 ^ n := by
  have hshifted := h.shiftRight n
  have unit : (0 : ℚ) < 2 ^ n := by positivity
  have hlow : (em >>> n).mantissa * 2 ^ n < em.mantissa + 1 := by
    have := (le_div_iff₀ unit).mp hshifted.mantissa_le
    exact_mod_cast this.trans_lt h.lt_succ
  have hhigh : em.mantissa < ((em >>> n).mantissa + 1) * 2 ^ n := by
    have := (div_lt_iff₀ unit).mp hshifted.lt_succ
    exact_mod_cast h.mantissa_le.trans_lt this
  exact (Nat.div_eq_of_lt_le (by omega) hhigh).symm

theorem ofMantissaAndAccuracy_mantissa (m : Nat) (accuracy : Accuracy) :
    (ExtendedMantissa.ofMantissaAndAccuracy m accuracy).mantissa = m := by
  cases accuracy with
  | exact => rfl
  | inexact relative => cases relative <;> rfl

/-- The first shift puts the significand in place and keeps what it stands for. -/
theorem Residual.shiftToTargetExponent {m : Nat} {e : Int} {accuracy : Accuracy} {q : ℚ}
    (h : Residual (.ofMantissaAndAccuracy m accuracy) q)
    (hle : e ≤ Format.binary64.targetExponent (totalExponent m e)) :
    ∃ em f p, UnpackedFloat.shiftToTargetExponent .binary64 m e accuracy = (em, f) ∧
      Residual em p ∧ Aligned em.mantissa f ∧ q * 2 ^ e = p * 2 ^ f := by
  obtain ⟨n, hn⟩ := Int.eq_ofNat_of_zero_le (sub_nonneg.mpr hle)
  have htarget : e + n = Format.binary64.targetExponent (totalExponent m e) := by omega
  refine ⟨ExtendedMantissa.ofMantissaAndAccuracy m accuracy >>> n, e + n, q / 2 ^ n, ?_,
    h.shiftRight n, ?_, ?_⟩
  · rw [UnpackedFloat.shiftToTargetExponent, shiftToExponent, hn]
    rfl
  · rw [h.mantissa_shiftRight, ofMantissaAndAccuracy_mantissa]
    exact aligned_shifted htarget
  · rw [zpow_add₀ two_ne_zero, zpow_natCast]
    field_simp

/-- A significand in place is not shifted any more. -/
theorem shiftToTargetExponent_aligned {m : Nat} {e : Int} (h : Aligned m e) :
    UnpackedFloat.shiftToTargetExponent .binary64 m e .exact = (⟨m, false, false⟩, e) := by
  have hlog : m.log2 < 53 := by
    by_cases hzero : m = 0
    · subst hzero
      decide
    · exact (Nat.log2_lt hzero).mpr h.lt
  have hfull : 2 ^ 52 ≤ m → 52 ≤ m.log2 := fun hle => (Nat.le_log2 (by omega)).mpr hle
  have hleast := h.least
  have htarget : Format.binary64.targetExponent (totalExponent m e) = e := by
    rw [targetExponent_eq]
    have := h.full
    omega
  rw [UnpackedFloat.shiftToTargetExponent, htarget, shiftToExponent]
  simp only [sub_self, Int.toNat_zero, Nat.cast_zero, add_zero]
  rfl

/-- A significand that has become too large by rounding is shifted once more. -/
theorem shiftToTargetExponent_carry {e : Int} (h : -1074 ≤ e) :
    UnpackedFloat.shiftToTargetExponent .binary64 (2 ^ 53) e .exact =
      (⟨2 ^ 52, false, false⟩, e + 1) := by
  have htarget : Format.binary64.targetExponent (totalExponent (2 ^ 53) e) = e + 1 := by
    rw [targetExponent_eq, Nat.log2_two_pow]
    omega
  have hshift : (e + 1 - e).toNat = 1 := by omega
  rw [UnpackedFloat.shiftToTargetExponent, htarget, shiftToExponent, hshift]
  rfl

/-- The second shift ends at the number nearest to the exact result. -/
theorem Residual.shift_rounded {em : ExtendedMantissa} {e : Int} {q : ℚ} (h : Residual em q)
    (haligned : Aligned em.mantissa e) :
    ∃ n f, UnpackedFloat.shiftToTargetExponent .binary64 em.roundedMantissa e .exact =
      (⟨n, false, false⟩, f) ∧ Aligned n f ∧ Rounds (q * 2 ^ e) n f := by
  obtain ⟨hfloor, hceiling⟩ := Residual.mantissa_le_rounded em
  obtain ⟨hnear, hhigh⟩ := h.rounded
  have hodd := h.rounded_of_odd
  have hlow := h.mantissa_le
  have hlt := haligned.lt
  have hfull := haligned.full
  have hleast := haligned.least
  by_cases hcarry : em.roundedMantissa = 2 ^ 53
  · rw [hcarry] at hnear ⊢
    refine ⟨2 ^ 52, e + 1, shiftToTargetExponent_carry hleast, ⟨by norm_num, by omega, by simp⟩, ?_⟩
    -- The neighbours below the first number of a binade are twice as dense.
    have hmantissa : em.mantissa = 2 ^ 53 - 1 := by omega
    have hvalue : q * 2 ^ e = q / 2 * 2 ^ (e + 1) := by
      rw [zpow_add_one₀ two_ne_zero]
      ring
    have hquarters : lowQuarters (2 ^ 52) (e + 1) = 2 ^ 54 - 1 := by
      rw [lowQuarters, if_pos ⟨rfl, by omega⟩]
      rfl
    have hbelow := h.lt_succ
    rw [hmantissa] at hbelow
    rw [hvalue]
    push_cast at hnear hbelow
    refine Rounds.of_near ?_ ?_ (by norm_num)
    · rw [hquarters]
      push_cast
      linarith
    · push_cast
      linarith
  · have hplace : Aligned em.roundedMantissa e := ⟨by omega, hleast, by omega⟩
    refine ⟨_, e, shiftToTargetExponent_aligned hplace, hplace, ?_⟩
    have hbinade : em.roundedMantissa = 2 ^ 52 → -1074 < e → (2 ^ 52 : ℚ) ≤ q := by
      intro hleading habove
      have : 2 ^ 52 ≤ em.mantissa := by omega
      exact le_trans (by exact_mod_cast this) hlow
    refine Rounds.of_near (lowQuarters_le hnear (em.mantissa.cast_nonneg.trans hlow) hbinade) hhigh
      fun hlast => ?_
    obtain ⟨hnear, hhigh⟩ := hodd hlast
    rw [lowQuarters_of_odd e hlast]
    exact ⟨by linarith, hhigh⟩

/-- The results of rounding a number that is not negative. -/
inductive Rounded (q : ℚ) (sign : Sign) : UnpackedFloat → Prop
  | zero (h : Rounds q 0 (-1074)) : Rounded q sign (.zero sign)
  | finite {m : Nat} {e : Int} (hpos : 0 < m) (haligned : Aligned m e) (h : Rounds q m e) :
    Rounded q sign (.finite sign m e hpos)

/-- Rounding a significand with its residual bits yields the nearest number. -/
theorem roundWithAccuracy_rounded {m : Nat} {e : Int} {accuracy : Accuracy} {q : ℚ} (sign : Sign)
    (h : Residual (.ofMantissaAndAccuracy m accuracy) q)
    (hle : e ≤ Format.binary64.targetExponent (totalExponent m e)) :
    Rounded (q * 2 ^ e) sign (roundWithAccuracy .binary64 sign m e accuracy) := by
  obtain ⟨em, f, p, hfirst, hshifted, haligned, hvalue⟩ := h.shiftToTargetExponent hle
  obtain ⟨r, g, hsecond, hplace, hrounds⟩ := hshifted.shift_rounded haligned
  simp only [roundWithAccuracy, hfirst, hsecond]
  rw [hvalue]
  split
  · next hzero =>
    have hleast := hplace.full
    obtain rfl : r = 0 := hzero
    obtain rfl : g = -1074 := by omega
    exact .zero hrounds
  · exact .finite _ hplace hrounds

end DivisionScript.Number
