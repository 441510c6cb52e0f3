import DivisionScript.Proofs.Number.Shortest

/-!
# Number — Value

The exact value of a binary64 number. Comparisons of numbers compare their values, and a number is a
whole number if its value is one.
-/

namespace DivisionScript.Number

open Float.Model (UnpackedFloat)
open Float.Model.UnpackedFloat

/-- The value of a finite number. Infinities and NaN have none and are given zero. -/
def value (x : Float) : ℚ :=
  match x.toModel.unpack with
  | .finite sign m e _ => (sign.apply m : Int) * 2 ^ e
  | _ => 0

variable {x y : Float} {sign : Sign} {m n : Nat} {e f : Int}

theorem apply_zero (sign : Sign) : sign.apply 0 = 0 := by
  cases sign <;> rfl

theorem apply_mul (sign : Sign) (a b : Int) : sign.apply (a * b) = sign.apply a * b := by
  cases sign with
  | positive => rfl
  | negative => exact Int.neg_mul_eq_neg_mul a b

theorem apply_dvd {sign : Sign} {a b : Int} : b ∣ sign.apply a ↔ b ∣ a := by
  cases sign with
  | positive => rfl
  | negative => exact Int.dvd_neg

theorem Consists.value_eq (h : Consists x sign m e) : value x = (sign.apply m : Int) * 2 ^ e := by
  cases h with
  | zero h => rw [value, h]; simp [apply_zero]
  | finite hpos h => rw [value, h]

theorem Consists.isFinite (h : Consists x sign m e) : x.isFinite := by
  have hmodel : x.isFinite = x.toModel.unpack.isFinite := rfl
  rw [hmodel]
  cases h with
  | zero h => rw [h]; rfl
  | finite _ h => rw [h]; rfl

/-! ## Order -/

theorem lt_parts (hm : Aligned m e) (hn : Aligned n f) (hpos : 0 < m) (hpos' : 0 < n)
    (hlt : (m * 2 ^ e : ℚ) < n * 2 ^ f) : e < f ∨ e = f ∧ m < n := by
  rcases (Rounds.self hpos).mono (Rounds.self hpos') hlt.le hm hn with hexponent | ⟨rfl, hle⟩
  · exact .inl hexponent
  · have : (m : ℚ) < n := (mul_lt_mul_iff_of_pos_right (by positivity)).mp hlt
    exact .inr ⟨rfl, by exact_mod_cast this⟩

/-- Exponents decide about the order of numbers, and significands if the exponents are equal. -/
theorem compare_parts (hm : Aligned m e) (hn : Aligned n f) (hpos : 0 < m) (hpos' : 0 < n) :
    (compare e f).then (compare m n) = compare (m * 2 ^ e : ℚ) (n * 2 ^ f) := by
  rcases lt_trichotomy (m * 2 ^ e : ℚ) (n * 2 ^ f) with hlt | heq | hgt
  · rw [compare_lt_iff_lt.mpr hlt]
    rcases lt_parts hm hn hpos hpos' hlt with hexponent | ⟨rfl, hdigits⟩
    · rw [compare_lt_iff_lt.mpr hexponent]
      rfl
    · rw [compare_eq_iff_eq.mpr rfl, compare_lt_iff_lt.mpr hdigits]
      rfl
  · have hself := Rounds.self (e := e) hpos
    rw [heq] at hself
    obtain ⟨rfl, rfl⟩ := hself.unique (Rounds.self hpos') hm hn
    rw [compare_eq_iff_eq.mpr heq, compare_eq_iff_eq.mpr rfl, compare_eq_iff_eq.mpr rfl]
    rfl
  · rw [compare_gt_iff_gt.mpr hgt]
    rcases lt_parts hn hm hpos' hpos hgt with hexponent | ⟨rfl, hdigits⟩
    · rw [compare_gt_iff_gt.mpr hexponent]
      rfl
    · rw [compare_eq_iff_eq.mpr rfl, compare_gt_iff_gt.mpr hdigits]
      rfl

theorem compare_neg (p q : ℚ) : compare (-p) (-q) = (compare p q).swap := by
  rcases lt_trichotomy p q with hlt | rfl | hgt
  · rw [compare_lt_iff_lt.mpr hlt, compare_gt_iff_gt.mpr (neg_lt_neg hlt)]
    rfl
  · rw [compare_eq_iff_eq.mpr rfl, compare_eq_iff_eq.mpr rfl]
    rfl
  · rw [compare_gt_iff_gt.mpr hgt, compare_lt_iff_lt.mpr (neg_lt_neg hgt)]
    rfl

theorem magnitude_pos (hpos : 0 < m) (e : Int) : (0 : ℚ) < m * 2 ^ e := by
  positivity

/-- Comparing finite numbers compares their values. -/
theorem compare_eq (hx : x.isFinite) (hy : y.isFinite) :
    x.toModel.unpack.compare y.toModel.unpack = some (compare (value x) (value y)) := by
  obtain ⟨sign, m, e, hx⟩ := consists_of_isFinite hx
  obtain ⟨sign', n, f, hy⟩ := consists_of_isFinite hy
  have hm := hx.aligned
  have hn := hy.aligned
  rw [hx.value_eq, hy.value_eq]
  cases hx with
  | zero hx =>
    cases hy with
    | zero hy =>
      rw [hx, hy]
      cases sign <;> cases sign' <;> simp [UnpackedFloat.compare, Sign.apply]
    | finite hpos hy =>
      have hmagnitude := magnitude_pos hpos f
      rw [hx, hy]
      cases sign <;> cases sign' <;>
        simp [UnpackedFloat.compare, Sign.apply, compare_gt_iff_gt.mpr, compare_lt_iff_lt.mpr,
          hmagnitude]
  | finite hpos hx =>
    have hmagnitude := magnitude_pos hpos e
    cases hy with
    | zero hy =>
      rw [hx, hy]
      cases sign <;> cases sign' <;>
        simp [UnpackedFloat.compare, Sign.apply, compare_gt_iff_gt.mpr, compare_lt_iff_lt.mpr,
          hmagnitude]
    | finite hpos' hy =>
      have hmagnitude' := magnitude_pos hpos' f
      have hparts := compare_parts hm hn hpos hpos'
      rw [hx, hy]
      cases sign <;> cases sign' <;>
        simp only [UnpackedFloat.compare, Sign.apply, hparts, Int.cast_neg, Int.cast_natCast,
          neg_mul, compare_neg]
      · rw [compare_lt_iff_lt.mpr ((neg_lt_zero.mpr hmagnitude).trans hmagnitude')]
      · rw [compare_gt_iff_gt.mpr ((neg_lt_zero.mpr hmagnitude').trans hmagnitude)]

theorem le_iff (hx : x.isFinite) (hy : y.isFinite) : x ≤ y ↔ value x ≤ value y := by
  have hle : x ≤ y ↔ (x.toModel.unpack.compare y.toModel.unpack).any (·.isLE) = true := by
    exact decide_eq_true_iff
  rw [hle, compare_eq hx hy, Option.any_some, Ordering.isLE_iff_ne_gt]
  exact compare_le_iff_le

theorem beq_iff (hx : x.isFinite) (hy : y.isFinite) : x == y ↔ value x = value y := by
  have hbeq : (x == y) = (x.toModel.unpack.compare y.toModel.unpack == some .eq) := rfl
  rw [hbeq, compare_eq hx hy]
  simp

/-! ## Whole numbers -/

/-- A finite number is the whole number that its value is. -/
theorem whole?_of_finite {k : Int} {hpos : 0 < m} (hx : x.toModel.unpack = .finite sign m e hpos) :
    whole? x = some k ↔ ((sign.apply m : Int) : ℚ) * 2 ^ e = k := by
  rw [whole?, hx]
  dsimp only
  split
  · next hnonneg =>
    obtain ⟨j, rfl⟩ := Int.eq_ofNat_of_zero_le hnonneg
    rw [Option.some_inj, Nat.pow_eq, Nat.cast_mul, apply_mul, Int.toNat_natCast, zpow_natCast]
    push_cast
    exact_mod_cast Iff.rfl
  · next hneg =>
    obtain ⟨j, rfl⟩ : ∃ j : Nat, e = -j := ⟨(-e).toNat, by omega⟩
    have hunit : (2 ^ j : ℚ) ≠ 0 := by positivity
    have hscaled : ((sign.apply m : Int) : ℚ) * 2 ^ (-j : Int) = k ↔ sign.apply m = k * 2 ^ j := by
      rw [zpow_neg, zpow_natCast, mul_inv_eq_iff_eq_mul₀ hunit]
      exact_mod_cast Iff.rfl
    rw [hscaled, neg_neg, Int.toNat_natCast, Nat.pow_eq]
    split
    · next hdvd =>
      obtain ⟨d, rfl⟩ := Nat.dvd_of_mod_eq_zero hdvd
      rw [Option.some_inj, Nat.mul_div_cancel_left _ (by positivity), mul_comm, Nat.cast_mul,
        apply_mul]
      push_cast
      exact (mul_left_inj' (by positivity)).symm
    · next hne =>
      refine iff_of_false (by simp) fun hk => hne ?_
      have : ((2 ^ j : Nat) : Int) ∣ sign.apply m := ⟨k, by rw [hk]; push_cast; ring⟩
      exact Nat.mod_eq_zero_of_dvd (Int.natCast_dvd_natCast.mp (apply_dvd.mp this))

/-- The numbers that are whole numbers are the finite ones with whole values. -/
theorem whole?_eq_some_iff {k : Int} : whole? x = some k ↔ x.isFinite ∧ value x = k := by
  by_cases hfinite : x.isFinite
  · obtain ⟨sign, m, e, hx⟩ := consists_of_isFinite hfinite
    rw [hx.value_eq]
    cases hx with
    | zero hx =>
      rw [whole?, hx, Option.some_inj, Nat.cast_zero, apply_zero, Int.cast_zero, zero_mul]
      simp [hfinite, eq_comm]
    | finite hpos hx => simp [whole?_of_finite hx, hfinite]
  · refine iff_of_false (fun h => hfinite ?_) fun h => hfinite h.1
    have hmodel : x.isFinite = x.toModel.unpack.isFinite := rfl
    rw [hmodel]
    rw [whole?] at h
    cases hunpack : x.toModel.unpack <;> simp [hunpack, UnpackedFloat.isFinite] at h ⊢

end DivisionScript.Number
