import Mathlib
import DivisionScript.Number.Exact

/-!
# Number — Binary

What a binary64 number consists of. A finite number has a sign, a significand and an exponent, and
these determine it: the significand of a number other than zero has 53 digits, or fewer if the
exponent is the least one.
-/

namespace DivisionScript.Number

open Float.Model Float.Model.UnpackedFloat

/-- The forms in which a binary64 number has its significand and its exponent, zero included and
however great the exponent is. -/
structure Aligned (m : Nat) (e : Int) : Prop where
  lt : m < 2 ^ 53
  least : -1074 ≤ e
  full : 2 ^ 52 ≤ m ∨ e = -1074

/-- The forms in which a binary64 number other than zero has its significand and its exponent. -/
structure Canonical (m : Nat) (e : Int) : Prop extends Aligned m e where
  pos : 0 < m
  greatest : e ≤ 971

/-- What is added to the exponent of a whole significand before it is stored. -/
theorem exponentBias_add : ((Format.binary64.exponentBias : Nat) : Int) +
    (Format.binary64.mantissaBitsWithoutImplicit : Nat) = 1075 :=
  rfl

theorem toNat_one_append (v : BitVec 52) : (1#1 ++ v).toNat = 2 ^ 52 + v.toNat := by
  rw [BitVec.toNat_append, ← Nat.shiftLeft_add_eq_or_of_lt v.isLt]
  simp [Nat.shiftLeft_eq]

/-- A finite number other than zero has the canonical form. -/
theorem canonical_of_unpack {b : BitVec Format.binary64.numBits} {sign : Sign} {m : Nat} {e : Int}
    {h : 0 < m} (hunpack : UnpackedFloat.unpack Format.binary64 b = .finite sign m e h) :
    Canonical m e := by
  have hexponent : (unpackExponent b).toNat < 2048 := (unpackExponent b).isLt
  have hmantissa : (unpackMantissa b).toNat < 2 ^ 52 := (unpackMantissa b).isLt
  rw [UnpackedFloat.unpack] at hunpack
  split at hunpack
  · split at hunpack <;> cases hunpack
  · next hspecial =>
    have hfinite : (unpackExponent b).toNat < 2047 := by
      simp [BitVec.toNat_eq] at hspecial
      omega
    split at hunpack
    · next hzero =>
      split at hunpack
      · cases hunpack
      · have hzero : (unpackExponent b).toNat = 0 := by simp [hzero]
        cases hunpack
        rw [exponentBias_add]
        refine ⟨⟨?_, ?_, ?_⟩, ?_, ?_⟩ <;> omega
    · next hzero =>
      have hpos : (unpackExponent b).toNat ≠ 0 := by simpa [BitVec.toNat_eq] using hzero
      have hone := toNat_one_append (unpackMantissa b)
      cases hunpack
      rw [exponentBias_add]
      refine ⟨⟨?_, ?_, ?_⟩, ?_, ?_⟩ <;> omega

/-- A finite number as its sign, its significand and its exponent; zero has the significand zero and
the least exponent. -/
inductive Consists (x : Float) : Sign → Nat → Int → Prop
  | zero {sign : Sign} (h : x.toModel.unpack = .zero sign) : Consists x sign 0 (-1074)
  | finite {sign : Sign} {m : Nat} {e : Int} (hpos : 0 < m)
      (h : x.toModel.unpack = .finite sign m e hpos) : Consists x sign m e

variable {x y : Float} {sign : Sign} {m : Nat} {e : Int}

theorem consists_of_isFinite (h : x.isFinite) : ∃ sign m e, Consists x sign m e := by
  have h : x.toModel.unpack.isFinite := h
  cases hunpack : x.toModel.unpack with
  | zero sign => exact ⟨sign, 0, _, .zero hunpack⟩
  | finite sign m e hpos => exact ⟨sign, m, e, .finite hpos hunpack⟩
  | infinity sign => simp [hunpack, UnpackedFloat.isFinite] at h
  | notANumber => simp [hunpack, UnpackedFloat.isFinite] at h

theorem Consists.aligned (h : Consists x sign m e) : Aligned m e := by
  cases h with
  | zero => exact ⟨by norm_num, le_rfl, .inr rfl⟩
  | finite hpos h => exact (canonical_of_unpack h).toAligned

theorem Consists.greatest (h : Consists x sign m e) : e ≤ 971 := by
  cases h with
  | zero => norm_num
  | finite hpos h => exact (canonical_of_unpack h).greatest

theorem eq_of_unpack_eq (h : x.toModel.unpack = y.toModel.unpack) : x = y := by
  have hbits := (unpack_inj_of_valid x.toModel.valid y.toModel.valid).mp h
  exact Float.toBits_inj.mp (UInt64.toBitVec_inj.mp hbits)

/-- Sign, significand and exponent determine the number. -/
theorem Consists.ext (hx : Consists x sign m e) (hy : Consists y sign m e) : x = y := by
  refine eq_of_unpack_eq ?_
  cases hx with
  | zero hx =>
    cases hy with
    | zero hy => rw [hx, hy]
    | finite hpos _ => exact absurd hpos (lt_irrefl 0)
  | finite hpos hx =>
    cases hy with
    | zero _ => exact absurd hpos (lt_irrefl 0)
    | finite _ hy => rw [hx, hy]

theorem Consists.isNegative_iff (h : Consists x sign m e) :
    isNegative x = true ↔ sign = .negative := by
  rw [isNegative]
  cases h with
  | zero h | finite _ h => rw [h]; cases sign <;> simp

end DivisionScript.Number
