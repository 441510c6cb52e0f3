import DivisionScript.Proofs.Number.Rounding

/-!
# Number — Packing

Every significand and exponent in canonical form are those of a binary64 number: the bits that an
arithmetic operation stores are read back as they were. So the result of an operation consists of
what rounding yields.
-/

namespace DivisionScript.Number

open Float.Model (Format UnpackedFloat)
open Float.Model.UnpackedFloat

theorem unpackSign_packComponents (spec : Format) (sign : Sign)
    (exponent : BitVec spec.exponentBits) (mantissa : BitVec spec.mantissaBitsWithoutImplicit) :
    unpackSign (packComponents spec sign exponent mantissa) = sign.toBitVec := by
  ext i hi
  obtain rfl : i = 0 := by omega
  simp [unpackSign, packComponents, BitVec.getLsbD_append, BitVec.getElem_append]

theorem ofBitVec_toBitVec (sign : Sign) : Sign.ofBitVec sign.toBitVec = sign := by
  cases sign <;> rfl

theorem unpack_packedZero (sign : Sign) :
    unpack .binary64 (packedZero .binary64 sign) = .zero sign := by
  rw [packedZero, unpack]
  simp only [unpackMantissa_packComponents, unpackExponent_packComponents,
    unpackSign_packComponents, ofBitVec_toBitVec]
  rfl

theorem finite_congr {sign : Sign} {m n : Nat} {e f : Int} {hm : 0 < m} {hn : 0 < n} (h : m = n)
    (h' : e = f) : UnpackedFloat.finite sign m e hm = .finite sign n f hn := by
  subst h h'
  rfl

/-- What is read back from packed parts with an exponent of neither end. -/
theorem unpack_stored {b : Nat} (sign : Sign) (hpos : 0 < b) (hlt : b < 2047) (f : BitVec 52) :
    unpack .binary64 (packComponents .binary64 sign (BitVec.ofNat 11 b) f) =
      .finite sign (2 ^ 52 + f.toNat) (b - 1075) (by positivity) := by
  have hexponent : (BitVec.ofNat 11 b).toNat = b := by
    rw [BitVec.toNat_ofNat]
    omega
  have hspecial : BitVec.ofNat 11 b ≠ -1#11 := by
    simp [BitVec.toNat_eq]
    omega
  have hzero : BitVec.ofNat 11 b ≠ 0#11 := by
    simp [BitVec.toNat_eq]
    omega
  rw [unpack]
  simp only [unpackMantissa_packComponents, unpackExponent_packComponents,
    unpackSign_packComponents, ofBitVec_toBitVec, if_neg hspecial, if_neg hzero]
  refine finite_congr (toNat_one_append f) ?_
  rw [hexponent, exponentBias_add]

/-- What is read back from packed parts with the least exponent. -/
theorem unpack_stored_least (sign : Sign) {f : BitVec 52} (hpos : 0 < f.toNat) :
    unpack .binary64 (packComponents .binary64 sign 0#11 f) =
      .finite sign f.toNat (-1074) hpos := by
  have hspecial : 0#11 ≠ -1#11 := by decide
  have hne : f ≠ 0#52 := by
    rintro rfl
    exact absurd hpos (by decide)
  rw [unpack]
  simp only [unpackMantissa_packComponents, unpackExponent_packComponents,
    unpackSign_packComponents, ofBitVec_toBitVec, if_neg hspecial, dif_neg hne, if_true]
  exact finite_congr rfl rfl

/-- A number in canonical form is read back from its bits. -/
theorem unpack_pack {m : Nat} {e : Int} (sign : Sign) (h : Canonical m e) :
    unpack .binary64 (pack .binary64 (.finite sign m e h.pos)) = .finite sign m e h.pos := by
  have hpos := h.pos
  have hlt := h.lt
  have hleast := h.least
  have hgreatest := h.greatest
  have hfull := h.full
  have hlog : m.log2 + 1 = Format.binary64.mantissaBits ↔ 2 ^ 52 ≤ m := by
    have hlt : m.log2 < 53 := (Nat.log2_lt hpos.ne').mpr hlt
    have hle : 52 ≤ m.log2 ↔ 2 ^ 52 ≤ m := Nat.le_log2 hpos.ne'
    have hbits : Format.binary64.mantissaBits = 53 := rfl
    omega
  obtain ⟨b, hb⟩ : ∃ b : Nat, e = b - 1075 := ⟨(e + 1075).toNat, by omega⟩
  have hbiased : (e + Format.binary64.exponentBias +
      Format.binary64.mantissaBitsWithoutImplicit).toNat = b := by
    rw [add_assoc, exponentBias_add]
    omega
  have hsmall : ¬ 2 ^ 11 ≤ b + 1 := by omega
  have hstored := BitVec.toNat_ofNat m 52
  rw [pack]
  simp only [hbiased, if_neg hsmall, hlog]
  split
  · next hle =>
    rw [unpack_stored sign (by omega) (by omega)]
    exact finite_congr (by omega) hb.symm
  · next hgt =>
    rw [unpack_stored_least sign (by omega)]
    exact finite_congr (by omega) (by omega)

variable {x y : Float} {q : ℚ} {sign : Sign} {m : Nat} {e : Int}

theorem consists_zero (sign : Sign) : Consists (.ofModel (.pack (.zero sign))) sign 0 (-1074) :=
  .zero (unpack_packedZero sign)

theorem consists_finite (sign : Sign) (h : Canonical m e) :
    Consists (.ofModel (.pack (.finite sign m e h.pos))) sign m e :=
  .finite h.pos (unpack_pack sign h)

/-- An operation that rounds to a number of the format stores that number. -/
theorem Rounded.consists {u : UnpackedFloat} (h : Rounded q sign u) (haligned : Aligned m e)
    (hrounds : Rounds q m e) (hle : e ≤ 971) : Consists (.ofModel (.pack u)) sign m e := by
  cases h with
  | zero h =>
    obtain ⟨rfl, rfl⟩ := hrounds.unique h haligned ⟨by norm_num, le_rfl, .inr rfl⟩
    exact consists_zero sign
  | finite hpos hplace h =>
    obtain ⟨rfl, rfl⟩ := hrounds.unique h haligned hplace
    exact consists_finite sign ⟨haligned, hpos, hle⟩

theorem Consists.neg (h : Consists x sign m e) : Consists (-x) (-sign) m e := by
  cases h with
  | zero h =>
    have hneg : -x = .ofModel (.pack (.zero (-sign))) :=
      congrArg (fun u : UnpackedFloat => Float.ofModel (.pack u.neg)) h
    rw [hneg]
    exact consists_zero (-sign)
  | finite hpos h =>
    have hneg : -x = .ofModel (.pack (.finite (-sign) m e hpos)) :=
      congrArg (fun u : UnpackedFloat => Float.ofModel (.pack u.neg)) h
    rw [hneg]
    exact consists_finite (-sign) (canonical_of_unpack h)

end DivisionScript.Number
