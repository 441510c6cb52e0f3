import DivisionScript.Proofs.Number.Nearest
import DivisionScript.Proofs.Number.Numeral
import DivisionScript.Proofs.Token.Longest

/-!
# Number — Read back

Every text that the language writes for a number is read back as that number. The digits round to
the number that they were written for, and reading finds the number to which they round. Only the
sign of zero may be lost.
-/

namespace DivisionScript.Number

open Float.Model.UnpackedFloat

variable {x y : Float} {sign : Sign} {m : Nat} {e : Int} {cs body : List Char}

/-- The reader's value of digits. -/
theorem natOfDigits_eq (digits : List Char) : natOfDigits digits = Nat.ofDigitChars 10 digits 0 :=
  Nat.ofDigitChars_eq_foldl.symm

/-- A numeral is read as a decimal with its value. -/
theorem Numeral.read (h : Numeral body) : ∃ digits power,
    unsigned? body = some (ofDecimal digits power) ∧ numeralValue body = digits * 10 ^ power := by
  cases h with
  | whole hne hdigits =>
    refine ⟨_, _, unsigned?_integer hne hdigits, ?_⟩
    rw [numeralValue_of_digits hdigits, natOfDigits_eq, zpow_zero, mul_one]
  | fraction hne hbefore hafter =>
    refine ⟨_, _, unsigned?_fraction hne hbefore hafter, ?_⟩
    rw [numeralValue_of_point hbefore hafter, natOfDigits_eq, div_pow_eq]

/-- A numeral starts with a digit. -/
theorem Numeral.head (h : Numeral body) : ∃ c rest, body = c :: rest ∧ c.isDigit := by
  cases h with
  | whole hne hdigits =>
    obtain ⟨c, rest, rfl⟩ := List.exists_cons_of_ne_nil hne
    exact ⟨c, rest, rfl, hdigits c List.mem_cons_self⟩
  | fraction hne hbefore _ =>
    obtain ⟨c, rest, rfl⟩ := List.exists_cons_of_ne_nil hne
    exact ⟨c, _, rfl, hbefore c List.mem_cons_self⟩

/-- A text of a finite number: a numeral whose value rounds to the number, behind a minus sign if
the number is negative. The sign of zero may be missing. -/
inductive Renders (x : Float) : List Char → Prop
  | negative {m : Nat} {e : Int} {body : List Char} (hx : Consists x .negative m e)
    (hbody : Numeral body) (h : Rounds (numeralValue body) m e) : Renders x ('-' :: body)
  | bare {sign : Sign} {m : Nat} {e : Int} {body : List Char} (hx : Consists x sign m e)
    (hsign : sign = .positive ∨ m = 0) (hbody : Numeral body)
    (h : Rounds (numeralValue body) m e) : Renders x body

/-- A number that equals another one, or both are NaN. The two zeros are equal. -/
def Same (x y : Float) : Prop :=
  x == y ∨ x.isNaN ∧ y.isNaN

theorem same_of_value (hx : x.isFinite) (hy : y.isFinite) (h : value x = value y) : Same x y :=
  .inl ((beq_iff hx hy).mpr h)

/-- A text of a finite number is read back as that number. -/
theorem Renders.read (h : Renders x cs) : ∃ y, ofChars? cs = some y ∧ Same x y := by
  cases h with
  | negative hx hbody h =>
    obtain ⟨digits, power, hread, hvalue⟩ := hbody.read
    obtain ⟨c, rest, rfl, hc⟩ := hbody.head
    rw [hvalue] at h
    have hdecimal := (ofDecimal_consists h hx.aligned hx.greatest).neg
    refine ⟨-ofDecimal digits power, ?_, ?_⟩
    · rw [ofChars?, magnitude?_digit hc, hread, Option.map_some]
    · rw [hdecimal.ext hx]
      exact same_of_value hx.isFinite hx.isFinite rfl
  | bare hx hsign hbody h =>
    obtain ⟨digits, power, hread, hvalue⟩ := hbody.read
    obtain ⟨c, rest, rfl, hc⟩ := hbody.head
    rw [hvalue] at h
    have hdecimal := ofDecimal_consists h hx.aligned hx.greatest
    refine ⟨ofDecimal digits power, by rw [ofChars?_digit hc, hread], ?_⟩
    refine same_of_value hx.isFinite hdecimal.isFinite ?_
    rw [hx.value_eq, hdecimal.value_eq]
    rcases hsign with rfl | rfl
    · rfl
    · simp [apply_zero]

/-! ## The texts of finite numbers -/

theorem renders_signed (hx : Consists x sign m e) (hbody : Numeral body)
    (h : Rounds (numeralValue body) m e) : Renders x (signText x ++ body) := by
  rw [signText]
  split
  · next hnegative =>
    obtain rfl := hx.isNegative_iff.mp hnegative
    exact .negative hx hbody h
  · next hne =>
    refine .bare hx (.inl ?_) hbody h
    cases sign with
    | positive => rfl
    | negative => exact absurd (hx.isNegative_iff.mpr rfl) hne

theorem toList_toString (n : Int) :
    (toString n).toList = (if n < 0 then ['-'] else []) ++ Nat.toDigits 10 n.natAbs := by
  cases n with
  | ofNat k =>
    have htext : toString (Int.ofNat k) = toString k := rfl
    rw [htext]
    simp
  | negSucc k =>
    have htext : toString (Int.negSucc k) = "-" ++ toString (k + 1) := rfl
    rw [htext]
    simp

/-- A whole number without the sign of zero. -/
theorem renders_whole {n : Int} (hx : Consists x sign m e) (hwhole : whole? x = some n)
    (hbody : Numeral body) (hvalue : numeralValue body = n.natAbs) :
    Renders x ((if n < 0 then ['-'] else []) ++ body) := by
  have hrounds := rounds_of_whole hx hwhole
  rw [← hvalue] at hrounds
  have hn := (whole?_eq_some_iff.mp hwhole).2
  rw [hx.value_eq] at hn
  have hmagnitude : (0 : ℚ) ≤ m * 2 ^ e := by positivity
  split
  · next hneg =>
    cases sign with
    | negative => exact .negative hx hbody hrounds
    | positive =>
      have : (n : ℚ) < 0 := by exact_mod_cast hneg
      rw [← hn] at this
      exact absurd hmagnitude this.not_ge
  · next hnonneg =>
    refine .bare hx ?_ hbody hrounds
    cases sign with
    | positive => exact .inl rfl
    | negative =>
      have : (0 : ℚ) ≤ n := by exact_mod_cast not_lt.mp hnonneg
      rw [← hn, Sign.apply, Int.cast_neg, neg_mul, neg_nonneg] at this
      have hzero : (m * 2 ^ e : ℚ) = 0 := le_antisymm this hmagnitude
      exact .inr (by exact_mod_cast (mul_eq_zero.mp hzero).resolve_right (by positivity))

theorem renders_plain (hx : x.isFinite)
    (hwhole : ∀ n, whole? x = some n → ¬ n.natAbs < wholeLimit) :
    Renders x (plain.text x).toList := by
  obtain ⟨sign, m, e, hx⟩ := consists_of_isFinite hx
  cases hx with
  | zero hzero => exact absurd (by decide) (hwhole 0 (by rw [whole?, hzero]))
  | finite hpos hfinite =>
    rw [plainText_of_finite hfinite]
    obtain ⟨hbody, h⟩ := plainText_rounds (canonical_of_unpack hfinite)
    exact renders_signed (.finite hpos hfinite) hbody h

/-- A text that gives small whole numbers by their digits with something behind them, and all other
numbers as in messages. -/
theorem renders_digits (tail : String) (hx : x.isFinite)
    (htail : ∀ n : Nat, Numeral (Nat.toDigits 10 n ++ tail.toList) ∧
      numeralValue (Nat.toDigits 10 n ++ tail.toList) = n) :
    Renders x (match whole? x with
      | some n => if n.natAbs < wholeLimit then toString n ++ tail else plain.text x
      | none => plain.text x).toList := by
  cases hwhole : whole? x with
  | none => exact renders_plain hx (by simp [hwhole])
  | some n =>
    dsimp only
    split
    · obtain ⟨sign, m, e, hx⟩ := consists_of_isFinite hx
      obtain ⟨hbody, hvalue⟩ := htail n.natAbs
      rw [String.toList_append, toList_toString, List.append_assoc]
      exact renders_whole hx hwhole hbody hvalue
    · next hlarge => exact renders_plain hx (by simpa [hwhole] using hlarge)

theorem renders_valueText (hx : x.isFinite) : Renders x (valueText x).toList := by
  have h := renders_digits "" hx fun n => by simpa using digits_text n
  simp only [String.append_empty] at h
  exact h

theorem renders_literalText (hx : x.isFinite) : Renders x (literalText x).toList :=
  renders_digits ".0" hx whole_text

theorem renders_outlineText (hx : x.isFinite) : Renders x (outlineText x).toList := by
  obtain ⟨sign, m, e, hx⟩ := consists_of_isFinite hx
  obtain ⟨body, htext, hbody, h⟩ := outlineText_eq hx
  rw [htext]
  exact renders_signed hx hbody h

/-! ## All texts -/

/-- A text without white space that is read as a number. -/
structure ReadsBack (x : Float) (text : String) : Prop where
  unblank : ∀ c ∈ text.toList, Text.isBlank c = false
  read : ∃ y, ofString? text = some y ∧ Same x y

theorem isBlank_of_isDigit {c : Char} (h : c.isDigit) : Text.isBlank c = false := by
  have hcode := isDigit_iff.mp h
  rw [← Bool.not_eq_true]
  simp only [Text.isBlank, Bool.or_eq_true, Bool.and_eq_true, decide_eq_true_eq, beq_iff_eq]
  omega

theorem Numeral.unblank (h : Numeral body) : ∀ c ∈ body, Text.isBlank c = false := by
  intro c hc
  rcases h.chars c hc with hdigit | rfl
  · exact isBlank_of_isDigit hdigit
  · decide

theorem Renders.unblank (h : Renders x cs) : ∀ c ∈ cs, Text.isBlank c = false := by
  cases h with
  | negative _ hbody => exact List.forall_mem_cons.mpr ⟨by decide, hbody.unblank⟩
  | bare _ _ hbody => exact hbody.unblank

theorem Renders.readsBack {text : String} (h : Renders x text.toList) : ReadsBack x text :=
  ⟨h.unblank, h.read⟩

theorem whole?_eq_none (hx : ¬ x.isFinite) : whole? x = none := by
  cases hwhole : whole? x with
  | none => rfl
  | some n => exact absurd (whole?_eq_some_iff.mp hwhole).1 hx

/-- The numbers without a value. -/
theorem special_eq (hx : ¬ x.isFinite) :
    x = 0.0 / 0.0 ∨ x = 1.0 / 0.0 ∨ x = -(1.0 / 0.0) := by
  have hmodel : x.isFinite = x.toModel.unpack.isFinite := rfl
  rw [hmodel] at hx
  cases hunpack : x.toModel.unpack with
  | notANumber => exact .inl (eq_of_unpack_eq (hunpack.trans (by rfl)))
  | infinity sign =>
    cases sign with
    | positive => exact .inr (.inl (eq_of_unpack_eq (hunpack.trans (by rfl))))
    | negative => exact .inr (.inr (eq_of_unpack_eq (hunpack.trans (by rfl))))
  | zero => exact absurd (by rw [hunpack]; rfl) hx
  | finite => exact absurd (by rw [hunpack]; rfl) hx

/-- The names of the infinities and of NaN are read as these. -/
theorem special_readsBack (hx : ¬ x.isFinite) : ReadsBack x (plain.text x) := by
  rcases special_eq hx with rfl | rfl | rfl
  · have htext : plain.text (0.0 / 0.0) = "NaN" := by decide +kernel
    rw [htext]
    exact ⟨by simp; decide, 0.0 / 0.0, by decide +kernel, .inr (by decide +kernel)⟩
  · have htext : plain.text (1.0 / 0.0) = "inf" := by decide +kernel
    rw [htext]
    exact ⟨by simp; decide, 1.0 / 0.0, by decide +kernel, .inl (by decide +kernel)⟩
  · have htext : plain.text (-(1.0 / 0.0)) = "-inf" := by decide +kernel
    rw [htext]
    exact ⟨by simp; decide, -(1.0 / 0.0), by decide +kernel, .inl (by decide +kernel)⟩

/-- A printed number is read back. -/
theorem valueText_readsBack (x : Float) : ReadsBack x (valueText x) := by
  by_cases hx : x.isFinite
  · exact (renders_valueText hx).readsBack
  · rw [valueText, whole?_eq_none hx]
    exact special_readsBack hx

/-- The literal of a number token is read back. -/
theorem literalText_readsBack (x : Float) : ReadsBack x (literalText x) := by
  by_cases hx : x.isFinite
  · exact (renders_literalText hx).readsBack
  · rw [literalText, whole?_eq_none hx]
    exact special_readsBack hx

/-- A number in an outline is read back. -/
theorem outlineText_readsBack (x : Float) : ReadsBack x (outlineText x) := by
  by_cases hx : x.isFinite
  · exact (renders_outlineText hx).readsBack
  · rw [outlineText, whole?_eq_none hx]
    exact special_readsBack hx

end DivisionScript.Number
