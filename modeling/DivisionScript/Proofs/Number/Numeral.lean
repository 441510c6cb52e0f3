import DivisionScript.Number.Layout
import DivisionScript.Proofs.Number.Value

/-!
# Number — Numeral

What the text of a number denotes. A finite number is written as digits with at most one point,
behind a minus sign if the number is negative. The value of these digits rounds to the number, so
that finite numbers with one text in outlines are equal.
-/

namespace DivisionScript.Number

/-- A text of digits, or of digits with a point behind at least one of them. -/
inductive Numeral : List Char → Prop
  | whole {digits : List Char} (hne : digits ≠ []) (h : ∀ c ∈ digits, c.isDigit) : Numeral digits
  | fraction {before after : List Char} (hne : before ≠ []) (hbefore : ∀ c ∈ before, c.isDigit)
    (hafter : ∀ c ∈ after, c.isDigit) : Numeral (before ++ '.' :: after)

theorem Numeral.ne_nil {cs : List Char} (h : Numeral cs) : cs ≠ [] := by
  cases h with
  | whole hne => exact hne
  | fraction => simp

theorem Numeral.chars {cs : List Char} (h : Numeral cs) : ∀ c ∈ cs, c.isDigit ∨ c = '.' := by
  cases h with
  | whole _ h => exact fun c hc => .inl (h c hc)
  | fraction _ hbefore hafter =>
    simp only [List.forall_mem_append, List.forall_mem_cons]
    exact ⟨fun c hc => .inl (hbefore c hc), .inr trivial, fun c hc => .inl (hafter c hc)⟩

/-- The value of a text of digits with at most one point. -/
def numeralValue (cs : List Char) : ℚ :=
  Nat.ofDigitChars 10 (cs.filter (· ≠ '.')) 0 / 10 ^ (cs.dropWhile (· ≠ '.')).tail.length

theorem ne_point_of_isDigit {c : Char} (h : c.isDigit) : c ≠ '.' := by
  rintro rfl
  exact absurd h (by decide)

theorem filter_of_digits {cs : List Char} (h : ∀ c ∈ cs, c.isDigit) :
    cs.filter (· ≠ '.') = cs :=
  List.filter_eq_self.mpr fun c hc => decide_eq_true (ne_point_of_isDigit (h c hc))

theorem dropWhile_of_digits {cs rest : List Char} (h : ∀ c ∈ cs, c.isDigit) :
    (cs ++ rest).dropWhile (· ≠ '.') = rest.dropWhile (· ≠ '.') :=
  List.dropWhile_append_of_pos fun c hc => decide_eq_true (ne_point_of_isDigit (h c hc))

/-- Digits without a point. -/
theorem numeralValue_of_digits {cs : List Char} (h : ∀ c ∈ cs, c.isDigit) :
    numeralValue cs = Nat.ofDigitChars 10 cs 0 := by
  have tail : cs.dropWhile (· ≠ '.') = [] := by
    rw [← List.append_nil cs, dropWhile_of_digits h, List.dropWhile_nil]
  rw [numeralValue, filter_of_digits h, tail]
  simp

/-- Digits around a point. -/
theorem numeralValue_of_point {before after : List Char} (hbefore : ∀ c ∈ before, c.isDigit)
    (hafter : ∀ c ∈ after, c.isDigit) :
    numeralValue (before ++ '.' :: after) =
      Nat.ofDigitChars 10 (before ++ after) 0 / 10 ^ after.length := by
  rw [numeralValue, dropWhile_of_digits hbefore, List.filter_append, filter_of_digits hbefore,
    List.filter_cons_of_neg (by simp), filter_of_digits hafter,
    List.dropWhile_cons_of_neg (by simp), List.tail_cons]

theorem isDigit_of_mem_zeros {n : Int} {c : Char} (h : c ∈ Layout.zeros n) : c.isDigit := by
  rw [List.eq_of_mem_replicate h]
  decide

theorem ofDigitChars_zeros_append (n : Int) (cs : List Char) :
    Nat.ofDigitChars 10 (Layout.zeros n ++ cs) 0 = Nat.ofDigitChars 10 cs 0 := by
  rw [Nat.ofDigitChars_append, Layout.zeros, Nat.ofDigitChars_replicate_zero, Nat.mul_zero]

theorem ofDigitChars_append_zeros (n : Int) (cs : List Char) :
    Nat.ofDigitChars 10 (cs ++ Layout.zeros n) 0 = 10 ^ n.toNat * Nat.ofDigitChars 10 cs 0 := by
  rw [Nat.ofDigitChars_append, Layout.zeros, Nat.ofDigitChars_replicate_zero]

theorem div_pow_eq (q : ℚ) (n : Nat) : q / 10 ^ n = q * 10 ^ (-(n : Int)) := by
  rw [zpow_neg, zpow_natCast, div_eq_mul_inv]

/-- A layout that writes a whole number without a mark shows the digits and where the point is. -/
theorem positionalText_value {layout : Layout} (hbare : layout.wholeMark = []) {digits : List Char}
    (hdigits : ∀ c ∈ digits, c.isDigit) (point : Int) :
    numeralValue (layout.positionalText digits point) =
      Nat.ofDigitChars 10 digits 0 * 10 ^ (point - digits.length) := by
  rw [Layout.positionalText]
  split
  · -- A zero, the point and the digits moved to their places.
    have htext : '0' :: '.' :: Layout.zeros (-point) ++ digits =
        Layout.zeros 1 ++ '.' :: (Layout.zeros (-point) ++ digits) := rfl
    have hplaces : (Layout.zeros (-point)).length = (-point).toNat := List.length_replicate
    rw [htext, numeralValue_of_point (fun c hc => isDigit_of_mem_zeros hc)
      (by grind [isDigit_of_mem_zeros]), ofDigitChars_zeros_append, ofDigitChars_zeros_append,
      div_pow_eq, List.length_append, hplaces]
    congr 2
    omega
  · split
    · -- All digits stand before the point.
      rw [hbare, List.append_nil, numeralValue_of_digits (by grind [isDigit_of_mem_zeros]),
        ofDigitChars_append_zeros, Nat.cast_mul, Nat.cast_pow, ← zpow_natCast, mul_comm]
      congr 2
      omega
    · -- The point stands between two digits.
      rw [numeralValue_of_point (fun c hc => hdigits c (List.mem_of_mem_take hc))
        (fun c hc => hdigits c (List.mem_of_mem_drop hc)), List.take_append_drop, div_pow_eq,
        List.length_drop]
      congr 2
      omega

theorem numeral_positionalText {layout : Layout} (hbare : layout.wholeMark = [])
    {digits : List Char} (hdigits : ∀ c ∈ digits, c.isDigit) (hne : digits ≠ []) (point : Int) :
    Numeral (layout.positionalText digits point) := by
  rw [Layout.positionalText]
  split
  · exact .fraction (List.cons_ne_nil '0' []) (fun c hc => isDigit_of_mem_zeros (n := 1) hc)
      (List.forall_mem_append.mpr ⟨fun c hc => isDigit_of_mem_zeros hc, hdigits⟩)
  · next hpoint =>
    split
    · rw [hbare, List.append_nil]
      exact .whole (by simp [hne])
        (List.forall_mem_append.mpr ⟨hdigits, fun c hc => isDigit_of_mem_zeros hc⟩)
    · refine .fraction ?_ (fun c hc => hdigits c (List.mem_of_mem_take hc))
        fun c hc => hdigits c (List.mem_of_mem_drop hc)
      rw [ne_eq, List.take_eq_nil_iff, not_or]
      exact ⟨by omega, hne⟩

theorem isDigit_of_mem_toDigits {n : Nat} {c : Char} (h : c ∈ Nat.toDigits 10 n) : c.isDigit :=
  Nat.isDigit_of_mem_toDigits (by decide) (by decide) h

/-- The plain text of a decimal is a numeral of its value. -/
theorem plain_decimalText (d : Decimal) :
    Numeral (plain.decimalText d) ∧ numeralValue (plain.decimalText d) = d.value := by
  have hdigits : ∀ c ∈ d.digitChars, c.isDigit := fun c hc => isDigit_of_mem_toDigits hc
  have htext : plain.decimalText d =
      plain.positionalText d.digitChars (d.exponent + d.digitChars.length - 1 + 1) := rfl
  rw [htext]
  refine ⟨numeral_positionalText rfl hdigits Nat.toDigits_ne_nil _, ?_⟩
  rw [positionalText_value rfl hdigits, Decimal.value, Decimal.digitChars,
    Nat.ofDigitChars_ten_toDigits]
  congr 2
  omega

/-- The digits of a whole number are a numeral of it. -/
theorem digits_text (n : Nat) :
    Numeral (Nat.toDigits 10 n) ∧ numeralValue (Nat.toDigits 10 n) = n := by
  have hdigits : ∀ c ∈ Nat.toDigits 10 n, c.isDigit := fun c hc => isDigit_of_mem_toDigits hc
  refine ⟨.whole Nat.toDigits_ne_nil hdigits, ?_⟩
  rw [numeralValue_of_digits hdigits, Nat.ofDigitChars_ten_toDigits]

/-- A whole number with `.0` behind it is a numeral of its value. -/
theorem whole_text (n : Nat) : Numeral (Nat.toDigits 10 n ++ ['.', '0']) ∧
    numeralValue (Nat.toDigits 10 n ++ ['.', '0']) = n := by
  have hdigits : ∀ c ∈ Nat.toDigits 10 n, c.isDigit := fun c hc => isDigit_of_mem_toDigits hc
  refine ⟨.fraction Nat.toDigits_ne_nil hdigits (by simp), ?_⟩
  have hzeros : ['0'] = Layout.zeros 1 := rfl
  rw [numeralValue_of_point hdigits (by simp), hzeros, ofDigitChars_append_zeros,
    Nat.ofDigitChars_ten_toDigits, Layout.zeros, List.length_replicate]
  simp

/-- The sign of a number in its text. -/
def signText (x : Float) : List Char :=
  if isNegative x then ['-'] else []

/-- The text of a whole number in an outline. -/
theorem outlineText_of_whole {x : Float} {n : Int} (h : whole? x = some n) :
    (outlineText x).toList = signText x ++ (Nat.toDigits 10 n.natAbs ++ ['.', '0']) := by
  rw [outlineText, h, signText]
  cases isNegative x <;> simp

/-- The text of a number with digits in messages. -/
theorem plainText_of_finite {x : Float} {sign : Float.Model.UnpackedFloat.Sign} {m : Nat}
    {e : Int} {h : 0 < m} (hx : x.toModel.unpack = .finite sign m e h) :
    (plain.text x).toList = signText x ++ plain.decimalText (.shortest .up m e) := by
  simp only [Layout.text, Layout.chars, hx, String.toList_ofList, signText]
  rfl

theorem plainText_rounds {m : Nat} {e : Int} (h : Canonical m e) :
    Numeral (plain.decimalText (.shortest .up m e)) ∧
      Rounds (numeralValue (plain.decimalText (.shortest .up m e))) m e := by
  obtain ⟨hnumeral, hvalue⟩ := plain_decimalText (.shortest .up m e)
  rw [hvalue]
  exact ⟨hnumeral, Decimal.shortest_rounds .up h⟩

/-- The magnitude of a whole number rounds to its parts. -/
theorem rounds_of_whole {x : Float} {sign : Float.Model.UnpackedFloat.Sign} {m : Nat} {e : Int}
    {n : Int} (hx : Consists x sign m e) (h : whole? x = some n) : Rounds n.natAbs m e := by
  have hvalue := (whole?_eq_some_iff.mp h).2
  rw [hx.value_eq] at hvalue
  have hmagnitude : (n.natAbs : ℚ) = m * 2 ^ e := by
    have hpos : (0 : ℚ) ≤ m * 2 ^ e := by positivity
    rw [Nat.cast_natAbs, Int.cast_abs, ← hvalue]
    cases sign <;> simp [Float.Model.UnpackedFloat.Sign.apply]
  rw [hmagnitude]
  cases hx with
  | zero => simp [Rounds, lowQuarters]
  | finite hpos => exact Rounds.self hpos

/-- The outline of a finite number is its sign and a numeral whose value rounds to it. -/
theorem outlineText_eq {x : Float} {sign : Float.Model.UnpackedFloat.Sign} {m : Nat} {e : Int}
    (h : Consists x sign m e) :
    ∃ body, (outlineText x).toList = signText x ++ body ∧ Numeral body ∧
      Rounds (numeralValue body) m e := by
  cases hwhole : whole? x with
  | some n =>
    obtain ⟨hnumeral, hvalue⟩ := whole_text n.natAbs
    refine ⟨_, outlineText_of_whole hwhole, hnumeral, ?_⟩
    rw [hvalue]
    exact rounds_of_whole h hwhole
  | none =>
    cases h with
    | zero hzero =>
      rw [whole?, hzero] at hwhole
      cases hwhole
    | finite hpos hfinite =>
      refine ⟨_, ?_, plainText_rounds (canonical_of_unpack hfinite)⟩
      rw [outlineText, hwhole]
      exact plainText_of_finite hfinite

/-- The text of a finite number in an outline is not empty, and no character in it but digits, the
point and the minus sign. -/
theorem outlineText_chars {x : Float} (h : x.isFinite) :
    (outlineText x).toList ≠ [] ∧
      ∀ c ∈ (outlineText x).toList, c.isDigit ∨ c = '.' ∨ c = '-' := by
  obtain ⟨sign, m, e, hparts⟩ := consists_of_isFinite h
  obtain ⟨body, htext, hbody, -⟩ := outlineText_eq hparts
  rw [htext]
  refine ⟨by simp [hbody.ne_nil], List.forall_mem_append.mpr ⟨fun c hc => ?_, fun c hc => ?_⟩⟩
  · rw [signText] at hc
    split at hc
    · exact .inr (.inr (List.mem_singleton.mp hc))
    · cases hc
  · exact (hbody.chars c hc).imp_right .inl

/-- A numeral starts with no sign. -/
theorem sign_append_inj {x y : Float} {body other : List Char} (hbody : Numeral body)
    (hother : Numeral other) (h : signText x ++ body = signText y ++ other) :
    isNegative x = isNegative y ∧ body = other := by
  have unsigned : ∀ {cs rest : List Char}, Numeral cs → cs ≠ '-' :: rest := by
    rintro _ rest hcs rfl
    exact absurd (hcs.chars '-' List.mem_cons_self) (by decide)
  simp only [signText] at h
  cases hx : isNegative x <;> cases hy : isNegative y <;> simp only [hx, hy] at h
  · exact ⟨rfl, h⟩
  · exact absurd h (unsigned hbody)
  · exact absurd h.symm (unsigned hother)
  · exact ⟨rfl, List.cons_inj_right _ |>.mp h⟩

/-- Finite numbers with one text in outlines are equal. -/
theorem outlineText_inj {x y : Float} (hx : x.isFinite) (hy : y.isFinite)
    (h : outlineText x = outlineText y) : x = y := by
  obtain ⟨sign, m, e, hxparts⟩ := consists_of_isFinite hx
  obtain ⟨sign', m', e', hyparts⟩ := consists_of_isFinite hy
  obtain ⟨body, hxtext, hxnumeral, hxvalue⟩ := outlineText_eq hxparts
  obtain ⟨body', hytext, hynumeral, hyvalue⟩ := outlineText_eq hyparts
  rw [h, hytext] at hxtext
  obtain ⟨hnegative, rfl⟩ := sign_append_inj hynumeral hxnumeral hxtext
  have hsign : sign = sign' := by
    have hiff := hxparts.isNegative_iff.symm.trans (hnegative ▸ hyparts.isNegative_iff)
    cases sign <;> cases sign' <;> simp at hiff ⊢
  subst hsign
  have hparts := hxvalue.unique hyvalue hxparts.aligned hyparts.aligned
  obtain ⟨rfl, rfl⟩ := hparts
  exact hxparts.ext hyparts

end DivisionScript.Number
