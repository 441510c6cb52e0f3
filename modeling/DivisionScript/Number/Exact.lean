/-!
# Number — Exact

The exact contents of a binary64 number: which whole number it is, when it is one, and how a
whole number becomes the nearest binary64 number. Everything here is integer arithmetic on the
significand and the exponent, so no conversion is ever rounded without saying so.
-/

namespace DivisionScript.Number

/-- The magnitude from which on whole numbers are no integers of the language: `2 ^ 63`. -/
def wholeLimit : Nat :=
  0x8000000000000000

/-- The whole number that `x` is exactly. `none` for a number with a fraction, an infinity and NaN;
both zeros are the whole number `0`. -/
def whole? (x : Float) : Option Int :=
  match x.toModel.unpack with
  | .zero _ => some 0
  | .finite sign m e _ =>
    if 0 ≤ e then
      some (sign.apply (m * Nat.pow 2 e.toNat : Nat))
    else if m % Nat.pow 2 (-e).toNat = 0 then
      some (sign.apply (m / Nat.pow 2 (-e).toNat : Nat))
    else
      none
  | .infinity _ => none
  | .notANumber => none

/-- The number nearest to a whole number, a tie going to the even significand. -/
def ofWhole (n : Int) : Float :=
  Float.ofInt n

/-- Whether the sign bit of `x` is set; NaN counts as unsigned. -/
def isNegative (x : Float) : Bool :=
  match x.toModel.unpack with
  | .zero .negative => true
  | .finite .negative .. => true
  | .infinity .negative => true
  | _ => false

end DivisionScript.Number
