import DivisionScript.Number.Exact
import DivisionScript.Text.Blank

/-!
# Number — Reading

The texts that denote numbers, and the number nearest to what each denotes. A sign may come first;
then `inf`, `infinity` or `nan` in any case, or ASCII digits with an optional point, at least one
digit beside it, and an optional power of ten.
-/

namespace DivisionScript.Number

/-- The number that a run of decimal digits denotes. -/
def natOfDigits (digits : List Char) : Nat :=
  digits.foldl (fun n c => 10 * n + (c.toNat - '0'.toNat)) 0

/-- The number nearest to `m · 10 ^ e`, a tie going to the even significand. -/
def ofDecimal (m : Nat) (e : Int) : Float :=
  if 0 ≤ e then Float.ofScientific m false e.toNat else Float.ofScientific m true (-e).toNat

/-- The power of ten after the digits: nothing at all, or `e` or `E`, an optional sign and at least
one digit. -/
def exponent? : List Char → Option Int
  | [] => some 0
  | c :: rest =>
    if c = 'e' ∨ c = 'E' then
      let (negative, digits) := match rest with
        | '-' :: digits => (true, digits)
        | '+' :: digits => (false, digits)
        | digits => (false, digits)
      if digits ≠ [] ∧ digits.all Char.isDigit then
        some (if negative then -(natOfDigits digits : Int) else natOfDigits digits)
      else
        none
    else
      none

/-- An unsigned number: digits, an optional point with digits after it, an optional exponent. -/
def unsigned? (cs : List Char) : Option Float :=
  let before := cs.takeWhile Char.isDigit
  let (after, rest) := match cs.dropWhile Char.isDigit with
    | '.' :: rest => (rest.takeWhile Char.isDigit, rest.dropWhile Char.isDigit)
    | rest => ([], rest)
  if before = [] ∧ after = [] then
    none
  else
    (exponent? rest).map fun e => ofDecimal (natOfDigits (before ++ after)) (e - after.length)

/-- An unsigned number or one of the names of the special values. -/
def magnitude? (cs : List Char) : Option Float :=
  let name := cs.map Char.toLower
  if name = ['i', 'n', 'f'] ∨ name = ['i', 'n', 'f', 'i', 'n', 'i', 't', 'y'] then
    some (1.0 / 0.0)
  else if name = ['n', 'a', 'n'] then
    some (0.0 / 0.0)
  else
    unsigned? cs

/-- The number that a text denotes, if it denotes one. -/
def ofChars? : List Char → Option Float
  | '-' :: cs => (magnitude? cs).map Neg.neg
  | '+' :: cs => magnitude? cs
  | cs => magnitude? cs

/-- The number that a string denotes, if it denotes one. -/
def ofString? (s : String) : Option Float :=
  ofChars? s.toList

end DivisionScript.Number
