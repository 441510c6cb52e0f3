import DivisionScript.Number.Decimal

/-!
# Number — Layout

How a number is written once its digits are chosen. The choices that differ between the places
where the language writes numbers are the fields of one record; each place has its own value.
-/

namespace DivisionScript.Number

/-- The decisions of one number format. -/
structure Layout where
  /-- Which of two equally near shortest decimals is written. -/
  tie : Tie
  /-- Leading-digit exponents written without an exponent part; `none` means all of them. -/
  positional : Option (Int × Int)
  /-- What follows a whole number written without an exponent part. -/
  wholeMark : List Char
  /-- What stands before a non-negative exponent. -/
  plusMark : List Char

namespace Layout

/-- A run of `n` zeros. -/
def zeros (n : Int) : List Char :=
  List.replicate n.toNat '0'

/-- Digits with the point after the first `point` of them, padded with zeros on either side. -/
def positionalText (layout : Layout) (digits : List Char) (point : Int) : List Char :=
  if point ≤ 0 then
    '0' :: '.' :: zeros (-point) ++ digits
  else if (digits.length : Int) ≤ point then
    digits ++ zeros (point - digits.length) ++ layout.wholeMark
  else
    digits.take point.toNat ++ '.' :: digits.drop point.toNat

/-- Digits with the point after the first one and a power of ten. -/
def exponentText (layout : Layout) (digits : List Char) (power : Int) : List Char :=
  let mantissa := match digits with
    | d :: r :: rest => d :: '.' :: r :: rest
    | short => short
  let exponent := if power < 0 then '-' :: Nat.toDigits 10 power.natAbs
    else layout.plusMark ++ Nat.toDigits 10 power.natAbs
  mantissa ++ 'e' :: exponent

/-- The text of a positive decimal. -/
def decimalText (layout : Layout) (d : Decimal) : List Char :=
  let digits := d.digitChars
  let power := d.exponent + digits.length - 1
  match layout.positional with
  | none => layout.positionalText digits (power + 1)
  | some (least, most) =>
    if least ≤ power ∧ power ≤ most then layout.positionalText digits (power + 1)
    else layout.exponentText digits power

/-- The text of a number: its sign, then the shortest digits that read back. -/
def chars (layout : Layout) (x : Float) : List Char :=
  let sign := if isNegative x then ['-'] else []
  match x.toModel.unpack with
  | .notANumber => ['N', 'a', 'N']
  | .infinity _ => sign ++ ['i', 'n', 'f']
  | .zero _ => sign ++ '0' :: layout.wholeMark
  | .finite _ m e _ => sign ++ layout.decimalText (.shortest layout.tie m e)

/-- The text of a number as a string. -/
def text (layout : Layout) (x : Float) : String :=
  String.ofList (layout.chars x)

end Layout

/-- The format of messages and printed fractions: never an exponent, whole numbers bare. -/
def plain : Layout :=
  { tie := .up, positional := none, wholeMark := [], plusMark := [] }

/-- The format of log messages: a whole number keeps `.0`, and numbers below `1e-4` or from `1e16`
on have an exponent. -/
def diagnostic : Layout :=
  { tie := .up, positional := some (-4, 15), wholeMark := ['.', '0'], plusMark := [] }

/-- The format of numbers in JSON: as in log messages, but positional down to `1e-5`, with a sign
on every exponent, and an even last digit on a tie. -/
def interchange : Layout :=
  { tie := .even, positional := some (-5, 15), wholeMark := ['.', '0'], plusMark := ['+'] }

/-- A whole number in full, all other numbers as in messages, for printing values. The full form
ends below `2 ^ 63`. -/
def valueText (x : Float) : String :=
  match whole? x with
  | some n => if n.natAbs < wholeLimit then toString n else plain.text x
  | none => plain.text x

/-- The literal of a number token: as a printed value, with `.0` after a whole number below
`2 ^ 63`. -/
def literalText (x : Float) : String :=
  match whole? x with
  | some n => if n.natAbs < wholeLimit then toString n ++ ".0" else plain.text x
  | none => plain.text x

/-- A number in the outline of a program: every whole number by its exact digits and `.0`, with
the sign of a negative zero, all other numbers as in messages. -/
def outlineText (x : Float) : String :=
  match whole? x with
  | some n => (if isNegative x then "-" else "") ++ toString n.natAbs ++ ".0"
  | none => plain.text x

end DivisionScript.Number
