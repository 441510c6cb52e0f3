import DivisionScript.Number.Exact

/-!
# Number — Decimal

The fewest decimal digits that read back to a given binary64 number.

A finite number is `m · 2 ^ e`. The decimals that round to it form an interval around it, closed
exactly when `m` is even. On the grid of multiples of `10 ^ k` only the two neighbours of the
number can be the nearest point inside that interval, so the search walks from a coarse grid to
finer ones and stops at the first grid with a neighbour inside.
-/

namespace DivisionScript.Number

/-- The decimal `digits · 10 ^ exponent`. -/
structure Decimal where
  digits : Nat
  exponent : Int
deriving DecidableEq, Repr

/-- Which neighbour wins when a number lies exactly between two decimals that both read back. -/
inductive Tie where
  /-- The larger one. -/
  | up
  /-- The one with an even last digit. -/
  | even
deriving DecidableEq, Repr

namespace Decimal

/-- A number and the ends of its rounding interval, all as multiples of one common unit, beside
the step of a decimal grid in the same unit. -/
structure Scaled where
  /-- The number itself. -/
  value : Nat
  /-- The lower end of the interval. -/
  low : Nat
  /-- The upper end of the interval. -/
  high : Nat
  /-- Whether the ends belong to the interval. -/
  closed : Bool
  /-- The distance between two points of the grid. -/
  step : Nat

/-- The number `m · 2 ^ e` beside the grid of multiples of `10 ^ k`. The interval reaches half a
unit of the last place to both sides, but only a quarter below the first number of a binade, whose
lower neighbours are twice as dense. -/
def Scaled.of (m : Nat) (e k : Int) : Scaled :=
  let below := if m = 0x10000000000000 ∧ -1074 < e then 1 else 2
  let unit := Nat.pow 2 (e - 2).toNat * Nat.pow 10 (-k).toNat
  { value := 4 * m * unit
    low := (4 * m - below) * unit
    high := (4 * m + 2) * unit
    closed := m % 2 = 0
    step := Nat.pow 10 k.toNat * Nat.pow 2 (2 - e).toNat }

/-- Whether the `n`-th point of the grid lies in the rounding interval. -/
def Scaled.admits (s : Scaled) (n : Nat) : Bool :=
  if s.closed then s.low ≤ n * s.step ∧ n * s.step ≤ s.high
  else s.low < n * s.step ∧ n * s.step < s.high

/-- The nearer of the grid points below and above the value, among those in the interval. -/
def Scaled.nearest? (s : Scaled) (tie : Tie) : Option Nat :=
  let n := s.value / s.step
  let r := s.value % s.step
  match s.admits n, s.admits (n + 1) with
  | false, false => none
  | true, false => some n
  | false, true => some (n + 1)
  | true, true =>
    if 2 * r < s.step then some n
    else if s.step < 2 * r then some (n + 1)
    else match tie with
      | .up => some (n + 1)
      | .even => some (if n % 2 = 0 then n else n + 1)

/-- Walks from the grid of `10 ^ k` to finer ones, at most `fuel` of them, until one has a point
that reads back. -/
def search (tie : Tie) (m : Nat) (e : Int) : (fuel : Nat) → (k : Int) → Decimal
  | 0, k =>
    let s := Scaled.of m e k
    ⟨s.value / s.step, k⟩
  | fuel + 1, k =>
    match (Scaled.of m e k).nearest? tie with
    | some n => ⟨n, k⟩
    | none => search tie m e fuel (k - 1)

/-- Moves trailing zeros of the digits into the exponent, at most `fuel` of them. -/
def strip : (fuel : Nat) → Decimal → Decimal
  | 0, d => d
  | fuel + 1, d =>
    if d.digits ≠ 0 ∧ d.digits % 10 = 0 then strip fuel ⟨d.digits / 10, d.exponent + 1⟩ else d

/-- The shortest decimal that reads back to `m · 2 ^ e`, and of those the nearest. The first grid
is coarser than the number itself, and twenty grids reach past its seventeenth digit, which always
suffices. -/
def shortest (tie : Tie) (m : Nat) (e : Int) : Decimal :=
  let magnitude := ((m.log2 : Int) + e) * 30103 / 100000
  strip 20 (search tie m e 20 (magnitude + 2))

/-- The digits as characters, most significant first. -/
def digitChars (d : Decimal) : List Char :=
  Nat.toDigits 10 d.digits

end Decimal

end DivisionScript.Number
