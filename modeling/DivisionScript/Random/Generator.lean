import DivisionScript.Random.Block

/-!
# Random — Generator

The random numbers of a run: a key made from a seed, a position in its stream of words, and draws
from ranges of whole numbers.
-/

namespace DivisionScript.Random

/-- How many 64-bit words there are. -/
def wordSize : Nat :=
  0x10000000000000000

/-- How many words a stream has before it starts over: eight in a block, and a block for every
counter. -/
def period : Nat :=
  8 * wordSize

/-- A stream of random words and how many of them have been taken. -/
structure Generator where
  key : Key
  position : Nat

namespace Generator

/-- The next state of the expansion of a seed. -/
def nextSeed (state : UInt64) : UInt64 :=
  state * 6364136223846793005 + 11634580027462260723

/-- The word that a state of the expansion yields: its high bits, rotated by its highest ones. -/
def seedWord (state : UInt64) : UInt32 :=
  let x := (((state >>> 18) ^^^ state) >>> 27).toUInt32
  let n := (state >>> 59).toUInt32
  (x >>> n) ||| (x <<< ((32 - n) % 32))

/-- The generator of a seed, before its first word. -/
def ofSeed (seed : UInt64) : Generator :=
  let states := Vector.ofFn fun i : Fin 8 => Nat.repeat nextSeed (i + 1) seed
  ⟨states.map seedWord, 0⟩

/-- Takes the next word. -/
def next (g : Generator) : UInt64 × Generator :=
  (wordAt g.key g.position, { g with position := g.position + 1 })

/-- The limit below which the low half of a product is accepted, so that every outcome of a range is
equally likely: one less than the range shifted to the top of a word. -/
def zone (range : Nat) : Nat :=
  range * Nat.pow 2 (63 - range.log2) - 1

/-- Takes words until the low half of the product of word and range is in the zone, and yields the
high half, which is less than the range. More than half of all words are in the zone; after
`attempts` words that are not, the next one is taken as it is. -/
def below (range : Nat) : (attempts : Nat) → Generator → Nat × Generator
  | 0, g =>
    let (word, g) := g.next
    (word.toNat * range / wordSize, g)
  | attempts + 1, g =>
    let (word, g) := g.next
    let product := word.toNat * range
    if product % wordSize ≤ zone range then (product / wordSize, g) else below range attempts g

/-- A whole number between two bounds, both included. A range of all 64-bit numbers takes one word
as it is. Any other one is searched for a whole period, so that the search ends without a word in
the zone only where the stream has none at all. -/
def draw (g : Generator) (least greatest : Int) : Int × Generator :=
  let range := (greatest - least + 1).toNat
  if range = wordSize then
    let (word, g) := g.next
    (word.toInt64.toInt, g)
  else
    let (n, g) := g.below range period
    (least + n, g)

end Generator

end DivisionScript.Random
