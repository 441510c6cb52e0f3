/-!
# Random — Block

A block cipher in counter mode with a state of sixteen 32-bit words, run for twelve rounds, as a
function from a key and a position to 64-bit words. All arithmetic on words wraps.
-/

namespace DivisionScript.Random

/-- The eight words of a key. -/
abbrev Key := Vector UInt32 8

/-- The sixteen words of a state. -/
abbrev State := Vector UInt32 16

/-- A word rotated to the left. -/
def rotateLeft (x : UInt32) (n : UInt32) : UInt32 :=
  (x <<< n) ||| (x >>> (32 - n))

/-- Mixes four words of a state. -/
def quarterRound (a b c d : Fin 16) (s : State) : State :=
  let s := s.set a (s[a] + s[b])
  let s := s.set d (rotateLeft (s[d] ^^^ s[a]) 16)
  let s := s.set c (s[c] + s[d])
  let s := s.set b (rotateLeft (s[b] ^^^ s[c]) 12)
  let s := s.set a (s[a] + s[b])
  let s := s.set d (rotateLeft (s[d] ^^^ s[a]) 8)
  let s := s.set c (s[c] + s[d])
  s.set b (rotateLeft (s[b] ^^^ s[c]) 7)

/-- Two rounds: one over the columns of a state, one over its diagonals. -/
def doubleRound (s : State) : State :=
  let s := quarterRound 0 4 8 12 s
  let s := quarterRound 1 5 9 13 s
  let s := quarterRound 2 6 10 14 s
  let s := quarterRound 3 7 11 15 s
  let s := quarterRound 0 5 10 15 s
  let s := quarterRound 1 6 11 12 s
  let s := quarterRound 2 7 8 13 s
  quarterRound 3 4 9 14 s

/-- The state before the rounds: four constants, the key, the counter and two zeros. -/
def initialState (key : Key) (counter : UInt64) : State :=
  #v[0x61707865, 0x3320646e, 0x79622d32, 0x6b206574,
     key[0], key[1], key[2], key[3], key[4], key[5], key[6], key[7],
     counter.toUInt32, (counter >>> 32).toUInt32, 0, 0]

/-- The block of a counter: the initial state, twelve rounds, and the initial state added. -/
def block (key : Key) (counter : UInt64) : State :=
  let start := initialState key counter
  let mixed := Nat.repeat doubleRound 6 start
  mixed.zipWith (· + ·) start

/-- The 64-bit word at a position of the stream: two neighbouring words of a block, the low one
first. -/
def wordAt (key : Key) (position : Nat) : UInt64 :=
  let words := block key (UInt64.ofNat (position / 8))
  let i := position % 8
  have hi : i < 8 := Nat.mod_lt _ (by decide)
  words[2 * i].toUInt64 ||| (words[2 * i + 1].toUInt64 <<< 32)

end DivisionScript.Random
