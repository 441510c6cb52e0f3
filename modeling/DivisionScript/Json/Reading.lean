import DivisionScript.Number.Reading

/-!
# Json — Reading

Reading JSON text from left to right, stopping at the first problem. A problem is of one of three
kinds: the text ends too early, it is not JSON, or it is JSON so far but not what is wanted there.
The readers here are for single values; every one takes the characters ahead and yields what it
read and the characters after it.
-/

namespace DivisionScript.Json

/-- Why reading stopped. -/
inductive Refusal where
  /-- The text ends too early. -/
  | ended
  /-- The text is not JSON. -/
  | malformed
  /-- The text is JSON so far, but another value is wanted. -/
  | unfit
deriving DecidableEq, Repr

/-- The name of a kind of problem. -/
def Refusal.name : Refusal → String
  | ended => "Eof" | malformed => "Syntax" | unfit => "Data"

/-- A reader of something from the characters ahead. -/
abbrev Reader (α : Type) := StateT (List Char) (Except Refusal) α

namespace Reader

/-- Stops. -/
def refuse {α : Type} (r : Refusal) : Reader α :=
  fun _ => .error r

/-- Whether JSON allows a character between its parts. -/
def isSpace (c : Char) : Bool :=
  c = ' ' || c = '\n' || c = '\t' || c = '\r'

/-- The next character that is not a space; it stays ahead. -/
def ahead? : Reader (Option Char) := fun cs =>
  let rest := cs.dropWhile isSpace
  .ok (rest.head?, rest)

/-- The next character that is not a space, where there has to be one; it stays ahead. -/
def ahead : Reader Char := do
  match ← ahead? with
  | some c => pure c
  | none => refuse .ended

/-- Drops one character. -/
def advance : Reader Unit :=
  modify List.tail

/-- Reads a fixed word. -/
def word : List Char → Reader Unit
  | [], cs => .ok ((), cs)
  | _ :: _, [] => .error .ended
  | e :: es, c :: cs => if c = e then word es cs else .error .malformed

/-! ## Numbers -/

/-- One more than the greatest whole number that is read exactly. -/
def wordSize : Nat := 0x10000000000000000

/-- Appends digits to a number as long as it stays below `wordSize`: the number, and how many digits
were appended. -/
def absorb (n : Nat) : List Char → Nat × Nat
  | [] => (n, 0)
  | d :: ds =>
    let next := 10 * n + (d.toNat - '0'.toNat)
    if next < wordSize then
      let (m, count) := absorb next ds
      (m, count + 1)
    else
      (n, 0)

/-- Reads at least one digit. -/
def digits : Reader (List Char) := fun cs =>
  match cs.takeWhile Char.isDigit, cs.dropWhile Char.isDigit with
  | [], [] => .error .ended
  | [], _ :: _ => .error .malformed
  | ds, rest => .ok (ds, rest)

/-- Reads the digits of a whole number, which start with a zero only if that is all. -/
def wholeDigits : Reader (List Char) := do
  let ds ← digits
  match ds with
  | '0' :: _ :: _ => refuse .malformed
  | ds => pure ds

/-- Reads a point and the digits after it, if a point is ahead. -/
def fraction : Reader (Option (List Char))
  | '.' :: cs => (some <$> digits) cs
  | cs => .ok (none, cs)

/-- Reads a power of ten, if one is ahead. -/
def power : Reader (Option Int)
  | c :: cs =>
    if c = 'e' ∨ c = 'E' then
      match cs with
      | '-' :: cs => ((fun ds => some (-(Number.natOfDigits ds : Int))) <$> digits) cs
      | '+' :: cs => ((fun ds => some (Number.natOfDigits ds : Int)) <$> digits) cs
      | cs => ((fun ds => some (Number.natOfDigits ds : Int)) <$> digits) cs
    else
      .ok (none, c :: cs)
  | [] => .ok (none, [])

/-- Whether `n · 10 ^ e` is too large for a binary64 number. -/
def overflows (n : Nat) (e : Int) : Bool :=
  n ≠ 0 && 0 ≤ e && (308 < e || !(Float.ofNat n * Float.ofScientific 1 false e.toNat).isFinite)

/-- Reads an unsigned number. A whole number below `wordSize` that is written without point and
power is yielded; of any other number only the form and the magnitude are checked. -/
def numeral : Reader (Option Nat) := do
  let whole ← wholeDigits
  let part ← fraction
  let e ← power
  let (n, taken) := absorb 0 whole
  let shift : Int := whole.length - taken
  let (n, shift) := match part with
    | some ds => let (m, count) := absorb n ds; (m, shift - count)
    | none => (n, shift)
  if overflows n (shift + e.getD 0) then
    refuse .malformed
  else if part = none ∧ e = none ∧ taken = whole.length then
    pure (some n)
  else
    pure none

/-! ## Strings -/

/-- The value of a hexadecimal digit. -/
def hexValue? (c : Char) : Option Nat :=
  if '0' ≤ c ∧ c ≤ '9' then some (c.toNat - '0'.toNat)
  else if 'a' ≤ c ∧ c ≤ 'f' then some (c.toNat - 'a'.toNat + 10)
  else if 'A' ≤ c ∧ c ≤ 'F' then some (c.toNat - 'A'.toNat + 10)
  else none

/-- How many bytes a text takes in UTF-8. -/
def byteCount (cs : List Char) : Nat :=
  cs.foldl (fun n c => n + c.utf8Size) 0

/-- Reads four hexadecimal digits. Four bytes have to be left before the digits are looked at. -/
def fourHex : Reader Nat
  | a :: b :: c :: d :: cs =>
    match hexValue? a, hexValue? b, hexValue? c, hexValue? d with
    | some a, some b, some c, some d => .ok (((a * 16 + b) * 16 + c) * 16 + d, cs)
    | _, _, _, _ => .error .malformed
  | short => if byteCount short < 4 then .error .ended else .error .malformed

/-- Reads the character of an escape with hexadecimal digits: a single code, or the two halves of
one beyond `U+FFFF`. -/
def codeEscape : Reader Char := do
  let high ← fourHex
  if 0xDC00 ≤ high ∧ high ≤ 0xDFFF then
    refuse .malformed
  else if 0xD800 ≤ high ∧ high ≤ 0xDBFF then
    word ['\\', 'u']
    let low ← fourHex
    if 0xDC00 ≤ low ∧ low ≤ 0xDFFF then
      pure (Char.ofNat (0x10000 + (high - 0xD800) * 0x400 + (low - 0xDC00)))
    else
      refuse .malformed
  else
    pure (Char.ofNat high)

/-- Reads the character of an escape, after its backslash. -/
def escape : Reader Char
  | [] => .error .ended
  | 'u' :: cs => codeEscape cs
  | 'b' :: cs => .ok ('\x08', cs)
  | 'f' :: cs => .ok ('\x0c', cs)
  | 'n' :: cs => .ok ('\n', cs)
  | 'r' :: cs => .ok ('\r', cs)
  | 't' :: cs => .ok ('\t', cs)
  | c :: cs => if c = '"' ∨ c = '\\' ∨ c = '/' then .ok (c, cs) else .error .malformed

theorem length_word {expected cs : List Char} {r : Unit × List Char}
    (h : word expected cs = .ok r) : r.2.length ≤ cs.length := by
  induction expected generalizing cs with
  | nil => simp only [word, Except.ok.injEq] at h; simp [← h]
  | cons e es ih =>
    cases cs with
    | nil => simp [word] at h
    | cons c cs =>
      by_cases hc : c = e
      · have := ih (by simpa [word, hc] using h)
        simp only [List.length_cons]; omega
      · simp [word, hc] at h

theorem length_fourHex {cs : List Char} {r : Nat × List Char} (h : fourHex cs = .ok r) :
    r.2.length ≤ cs.length := by
  unfold fourHex at h
  split at h
  · split at h
    · simp only [Except.ok.injEq] at h
      simp only [List.length_cons, ← h]; omega
    · simp at h
  · split at h <;> simp at h

theorem length_codeEscape {cs : List Char} {r : Char × List Char} (h : codeEscape cs = .ok r) :
    r.2.length ≤ cs.length := by
  simp only [codeEscape, bind, StateT.bind, Except.bind] at h
  split at h
  · simp at h
  · next v hv =>
    have h1 := length_fourHex hv
    split at h
    · simp [refuse] at h
    · split at h
      · simp only [StateT.bind, bind, Except.bind] at h
        split at h
        · simp at h
        · next w hw =>
          have h2 := length_word hw
          split at h
          · simp at h
          · next x hx =>
            have h3 := length_fourHex hx
            split at h
            · have hr : (_, x.2) = r := Except.ok.inj h
              subst hr; exact Nat.le_trans h3 (Nat.le_trans h2 h1)
            · simp [refuse] at h
      · have hr : (_, v.2) = r := Except.ok.inj h
        subst hr; exact h1

/-- An escape takes at least one character. -/
theorem length_escape {cs : List Char} {r : Char × List Char} (h : escape cs = .ok r) :
    r.2.length < cs.length := by
  unfold escape at h
  split at h
  case h_1 => simp at h
  case h_2 => have := length_codeEscape h; simp only [List.length_cons]; omega
  case h_8 =>
    split at h
    · simp only [Except.ok.injEq] at h; simp [← h]
    · simp at h
  all_goals
    simp only [Except.ok.injEq] at h; simp [← h]

/-- Reads a string after its opening quote. -/
def stringChars (cs : List Char) : Except Refusal (List Char × List Char) :=
  match cs with
  | [] => .error .ended
  | '"' :: cs => .ok ([], cs)
  | '\\' :: cs =>
    match h : escape cs with
    | .error r => .error r
    | .ok (c, rest) =>
      have : rest.length < cs.length := length_escape h
      (stringChars rest).map fun (text, rest) => (c :: text, rest)
  | c :: cs =>
    if c.toNat < 0x20 then .error .malformed
    else (stringChars cs).map fun (text, rest) => (c :: text, rest)
termination_by cs.length
decreasing_by all_goals simp only [List.length_cons]; omega

/-- Reads a string whose opening quote is ahead. -/
def quotedString : Reader String := do
  advance
  let text ← (stringChars : Reader (List Char))
  pure (String.ofList text)

/-! ## Values of one kind -/

/-- Reads a value where another kind of value is wanted. The value is checked up to the point where
its kind is certain: words, numbers and strings to their end, arrays and objects not at all. -/
def unwanted {α : Type} : Reader α := do
  match ← ahead with
  | 'n' => word ['n', 'u', 'l', 'l']; refuse .unfit
  | 't' => word ['t', 'r', 'u', 'e']; refuse .unfit
  | 'f' => word ['f', 'a', 'l', 's', 'e']; refuse .unfit
  | '"' => discard quotedString; refuse .unfit
  | '[' => refuse .unfit
  | '\x7b' => refuse .unfit
  | '-' => advance; discard numeral; refuse .unfit
  | c => if c.isDigit then do discard numeral; refuse .unfit else refuse .malformed

/-- Reads a whole number of 64 bits without a sign. -/
def unsigned : Reader UInt64 := do
  let c ← ahead
  if c.isDigit then
    match ← numeral with
    | some n => pure n.toUInt64
    | none => refuse .unfit
  else
    unwanted

/-- Reads a truth value. -/
def truth : Reader Bool := do
  match ← ahead with
  | 't' => word ['t', 'r', 'u', 'e']; pure true
  | 'f' => word ['f', 'a', 'l', 's', 'e']; pure false
  | _ => unwanted

/-- Reads a string. -/
def string : Reader String := do
  match ← ahead with
  | '"' => quotedString
  | _ => unwanted

/-- Reads `null` or what `item` reads. -/
def optional {α : Type} (item : Reader α) : Reader (Option α) := do
  match ← ahead? with
  | some 'n' => word ['n', 'u', 'l', 'l']; pure none
  | _ => some <$> item

/-- Refuses anything but spaces. -/
def finish : Reader Unit := do
  match ← ahead? with
  | none => pure ()
  | some _ => refuse .malformed

end Reader

end DivisionScript.Json
