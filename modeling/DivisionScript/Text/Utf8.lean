/-!
# Text — Utf8

Where a sequence of bytes stops being UTF-8. The first byte of a character fixes the ranges of the
bytes that follow it; a byte outside its range is a flaw, and so is an end before the last of them.
-/

namespace DivisionScript.Text

/-- The first place where a sequence of bytes is not UTF-8. -/
structure Flaw where
  /-- How many bytes before it are. -/
  index : Nat
  /-- How many bytes are at fault; `none` when the bytes end inside a character. -/
  length : Option Nat
deriving DecidableEq, Repr

/-- A range of bytes, both ends included. -/
structure ByteRange where
  least : UInt8
  greatest : UInt8

namespace ByteRange

/-- Whether a byte is in the range. -/
def contains (r : ByteRange) (b : UInt8) : Bool :=
  r.least ≤ b && b ≤ r.greatest

/-- The bytes that continue a character. -/
def continuation : ByteRange :=
  ⟨0x80, 0xBF⟩

end ByteRange

open ByteRange in
/-- The ranges of the bytes after the first one of a character; `none` if no character starts with
it. The narrower ranges leave out overlong forms, surrogates and codes beyond `U+10FFFF`. -/
def followers? (first : UInt8) : Option (List ByteRange) :=
  if first < 0x80 then some []
  else if first < 0xC2 then none
  else if first ≤ 0xDF then some [continuation]
  else if first = 0xE0 then some [⟨0xA0, 0xBF⟩, continuation]
  else if first = 0xED then some [⟨0x80, 0x9F⟩, continuation]
  else if first ≤ 0xEF then some [continuation, continuation]
  else if first = 0xF0 then some [⟨0x90, 0xBF⟩, continuation, continuation]
  else if first ≤ 0xF3 then some [continuation, continuation, continuation]
  else if first = 0xF4 then some [⟨0x80, 0x8F⟩, continuation, continuation]
  else none

/-- The first flaw of bytes inside a character that starts at `start`, of which `seen` bytes have
been read and the `pending` ones have not. -/
def flawFrom (start seen : Nat) : (pending : List ByteRange) → List UInt8 → Option Flaw
  | [], [] => none
  | _ :: _, [] => some ⟨start, none⟩
  | r :: pending, b :: bytes =>
    if r.contains b then flawFrom start (seen + 1) pending bytes else some ⟨start, some seen⟩
  | [], b :: bytes =>
    match followers? b with
    | some pending => flawFrom (start + seen) 1 pending bytes
    | none => some ⟨start + seen, some 1⟩

/-- The first flaw of a sequence of bytes, if it is not UTF-8. -/
def flaw? (bytes : List UInt8) : Option Flaw :=
  flawFrom 0 0 [] bytes

/-- The wording of a flaw. -/
def Flaw.message (flaw : Flaw) : String :=
  match flaw.length with
  | some length =>
    "invalid utf-8 sequence of " ++ toString length ++ " bytes from index " ++ toString flaw.index
  | none => "incomplete utf-8 byte sequence from index " ++ toString flaw.index

/-- The text that a sequence of bytes spells, or its first flaw. -/
def decode (bytes : ByteArray) : Except Flaw String :=
  match String.fromUTF8? bytes with
  | some text => .ok text
  | none => .error ((flaw? bytes.toList).getD ⟨0, none⟩)

end DivisionScript.Text
