import DivisionScript.Text.Unprintable

/-!
# Text — Quoted

Text between double quotes. A quoted form is fixed by the characters that it replaces and what it
writes for them; the two forms of the language are the one in outlines and messages and the one
of JSON.
-/

namespace DivisionScript.Text

/-- The hexadecimal digits of a number, lower case and without padding. -/
def hexDigits (n : Nat) : List Char :=
  Nat.toDigits 16 n

/-- A text with every character that `escape` knows replaced. -/
def escaped (escape : Char → Option (List Char)) (cs : List Char) : List Char :=
  cs.flatMap fun c => (escape c).getD [c]

/-- A text between double quotes with every character that `escape` knows replaced. -/
def quoted (escape : Char → Option (List Char)) (cs : List Char) : List Char :=
  '"' :: escaped escape cs ++ ['"']

/-- What outlines and messages write for a character: a backslash form for the quote, the backslash,
tab, line feed, carriage return and null, the code point in braces for the other unprintable
characters. -/
def messageEscape (c : Char) : Option (List Char) :=
  if c = '"' then some ['\\', '"']
  else if c = '\\' then some ['\\', '\\']
  else if c = '\t' then some ['\\', 't']
  else if c = '\n' then some ['\\', 'n']
  else if c = '\r' then some ['\\', 'r']
  else if c.toNat = 0 then some ['\\', '0']
  else if 0x20 ≤ c.toNat ∧ c.toNat < 0x7F then none
  else if isUnprintable c then some ('\\' :: 'u' :: '\x7b' :: hexDigits c.toNat ++ ['\x7d'])
  else none

/-- What JSON text writes for a character: a backslash form for the quote, the backslash and the
common controls, four hexadecimal digits for the other controls below the space. -/
def jsonEscape (c : Char) : Option (List Char) :=
  if c = '"' then some ['\\', '"']
  else if c = '\\' then some ['\\', '\\']
  else if c.toNat = 0x08 then some ['\\', 'b']
  else if c = '\t' then some ['\\', 't']
  else if c = '\n' then some ['\\', 'n']
  else if c.toNat = 0x0C then some ['\\', 'f']
  else if c = '\r' then some ['\\', 'r']
  else if c.toNat < 0x10 then some ('\\' :: 'u' :: '0' :: '0' :: '0' :: hexDigits c.toNat)
  else if c.toNat < 0x20 then some ('\\' :: 'u' :: '0' :: '0' :: hexDigits c.toNat)
  else none

/-- A string as outlines and messages quote it. -/
def quote (s : String) : String :=
  String.ofList (quoted messageEscape s.toList)

end DivisionScript.Text
