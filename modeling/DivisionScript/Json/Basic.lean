import DivisionScript.Number.Layout
import DivisionScript.Text.Quoted

/-!
# Json — Basic

JSON values with ordered fields, and their two written forms: compact, and spread over lines with
two spaces of indentation per level.
-/

namespace DivisionScript

/-- A JSON value. Counts and numbers are kept apart because they are written differently. -/
inductive Json where
  | null
  | bool (b : Bool)
  | count (n : Nat)
  | number (x : Float)
  | string (s : String)
  | array (items : List Json)
  | object (fields : List (String × Json))

namespace Json

/-- The text of a number: the shortest digits that read back, `null` for what JSON cannot write. -/
def numberChars (x : Float) : List Char :=
  if x.isFinite then Number.interchange.chars x else ['n', 'u', 'l', 'l']

/-- A string between quotes. -/
def stringChars (s : String) : List Char :=
  Text.quoted Text.jsonEscape s.toList

mutual

/-- The compact form in front of the text `tail`. -/
def writeOnto : Json → List Char → List Char
  | .null, tail => ['n', 'u', 'l', 'l'] ++ tail
  | .bool true, tail => ['t', 'r', 'u', 'e'] ++ tail
  | .bool false, tail => ['f', 'a', 'l', 's', 'e'] ++ tail
  | .count n, tail => Nat.toDigits 10 n ++ tail
  | .number x, tail => numberChars x ++ tail
  | .string s, tail => stringChars s ++ tail
  | .array items, tail => '[' :: writeItems true items (']' :: tail)
  | .object fields, tail => '\x7b' :: writeFields true fields ('\x7d' :: tail)

/-- The items of an array with a comma before each but the first. -/
def writeItems (first : Bool) : List Json → List Char → List Char
  | [], tail => tail
  | item :: items, tail =>
    (if first then [] else [',']) ++ writeOnto item (writeItems false items tail)

/-- The fields of an object with a comma before each but the first. -/
def writeFields (first : Bool) : List (String × Json) → List Char → List Char
  | [], tail => tail
  | (name, value) :: fields, tail =>
    (if first then [] else [',']) ++ stringChars name ++
      ':' :: writeOnto value (writeFields false fields tail)

end

/-- A value on one line without spaces. -/
def compact (value : Json) : String :=
  String.ofList (value.writeOnto [])

/-- A line break and the indentation of a level. -/
def lineBreak (level : Nat) : List Char :=
  '\n' :: List.replicate (2 * level) ' '

mutual

/-- The form spread over lines, at a level of indentation, in front of the text `tail`. Empty arrays
and objects stay on one line. -/
def spreadOnto (level : Nat) : Json → List Char → List Char
  | .array [], tail => '[' :: ']' :: tail
  | .array (item :: items), tail =>
    '[' :: spreadItems (level + 1) true (item :: items) (lineBreak level ++ ']' :: tail)
  | .object [], tail => '\x7b' :: '\x7d' :: tail
  | .object (field :: fields), tail =>
    '\x7b' :: spreadFields (level + 1) true (field :: fields) (lineBreak level ++ '\x7d' :: tail)
  | value, tail => writeOnto value tail

/-- The items of an array, each on a line of its own. -/
def spreadItems (level : Nat) (first : Bool) : List Json → List Char → List Char
  | [], tail => tail
  | item :: items, tail =>
    (if first then [] else [',']) ++ lineBreak level ++
      spreadOnto level item (spreadItems level false items tail)

/-- The fields of an object, each on a line of its own. -/
def spreadFields (level : Nat) (first : Bool) : List (String × Json) → List Char → List Char
  | [], tail => tail
  | (name, value) :: fields, tail =>
    (if first then [] else [',']) ++ lineBreak level ++ stringChars name ++
      ':' :: ' ' :: spreadOnto level value (spreadFields level false fields tail)

end

/-- A value spread over lines. -/
def spread (value : Json) : String :=
  String.ofList (value.spreadOnto 0 [])

end Json

end DivisionScript
