/-!
# Text — Blank

The characters with the Unicode property `White_Space`, and trimming by them.
-/

namespace DivisionScript.Text

/-- Whether a character is white space: the ASCII blanks and line breaks, the next-line and
no-break controls, and the spaces and separators of the general-punctuation and ideographic
blocks. -/
def isBlank (c : Char) : Bool :=
  let n := c.toNat
  (0x09 ≤ n && n ≤ 0x0D) || n == 0x20 || n == 0x85 || n == 0xA0 || n == 0x1680 ||
    (0x2000 ≤ n && n ≤ 0x200A) || n == 0x2028 || n == 0x2029 || n == 0x202F || n == 0x205F ||
    n == 0x3000

/-- A text without the white space at its two ends. -/
def trimChars (cs : List Char) : List Char :=
  ((cs.dropWhile isBlank).reverse.dropWhile isBlank).reverse

/-- A string without the white space at its two ends. -/
def trim (s : String) : String :=
  String.ofList (trimChars s.toList)

end DivisionScript.Text
