import DivisionScript.Token.Piece

/-!
# Token — Scan

The items of a whole program text: its tokens and lexical errors in order, ended by one token for
the end of the text. An error does not stop the scan. The line of an item is the line on which its
text ends.
-/

namespace DivisionScript

/-- A lexical error and the line on which the text it covers ends. -/
structure LexicalError where
  cause : LexicalCause
  line : Nat
deriving DecidableEq, Repr

/-- An item of a scan. -/
abbrev Item := Except LexicalError Token

namespace Token

/-- The number of line feeds in a text. -/
def lineFeeds (cs : List Char) : Nat :=
  cs.count '\n'

/-- The items of a text that starts on the given line. -/
def scanFrom (line : Nat) : List Char → List Item
  | [] => [.ok ⟨.endOfText, "", line⟩]
  | c :: cs =>
    let piece := Piece.first c cs
    let after := line + lineFeeds piece.text
    have : piece.rest.length < (c :: cs).length := Piece.length_rest_lt c cs
    match piece.reading with
    | .skipped => scanFrom after piece.rest
    | .token kind => .ok ⟨kind, String.ofList piece.text, after⟩ :: scanFrom after piece.rest
    | .error cause => .error ⟨cause, after⟩ :: scanFrom after piece.rest
termination_by cs => cs.length
decreasing_by all_goals exact this

/-- The items of a program text. -/
def scan (source : String) : List Item :=
  scanFrom 1 source.toList

/-- The items up to and including the first error. -/
def untilError : List Item → List Item
  | [] => []
  | .ok t :: items => .ok t :: untilError items
  | .error e :: _ => [.error e]

/-- The tokens of a list of items, or its first error. -/
def collect : List Item → Except LexicalError (List Token)
  | [] => .ok []
  | .error e :: _ => .error e
  | .ok t :: items => (collect items).map (t :: ·)

/-- The tokens of a program text, or its first lexical error. -/
def scanAll (source : String) : Except LexicalError (List Token) :=
  collect (scan source)

end Token

end DivisionScript
