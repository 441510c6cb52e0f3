import DivisionScript.Number.Reading
import DivisionScript.Token.Basic

/-!
# Token — Piece

One step through a program text: the longest piece at its start that is a blank, a comment or a
token, or the piece that no lexical class explains. `Piece.text_append_rest` says that a piece and
what follows it are the text itself, and `Piece.text_ne_nil` that a piece is never empty.
-/

namespace DivisionScript

/-- Why a piece of text is no token. -/
inductive LexicalCause where
  /-- A character that starts no token. -/
  | unexpected (c : Char)
  /-- An exclamation mark without the equals sign of `!=`. -/
  | loneBang
  /-- A string without its closing quote. -/
  | unterminatedString
deriving DecidableEq, Repr

/-- The wording of a lexical error. -/
def LexicalCause.message : LexicalCause → String
  | unexpected c => "Unexpected character: " ++ c.toString
  | loneBang => "Unexpected character: ! (did you mean '!=')"
  | unterminatedString => "Unterminated string."

/-- What a piece of text is. -/
inductive Reading where
  /-- White space or a comment. -/
  | skipped
  /-- A token of this kind. -/
  | token (kind : TokenKind)
  /-- No token. -/
  | error (cause : LexicalCause)

/-- A piece at the start of a text and the text after it. -/
structure Piece where
  reading : Reading
  text : List Char
  rest : List Char

namespace Piece

/-- Whether a character separates tokens. -/
def isSeparator (c : Char) : Bool :=
  c == ' ' || c == '\r' || c == '\t' || c == '\n'

/-- Whether a character can start a word: an ASCII letter or an underscore. -/
def isWordStart (c : Char) : Bool :=
  c.isAlpha || c == '_'

/-- Whether a character can continue a word: an ASCII letter, an ASCII digit or an underscore. -/
def isWordPart (c : Char) : Bool :=
  c.isAlphanum || c == '_'

/-- The longest symbol at the start of a text. -/
def symbol? : List Char → Option Symbol
  | '!' :: '=' :: _ => some .bangEqual
  | '=' :: '=' :: _ => some .equalEqual
  | '<' :: '=' :: _ => some .lessEqual
  | '>' :: '=' :: _ => some .greaterEqual
  | '=' :: _ => some .equal
  | '<' :: _ => some .less
  | '>' :: _ => some .greater
  | '(' :: _ => some .leftParen
  | ')' :: _ => some .rightParen
  | '\x7b' :: _ => some .leftBrace
  | '\x7d' :: _ => some .rightBrace
  | ',' :: _ => some .comma
  | ';' :: _ => some .semicolon
  | '-' :: _ => some .minus
  | '+' :: _ => some .plus
  | '/' :: _ => some .slash
  | '*' :: _ => some .star
  | '^' :: _ => some .caret
  | _ => none

/-- The piece made of the first `n` characters of a text. -/
def cut (reading : Reading) (n : Nat) (cs : List Char) : Piece :=
  ⟨reading, cs.take n, cs.drop n⟩

/-- A comment: everything up to the line feed, which stays. -/
def comment (cs : List Char) : Piece :=
  ⟨.skipped, cs.takeWhile (· != '\n'), cs.dropWhile (· != '\n')⟩

/-- A string, from the characters after its opening quote. -/
def string (cs : List Char) : Piece :=
  let body := cs.takeWhile (· != '"')
  match cs.dropWhile (· != '"') with
  | quote :: rest => ⟨.token (.string (String.ofList body)), '"' :: body ++ [quote], rest⟩
  | [] => ⟨.error .unterminatedString, '"' :: body, []⟩

/-- A number: digits, and a point only with a digit after it. -/
def number (cs : List Char) : Piece :=
  let before := cs.takeWhile Char.isDigit
  match cs.dropWhile Char.isDigit with
  | '.' :: d :: rest =>
    if d.isDigit then
      let after := d :: rest.takeWhile Char.isDigit
      ⟨.token (.number (Number.ofDecimal (Number.natOfDigits (before ++ after)) (-after.length))),
        before ++ '.' :: after, rest.dropWhile Char.isDigit⟩
    else
      ⟨.token (.number (Number.ofDecimal (Number.natOfDigits before) 0)), before, '.' :: d :: rest⟩
  | rest => ⟨.token (.number (Number.ofDecimal (Number.natOfDigits before) 0)), before, rest⟩

/-- The kind of a word: a keyword if it is spelled like one. -/
def wordKind (word : List Char) : TokenKind :=
  match Keyword.ofSpelling? (String.ofList word) with
  | some k => .keyword k
  | none => .identifier

/-- A word: as many letters, digits and underscores as follow. -/
def word (cs : List Char) : Piece :=
  let text := cs.takeWhile isWordPart
  ⟨.token (wordKind text), text, cs.dropWhile isWordPart⟩

/-- The piece at the start of a text that begins with `c`. -/
def first (c : Char) (cs : List Char) : Piece :=
  if isSeparator c then
    cut .skipped 1 (c :: cs)
  else if c = '/' ∧ cs.head? = some '/' then
    comment (c :: cs)
  else if c = '"' then
    string cs
  else if c.isDigit then
    number (c :: cs)
  else if isWordStart c then
    word (c :: cs)
  else match symbol? (c :: cs) with
    | some s => cut (.token (.symbol s)) s.spelling.length (c :: cs)
    | none => cut (.error (if c = '!' then .loneBang else .unexpected c)) 1 (c :: cs)

/-! ## A piece and its rest are the text -/

theorem string_text_append_rest {cs : List Char} :
    (string cs).text ++ (string cs).rest = '"' :: cs := by
  have h : cs.takeWhile (· != '"') ++ cs.dropWhile (· != '"') = cs :=
    List.takeWhile_append_dropWhile
  rw [string]
  split
  · next q rest hq => rw [hq] at h; simpa using h
  · next hq => rw [hq] at h; simpa using h

theorem number_text_append_rest {cs : List Char} :
    (number cs).text ++ (number cs).rest = cs := by
  have h : cs.takeWhile Char.isDigit ++ cs.dropWhile Char.isDigit = cs :=
    List.takeWhile_append_dropWhile
  rw [number]
  split
  · next d rest hd =>
    rw [hd] at h
    split
    · simpa [List.takeWhile_append_dropWhile] using h
    · simpa using h
  · exact h

/-- Nothing is lost and nothing is invented. -/
theorem text_append_rest (c : Char) (cs : List Char) :
    (first c cs).text ++ (first c cs).rest = c :: cs := by
  rw [first]
  split
  · simp [cut]
  split
  · exact List.takeWhile_append_dropWhile
  split
  · next h => rw [string_text_append_rest, h]
  split
  · exact number_text_append_rest
  split
  · exact List.takeWhile_append_dropWhile
  split
  · exact List.take_append_drop _ _
  · exact List.take_append_drop _ _

theorem number_text_ne_nil {c : Char} {cs : List Char} (h : c.isDigit = true) :
    (number (c :: cs)).text ≠ [] := by
  rw [number]
  simp only [List.takeWhile_cons, h, ↓reduceIte]
  split
  · split <;> simp
  · simp

/-- A piece is never empty. -/
theorem text_ne_nil (c : Char) (cs : List Char) : (first c cs).text ≠ [] := by
  rw [first]
  split
  · simp [cut]
  split
  · next h => simp [comment, h.1]
  split
  · rw [string]; split <;> simp
  split
  · next h => exact number_text_ne_nil h
  split
  · next h =>
    have hc : isWordPart c = true := by
      simp only [isWordStart, isWordPart, Char.isAlphanum, Bool.or_eq_true] at h ⊢
      rcases h with h | h <;> simp [h]
    simp [word, hc]
  split
  · next s _ => cases s <;> simp [cut, Symbol.spelling]
  · simp [cut]

/-- What follows a piece is shorter than the text. -/
theorem length_rest_lt (c : Char) (cs : List Char) :
    (first c cs).rest.length < (c :: cs).length := by
  have happ := congrArg List.length (text_append_rest c cs)
  have hpos := List.length_pos_iff.2 (text_ne_nil c cs)
  rw [List.length_append] at happ
  omega

end Piece

end DivisionScript
