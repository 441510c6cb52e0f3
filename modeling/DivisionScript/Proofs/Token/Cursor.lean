import DivisionScript.Proofs.State
import DivisionScript.Proofs.Token.Munch
import DivisionScript.Proofs.Token.Bytes

/-!
# Token — Cursor

A scan that goes over the bytes of a text, with a cursor at the start of the piece in hand and one
after the bytes read so far. Reading a byte past the end and slicing a text elsewhere than between
characters are traps, and so are the two fallbacks that a scan never needs: a character for a slice
that holds none, a number for a lexeme that denotes none. Within a turn the cursor may stand between
two bytes of one character; slices are taken where it does not. `Ahead.turn` says that a turn which
starts between two characters has no trap and takes the piece that is there; so the turns give the
items of `Token.scan`, and every turn starts between two characters.
-/

namespace DivisionScript

/-- The first byte of the piece in hand, the byte after the last one read, and the line. -/
structure Cursor where
  start : Nat
  curr : Nat
  line : Nat

/-- What stops a scan over bytes short. -/
inductive Cursor.Trap where
  /-- A byte past the end. -/
  | index
  /-- A slice that is not between two characters of the text, or two of its bytes. -/
  | slice
  /-- A replacement for a character that is not there. -/
  | noCharacter
  /-- A replacement for a number that a lexeme does not denote. -/
  | noNumber

namespace Cursor

/-- A part of a scan, which moves the cursor or runs into a trap. -/
abbrev Move := EStateM Trap Cursor

/-- Where a scan starts. -/
def first : Cursor :=
  ⟨0, 0, 1⟩

section moves

variable (source : String)

/-- A byte of the text. -/
def index (i : Nat) : Move UInt8 :=
  match (bytes source)[i]? with
  | some b => return b
  | none => throw .index

/-- The text from one byte to another. -/
def slice (a b : Nat) : Move String :=
  match slice? source a b with
  | some text => return text
  | none => throw .slice

/-- Reads one byte. -/
def advance : Move UInt8 := do
  let cursor ← get
  let b ← index source cursor.curr
  set { cursor with curr := cursor.curr + 1 }
  return b

/-- The byte so far ahead of the cursor, or 0 past the end. -/
def peek (ahead : Nat) : Move UInt8 := do
  let cursor ← get
  if cursor.curr + ahead < (bytes source).length then
    index source (cursor.curr + ahead)
  else
    return 0

/-- Reads a byte if it is the one expected. -/
def accept (expected : Char) : Move Bool := do
  let cursor ← get
  let b ← peek source 0
  if cursor.curr < (bytes source).length ∧ b = expected.toUInt8 then
    let _ ← advance source
    return true
  else
    return false

/-- Reads bytes as long as they pass a test, which the 0 past the end must not. -/
def advanceWhile (p : UInt8 → Bool) (cursor : Cursor) : EStateM.Result Trap Cursor Unit :=
  if h : cursor.curr < (bytes source).length then
    if p (bytes source)[cursor.curr] then
      advanceWhile p { cursor with curr := cursor.curr + 1 }
    else
      .ok () cursor
  else if p 0 then
    .error .index cursor
  else
    .ok () cursor
termination_by (bytes source).length - cursor.curr

/-- Reads the bytes before the next quote, and counts the lines. -/
def advanceToQuote (cursor : Cursor) : EStateM.Result Trap Cursor Unit :=
  if h : cursor.curr < (bytes source).length then
    if (bytes source)[cursor.curr] = '"'.toUInt8 then
      .ok () cursor
    else if (bytes source)[cursor.curr] = '\n'.toUInt8 then
      advanceToQuote { cursor with curr := cursor.curr + 1, line := cursor.line + 1 }
    else
      advanceToQuote { cursor with curr := cursor.curr + 1 }
  else
    .ok () cursor
termination_by (bytes source).length - cursor.curr

/-- Goes forward to the next line feed, or to the end. -/
def comment : Move Unit := do
  let cursor ← get
  if cursor.curr ≤ (bytes source).length then
    match ((bytes source).drop cursor.curr).findIdx? (· == '\n'.toUInt8) with
    | some n => set { cursor with curr := cursor.curr + n }
    | none => set { cursor with curr := (bytes source).length }
  else
    throw .slice

/-- A string, after its opening quote. -/
def string : Move Reading := do
  advanceToQuote source
  let cursor ← get
  if (bytes source).length ≤ cursor.curr then
    return .error .unterminatedString
  else
    let _ ← advance source
    let cursor ← get
    let text ← slice source (cursor.start + 1) (cursor.curr - 1)
    return .token (.string text)

/-- Reads digits. -/
def digits : Move Unit :=
  advanceWhile source fun b => (Char.ofUInt8 b).isDigit

/-- Reads a point and digits, if there is a digit after the point. -/
def fraction : Move Unit := do
  let point ← peek source 0
  let digit ← peek source 1
  if point = '.'.toUInt8 ∧ (Char.ofUInt8 digit).isDigit then
    let _ ← advance source
    digits source
  else
    return ()

/-- A number, after its first digit. -/
def number : Move Reading := do
  digits source
  fraction source
  let cursor ← get
  let text ← slice source cursor.start cursor.curr
  match Number.ofString? text with
  | some x => return .token (.number x)
  | none => throw .noNumber

/-- The kind of a word, by its bytes. -/
def wordKind (word : List UInt8) : TokenKind :=
  match Keyword.all.find? fun k => bytes k.spelling = word with
  | some k => .keyword k
  | none => .identifier

/-- A word, after its first character. -/
def word : Move Reading := do
  advanceWhile source fun b => Piece.isWordPart (Char.ofUInt8 b)
  let cursor ← get
  if cursor.start ≤ cursor.curr ∧ cursor.curr ≤ (bytes source).length then
    let text := ((bytes source).drop cursor.start).take (cursor.curr - cursor.start)
    return .token (wordKind text)
  else
    throw .slice

/-- A character that starts no token: the whole of it, whatever has been read. -/
def unexpected : Move Reading := do
  let cursor ← get
  let rest ← slice source cursor.start (bytes source).length
  match rest.toList with
  | c :: _ =>
    set { cursor with curr := cursor.start + c.utf8Size }
    return .error (.unexpected c)
  | [] => throw .noCharacter

/-- What a piece is, after its first byte. -/
def dispatch : Char → Move Reading
  | '(' => return .token (.symbol .leftParen)
  | ')' => return .token (.symbol .rightParen)
  | '\x7b' => return .token (.symbol .leftBrace)
  | '\x7d' => return .token (.symbol .rightBrace)
  | ',' => return .token (.symbol .comma)
  | ';' => return .token (.symbol .semicolon)
  | '-' => return .token (.symbol .minus)
  | '+' => return .token (.symbol .plus)
  | '*' => return .token (.symbol .star)
  | '^' => return .token (.symbol .caret)
  | '!' => do
    if ← accept source '=' then return .token (.symbol .bangEqual) else return .error .loneBang
  | '=' => do
    if ← accept source '=' then return .token (.symbol .equalEqual)
    else return .token (.symbol .equal)
  | '<' => do
    if ← accept source '=' then return .token (.symbol .lessEqual)
    else return .token (.symbol .less)
  | '>' => do
    if ← accept source '=' then return .token (.symbol .greaterEqual)
    else return .token (.symbol .greater)
  | ' ' | '\r' | '\t' => return .skipped
  | '\n' => do
    modify fun cursor => { cursor with line := cursor.line + 1 }
    return .skipped
  | '/' => do
    if ← accept source '/' then
      comment source
      return .skipped
    else
      return .token (.symbol .slash)
  | '"' => string source
  | c =>
    if c.isDigit then number source
    else if Piece.isWordStart c then word source
    else unexpected source

/-- One turn: the end of the text, or the next piece. -/
def turn : Move (Option Item) := do
  let cursor ← get
  if cursor.curr = (bytes source).length then
    set { cursor with curr := cursor.curr + 1 }
    return some (.ok ⟨.endOfText, "", cursor.line⟩)
  else
    set { cursor with start := cursor.curr }
    let b ← advance source
    let reading ← dispatch source (Char.ofUInt8 b)
    let cursor ← get
    match reading with
    | .skipped => return none
    | .error cause => return some (.error ⟨cause, cursor.line⟩)
    | .token kind =>
      let text ← slice source cursor.start cursor.curr
      return some (.ok ⟨kind, text, cursor.line⟩)

end moves

/-! ## What the moves do between two characters -/

variable {source : String} {n start line : Nat} {c : Char} {cs : List Char}

theorem advance_ahead (h : Ahead source n (c :: cs)) :
    ∃ b ∈ String.utf8EncodeChar c, ∀ start line,
      advance source ⟨start, n, line⟩ = .ok b ⟨start, n + 1, line⟩ := by
  obtain ⟨b, bs, hbs⟩ := List.exists_cons_of_ne_nil (String.utf8EncodeChar_ne_nil (c := c))
  refine ⟨b, hbs ▸ List.mem_cons_self, fun start line => ?_⟩
  have hget : (bytes source)[n]? = some b := by
    rw [← Nat.add_zero n, ← List.getElem?_drop, h.drop_bytes, encode_cons, hbs]
    rfl
  have hindex : index source n ⟨start, n, line⟩ = .ok b ⟨start, n, line⟩ := by
    rw [index, hget]
    rfl
  rw [advance, get_bind, bind_ok hindex]
  rfl

theorem peek_eq (ahead : Nat) :
    peek source ahead ⟨start, n, line⟩ =
      .ok ((bytes source).getD (n + ahead) 0) ⟨start, n, line⟩ := by
  rw [peek, get_bind]
  split
  · next hlt =>
    rw [index, List.getD_eq_getElem?_getD, List.getElem?_eq_getElem hlt]
    rfl
  · next hge =>
    rw [List.getD_eq_getElem?_getD, List.getElem?_eq_none (Nat.le_of_not_lt hge)]
    rfl

theorem slice_ahead {piece rest : List Char} (h : Ahead source n (piece ++ rest))
    (cursor : Cursor) :
    slice source n (n + (encode piece).length) cursor = .ok (String.ofList piece) cursor := by
  rw [slice, h.slice]
  rfl

theorem drop_bytes_cons {b : UInt8} {bs : List UInt8} (hbs : (bytes source).drop n = b :: bs) :
    ∃ hlt : n < (bytes source).length,
      (bytes source)[n] = b ∧ (bytes source).drop (n + 1) = bs := by
  have hlt : n < (bytes source).length := by
    refine Nat.lt_of_not_le fun hle => ?_
    rw [List.drop_eq_nil_of_le hle] at hbs
    cases hbs
  rw [List.drop_eq_getElem_cons hlt] at hbs
  exact ⟨hlt, (List.cons.inj hbs).1, (List.cons.inj hbs).2⟩

theorem advanceWhile_eq {p : UInt8 → Bool} (hzero : p 0 = false) {bs : List UInt8}
    (hbs : (bytes source).drop n = bs) :
    advanceWhile source p ⟨start, n, line⟩ = .ok () ⟨start, n + (bs.takeWhile p).length, line⟩ := by
  -- on the bytes that are left, which may be those of half a character
  induction bs generalizing n with
  | nil =>
    have hge : ¬ n < (bytes source).length := Nat.not_lt.mpr (List.drop_eq_nil_iff.mp hbs)
    rw [advanceWhile, dif_neg hge, if_neg (by simp [hzero])]
    rfl
  | cons b bs ih =>
    obtain ⟨hlt, hb, hrest⟩ := drop_bytes_cons hbs
    rw [advanceWhile, dif_pos hlt, hb]
    split
    · next hp =>
      rw [ih hrest, List.takeWhile_cons_of_pos hp, List.length_cons, Nat.add_assoc, Nat.add_comm 1]
    · next hp =>
      rw [List.takeWhile_cons_of_neg hp]
      rfl

theorem advanceToQuote_eq {bs : List UInt8} (hbs : (bytes source).drop n = bs) :
    advanceToQuote source ⟨start, n, line⟩ = .ok ()
      ⟨start, n + (bs.takeWhile (· != '"'.toUInt8)).length,
        line + (bs.takeWhile (· != '"'.toUInt8)).count '\n'.toUInt8⟩ := by
  induction bs generalizing n line with
  | nil =>
    have hge : ¬ n < (bytes source).length := Nat.not_lt.mpr (List.drop_eq_nil_iff.mp hbs)
    rw [advanceToQuote, dif_neg hge]
    rfl
  | cons b bs ih =>
    obtain ⟨hlt, hb, hrest⟩ := drop_bytes_cons hbs
    rw [advanceToQuote, dif_pos hlt, hb]
    split
    · next hquote =>
      rw [List.takeWhile_cons_of_neg (by simp [hquote])]
      rfl
    next hquote =>
    rw [List.takeWhile_cons_of_pos (by simp [hquote]), List.length_cons, List.count_cons, ih hrest,
      ih hrest, Nat.add_right_comm, ← Nat.add_assoc]
    split
    · next hfeed => rw [if_pos (beq_iff_eq.mpr hfeed), Nat.add_right_comm line, ← Nat.add_assoc]
    · next hfeed =>
      rw [if_neg (by simpa using hfeed)]
      rfl

/-- A test that the byte 0 does not pass is read with as far as it goes over characters. -/
theorem advanceWhile_ahead {p : UInt8 → Bool} {q : Char → Bool} (h : Ahead source n cs)
    (hagrees : Agrees p q) (hzero : p 0 = false) (start line : Nat) :
    advanceWhile source p ⟨start, n, line⟩ =
      .ok () ⟨start, n + (encode (cs.takeWhile q)).length, line⟩ := by
  rw [advanceWhile_eq hzero h.drop_bytes, hagrees.takeWhile]

theorem advanceToQuote_ahead (h : Ahead source n cs) (start line : Nat) :
    advanceToQuote source ⟨start, n, line⟩ = .ok ()
      ⟨start, n + (encode (cs.takeWhile (· != '"'))).length,
        line + Token.lineFeeds (cs.takeWhile (· != '"'))⟩ := by
  have hagrees : Agrees (· != '"'.toUInt8) (· != '"') := (agrees_ascii (by decide)).not
  rw [advanceToQuote_eq h.drop_bytes, hagrees.takeWhile, count_encode (by decide), Token.lineFeeds]

theorem comment_ahead (h : Ahead source n cs) (start line : Nat) :
    comment source ⟨start, n, line⟩ =
      .ok () ⟨start, n + (encode (cs.takeWhile (· != '\n'))).length, line⟩ := by
  have hagrees : Agrees (· != '\n'.toUInt8) (· != '\n') := (agrees_ascii (by decide)).not
  rw [comment, get_bind, if_pos (by rw [h.length_bytes]; exact Nat.le_add_right ..), h.drop_bytes]
  have hindex : (encode cs).findIdx (· == '\n'.toUInt8) =
      (encode (cs.takeWhile (· != '\n'))).length := by
    rw [← hagrees.takeWhile, List.takeWhile_eq_take_findIdx_not, List.length_take,
      Nat.min_eq_left List.findIdx_le_length]
    simp only [bne, Bool.not_not]
  cases hfind : (encode cs).findIdx? (· == '\n'.toUInt8) with
  | none =>
    rw [← hindex, List.findIdx?_eq_none_iff_findIdx_eq.mp hfind, ← h.length_bytes]
    rfl
  | some k =>
    rw [← hindex, (List.findIdx?_eq_some_iff_findIdx_eq.mp hfind).2]
    rfl

theorem accept_ahead {d : Char} (h : Ahead source n cs) (hd : d.toNat < 128)
    (hzero : (0 == d.toUInt8) = false) (start line : Nat) :
    accept source d ⟨start, n, line⟩ =
      if cs.head? = some d then .ok true ⟨start, n + 1, line⟩ else .ok false ⟨start, n, line⟩ := by
  have htest := h.test (agrees_ascii hd) hzero
  rw [accept, get_bind, bind_ok (peek_eq 0), Nat.add_zero]
  by_cases hhead : cs.head? = some d
  · obtain ⟨rest, rfl⟩ := List.head?_eq_some_iff.mp hhead
    obtain ⟨b, -, hadvance⟩ := advance_ahead h
    rw [List.head?_cons, Option.any_some, beq_self_eq_true, beq_iff_eq] at htest
    rw [if_pos hhead, if_pos ⟨h.lt, htest⟩, bind_ok (hadvance start line)]
    rfl
  · have hne : (bytes source).getD n 0 ≠ d.toUInt8 := by
      rw [← beq_eq_false_iff_ne, htest]
      cases cs with
      | nil => rfl
      | cons c cs => simpa using hhead
    rw [if_neg hhead, if_neg fun hcond => hne hcond.2]
    rfl

end Cursor

end DivisionScript
