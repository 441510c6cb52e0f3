import DivisionScript.Proofs.Token.Tiling

/-!
# Token — Span

Where the items of a scan stand. A span is an item with the stretch of bytes that its turn took, and
`Cursor.Marks` lists the spans that the turns of a scan take. `lineAt` counts line feeds in the text
itself, without a counter that a scan would carry along; `Cursor.marks_ahead` says that the counter
agrees with it: at the end of every item, and at its start unless the item is a string.
-/

namespace DivisionScript

/-- The line of a byte of a text: one more than the line feeds before it. -/
def lineAt (source : String) (n : Nat) : Nat :=
  1 + ((bytes source).take n).count '\n'.toUInt8

/-- The line of an item of a scan. -/
def Item.line : Item → Nat
  | .ok t => t.line
  | .error e => e.line

/-- An item of a scan, the byte at which its text starts and the one after it. -/
structure Span where
  item : Item
  start : Nat
  stop : Nat

/-- The token of a span, with the line on which its text starts. -/
def Span.opening? (source : String) (span : Span) : Option Token :=
  match span.item with
  | .ok t => some { t with line := lineAt source span.start }
  | .error _ => none

/-- The spans that the turns from a cursor on take, until the text has ended. -/
inductive Cursor.Marks (source : String) : Cursor → List Span → Prop
  | ended {cursor : Cursor} (hcurr : (bytes source).length < cursor.curr) : Marks source cursor []
  | skipped {cursor next : Cursor} {spans : List Span} (hcurr : cursor.curr ≤ (bytes source).length)
      (hturn : Cursor.turn source cursor = .ok none next) (hrest : Marks source next spans) :
      Marks source cursor spans
  | item {cursor next : Cursor} {item : Item} {spans : List Span}
      (hcurr : cursor.curr ≤ (bytes source).length)
      (hturn : Cursor.turn source cursor = .ok (some item) next) (hrest : Marks source next spans) :
      Marks source cursor (⟨item, cursor.curr, next.curr⟩ :: spans)

/-- A token has the text of its span. The line of an item is the one on which its text ends; a token
that is no string starts on the same line. -/
structure Span.Located (source : String) (span : Span) : Prop where
  slice_eq : ∀ t, span.item = .ok t → t.kind ≠ .endOfText →
    slice? source span.start span.stop = some t.lexeme
  line_stop : span.item.line = lineAt source span.stop
  line_start : ∀ t, span.item = .ok t → t.shape ≠ .string → t.line = lineAt source span.start

variable {source : String} {n : Nat}

/-! ## Lines -/

theorem Ahead.lineAt_advance {piece rest : List Char} (h : Ahead source n (piece ++ rest)) :
    lineAt source (n + (encode piece).length) = lineAt source n + Token.lineFeeds piece := by
  rw [lineAt, lineAt, List.take_add, h.drop_bytes, encode_append, List.take_left, List.count_append,
    count_encode (by decide), Token.lineFeeds, Nat.add_assoc]

/-- The last line is one more than all line feeds. -/
theorem lineAt_of_length_le (h : (bytes source).length ≤ n) :
    lineAt source n = 1 + Token.lineFeeds source.toList := by
  rw [lineAt, List.take_of_length_le h, bytes_eq_encode, count_encode (by decide), Token.lineFeeds]

/-- Only strings and what is skipped hold line feeds. -/
theorem Lexeme.lineFeeds_eq_zero {cls : LexicalClass} {lexeme : List Char} (h : Lexeme cls lexeme)
    (hcls : (∃ s, cls = .symbol s) ∨ cls = .number ∨ cls = .word) :
    Token.lineFeeds lexeme = 0 := by
  refine Cursor.lineFeeds_eq_zero fun c hc => ?_
  cases h with
  | separator | comment | string => simp at hcls
  | symbol s =>
    rintro rfl
    cases s <;> simp [Symbol.spelling] at hc
  | integer hd hdigits =>
    rcases List.mem_cons.mp hc with rfl | hc
    · exact Cursor.ne_of_isDigit hd
    · exact Cursor.ne_of_isDigit (hdigits c hc)
  | fraction hd hbefore hd' hafter =>
    simp only [List.mem_cons, List.mem_append] at hc
    rcases hc with rfl | hc | rfl | rfl | hc
    · exact Cursor.ne_of_isDigit hd
    · exact Cursor.ne_of_isDigit (hbefore c hc)
    · decide
    · exact Cursor.ne_of_isDigit hd'
    · exact Cursor.ne_of_isDigit (hafter c hc)
  | word hd hword =>
    rintro rfl
    rcases List.mem_cons.mp hc with rfl | hc
    · revert hd
      decide
    · have hpart := hword _ hc
      revert hpart
      decide

/-- The lexeme of a token that is no string stands on one line. -/
theorem LexicalClass.Denotes.lineFeeds_eq_zero {cls : LexicalClass} {lexeme : List Char}
    {kind : TokenKind} (h : cls.Denotes lexeme (.token kind)) (hlexeme : Lexeme cls lexeme)
    (hkind : kind.shape ≠ .string) : Token.lineFeeds lexeme = 0 := by
  cases h with
  | symbol s => exact hlexeme.lineFeeds_eq_zero (.inl ⟨s, rfl⟩)
  | string body => exact absurd rfl hkind
  | number => exact hlexeme.lineFeeds_eq_zero (.inr (.inl rfl))
  | keyword | identifier => exact hlexeme.lineFeeds_eq_zero (.inr (.inr rfl))

/-- The item of a lexical piece has the line on which the piece ends, and starts on it unless it is
a string. -/
theorem Piece.Lexical.located {piece : Piece} {item : Item} (h : piece.Lexical)
    (hahead : Ahead source n (piece.text ++ piece.rest))
    (hitem : piece.item? (lineAt source n + Token.lineFeeds piece.text) = some item) :
    Span.Located source ⟨item, n, n + (encode piece.text).length⟩ := by
  rw [Piece.item?] at hitem
  cases hreading : piece.reading with
  | skipped =>
    rw [hreading] at hitem
    cases hitem
  | error cause =>
    rw [hreading] at hitem
    cases hitem
    refine ⟨?_, hahead.lineAt_advance.symm, ?_⟩ <;> rintro t ⟨⟩
  | token kind =>
    rw [hreading] at hitem
    cases hitem
    refine ⟨fun t ht _ => ?_, hahead.lineAt_advance.symm, fun t ht hshape => ?_⟩ <;> cases ht
    · exact hahead.slice
    rcases h with ⟨cls, hlongest, hdenotes⟩ | ⟨cause, hcause, -⟩
    · rw [hreading] at hdenotes
      rw [hdenotes.lineFeeds_eq_zero hlongest.isLexeme hshape]
      rfl
    · rw [hreading] at hcause
      cases hcause

/-! ## Spans -/

namespace Cursor

variable {cursor : Cursor} {spans : List Span}

/-- The items of the spans are those that the turns give. -/
theorem Marks.scans (h : Marks source cursor spans) :
    Scans source cursor (spans.map Span.item) := by
  induction h with
  | ended hcurr => exact .ended hcurr
  | skipped hcurr hturn _ ih => exact .turn hcurr hturn ih
  | item hcurr hturn _ ih => exact .turn hcurr hturn ih

/-- A turn that starts with the counter right leaves it right. The induction is on the length of
what is left of the text. -/
theorem marks_ahead {text : List Char} (start : Nat) (h : Ahead source n text) :
    ∃ spans, Marks source ⟨start, n, lineAt source n⟩ spans ∧
      ∀ span ∈ spans, span.Located source := by
  induction hlength : text.length using Nat.strong_induction_on generalizing n start text with
  | h length ih =>
  cases text with
  | nil =>
    have hend : (bytes source).length = n := h.length_bytes
    have hlast : lineAt source n = lineAt source (n + 1) := by
      rw [lineAt_of_length_le (Nat.le_of_eq hend),
        lineAt_of_length_le (hend ▸ Nat.le_succ n)]
    refine ⟨_, .item (Nat.le_of_eq hend.symm) (h.turn_nil start _)
      (.ended (hend ▸ Nat.lt_succ_self n)), fun span hspan => ?_⟩
    rw [List.mem_singleton.mp hspan]
    refine ⟨fun t ht hkind => ?_, hlast, fun t ht _ => ?_⟩ <;> cases ht
    · exact absurd rfl hkind
    · rfl
  | cons c cs =>
    have hcurr : n ≤ (bytes source).length := Nat.le_of_lt h.lt
    have hturn := h.turn start (lineAt source n)
    dsimp only at hturn
    have hahead : Ahead source n ((Piece.first c cs).text ++ (Piece.first c cs).rest) := by
      rwa [Piece.text_append_rest]
    obtain ⟨spans, hmarks, hlocated⟩ :=
      ih _ (hlength ▸ Piece.length_rest_lt c cs) n hahead.advance rfl
    rw [hahead.lineAt_advance] at hmarks
    cases hitem : (Piece.first c cs).item?
        (lineAt source n + Token.lineFeeds (Piece.first c cs).text) with
    | none =>
      rw [hitem] at hturn
      exact ⟨spans, .skipped hcurr hturn hmarks, hlocated⟩
    | some item =>
      rw [hitem] at hturn
      refine ⟨_, .item hcurr hturn hmarks, fun span hspan => ?_⟩
      rcases List.mem_cons.mp hspan with rfl | hspan
      · exact (Piece.lexical_first c cs).located hahead hitem
      · exact hlocated span hspan

theorem marks_first (source : String) :
    ∃ spans, Marks source first spans ∧ spans.map Span.item = Token.scan source ∧
      ∀ span ∈ spans, span.Located source := by
  obtain ⟨spans, hmarks, hlocated⟩ := marks_ahead 0 (Ahead.start source)
  exact ⟨spans, hmarks, hmarks.scans.unique (scans_ahead 0 1 (Ahead.start source)), hlocated⟩

end Cursor

end DivisionScript
