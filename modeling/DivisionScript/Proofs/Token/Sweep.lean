import DivisionScript.Proofs.Token.Turn

/-!
# Token — Sweep

The turns of the scan over bytes from the start of a text to its end. They give the items of
`Token.scan`, and each of them starts with the cursor between two characters.
-/

namespace DivisionScript

namespace Cursor

variable {source : String} {cursor next : Cursor} {items : List Item}

/-- The items that the turns from a cursor on give, until the text has ended. -/
inductive Scans (source : String) : Cursor → List Item → Prop
  | ended {cursor : Cursor} (hcurr : (bytes source).length < cursor.curr) : Scans source cursor []
  | turn {cursor next : Cursor} {item : Option Item} {items : List Item}
      (hcurr : cursor.curr ≤ (bytes source).length)
      (hturn : Cursor.turn source cursor = .ok item next) (hrest : Scans source next items) :
      Scans source cursor (item.toList ++ items)

/-- The cursors that turns from a cursor on come to. -/
inductive Reaches (source : String) (cursor : Cursor) : Cursor → Prop
  | here : Reaches source cursor cursor
  | turn {mid next : Cursor} {item : Option Item} (hmid : Reaches source cursor mid)
      (hcurr : mid.curr ≤ (bytes source).length)
      (hturn : Cursor.turn source mid = .ok item next) : Reaches source cursor next

/-- The turns give one list of items. -/
theorem Scans.unique {items' : List Item} (h : Scans source cursor items)
    (h' : Scans source cursor items') : items = items' := by
  induction h generalizing items' with
  | ended hcurr =>
    cases h' with
    | ended => rfl
    | turn hcurr' => exact absurd hcurr (Nat.not_lt.mpr hcurr')
  | turn hcurr hturn _ ih =>
    cases h' with
    | ended hcurr' => exact absurd hcurr' (Nat.not_lt.mpr hcurr)
    | turn _ hturn' hrest' =>
      cases hturn.symm.trans hturn'
      rw [ih hrest']

/-- A scan gives the item of the first piece, if it has one, and goes on behind it. -/
theorem scanFrom_cons (line : Nat) (c : Char) (cs : List Char) :
    Token.scanFrom line (c :: cs) =
      ((Piece.first c cs).item? (line + Token.lineFeeds (Piece.first c cs).text)).toList ++
        Token.scanFrom (line + Token.lineFeeds (Piece.first c cs).text)
          (Piece.first c cs).rest := by
  rw [Token.scanFrom, Piece.item?]
  cases (Piece.first c cs).reading <;> rfl

/-- Between two characters, the turns give the items of a scan of what is left. -/
theorem scans_ahead {n : Nat} {text : List Char} (start line : Nat) (h : Ahead source n text) :
    Scans source ⟨start, n, line⟩ (Token.scanFrom line text) := by
  -- on the length of what is left, which every piece makes shorter
  induction hlength : text.length using Nat.strong_induction_on generalizing n start line text with
  | h length ih =>
  cases text with
  | nil =>
    rw [Token.scanFrom]
    have hend : (bytes source).length = n := h.length_bytes
    exact .turn (Nat.le_of_eq hend.symm) (h.turn_nil start line)
      (.ended (hend ▸ Nat.lt_succ_self n))
  | cons c cs =>
    have hturn := h.turn start line
    have htext : Ahead source n ((Piece.first c cs).text ++ (Piece.first c cs).rest) := by
      rwa [Piece.text_append_rest]
    have hrest := ih _ (hlength ▸ Piece.length_rest_lt c cs) n
      (line + Token.lineFeeds (Piece.first c cs).text) htext.advance rfl
    rw [scanFrom_cons]
    exact .turn (Nat.le_of_lt h.lt) hturn hrest

/-- The cursors of a scan that has not ended: the piece in hand starts at a boundary, and so does
what is left of the text. -/
structure Between (source : String) (cursor : Cursor) : Prop where
  start_boundary : Boundary source cursor.start
  start_le : cursor.start ≤ cursor.curr
  ahead : ∃ text, Ahead source cursor.curr text

/-- A turn that does not end the text goes on between two characters. -/
theorem Between.turn {item : Option Item} (h : Between source cursor)
    (hturn : Cursor.turn source cursor = .ok item next)
    (hcurr : next.curr ≤ (bytes source).length) : Between source next := by
  obtain ⟨start, n, line⟩ := cursor
  obtain ⟨-, -, text, hahead⟩ := h
  -- only the turn at the end of the text leaves the cursor behind the end
  cases text with
  | nil =>
    cases hturn.symm.trans (hahead.turn_nil start line)
    have hend : (bytes source).length = n := hahead.length_bytes
    exact absurd hcurr (Nat.not_le.mpr (hend ▸ Nat.lt_succ_self n))
  | cons c cs =>
    cases hturn.symm.trans (hahead.turn start line)
    have htext : Ahead source n ((Piece.first c cs).text ++ (Piece.first c cs).rest) := by
      rwa [Piece.text_append_rest]
    exact ⟨hahead.boundary, Nat.le_add_right .., _, htext.advance⟩

theorem Reaches.between (h : Reaches source first cursor)
    (hcurr : cursor.curr ≤ (bytes source).length) : Between source cursor := by
  induction h with
  | here => exact ⟨(Ahead.start source).boundary, Nat.le_refl _, _, Ahead.start source⟩
  | turn hmid hcurr' hturn ih => exact (ih hcurr').turn hturn hcurr

end Cursor

end DivisionScript
