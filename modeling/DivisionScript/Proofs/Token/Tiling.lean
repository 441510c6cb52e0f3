import DivisionScript.Proofs.Token.Sweep

/-!
# Token — Tiling

A scan loses and invents nothing: the lexemes of its tokens and the texts that its errors cover, in
order, with gaps of white space and comments before, between and after them, are the text itself.
Every turn of the scan over bytes takes one of these parts, from one boundary between characters to
another.
-/

namespace DivisionScript

/-- A gap of white space and comments, before what comes after it. A comment goes on to a line feed
or to the end of the text. -/
inductive Gap (after : List Char) : List Char → Prop
  | nil : Gap after []
  | separator {c : Char} {gap : List Char} (hc : c ∈ [' ', '\t', '\r', '\n'])
      (hgap : Gap after gap) : Gap after (c :: gap)
  | comment {body gap : List Char} (hbody : '\n' ∉ body)
      (hstop : ∀ c ∈ (gap ++ after).head?, c = '\n') (hgap : Gap after gap) :
      Gap after ('/' :: '/' :: (body ++ gap))

/-- The items of a text tile it: a gap, the lexeme of a token or the text that an error covers, and
so on to the end, which has an empty lexeme. -/
inductive Tiles : List Item → List Char → Prop
  | finish {gap : List Char} (hgap : Gap [] gap) (line : Nat) :
      Tiles [.ok ⟨.endOfText, "", line⟩] gap
  | token {gap rest : List Char} {t : Token} {items : List Item}
      (hgap : Gap (t.lexeme.toList ++ rest) gap) (hlexeme : t.lexeme ≠ "")
      (hkind : t.kind ≠ .endOfText) (hrest : Tiles items rest) :
      Tiles (.ok t :: items) (gap ++ (t.lexeme.toList ++ rest))
  | error {gap covered rest : List Char} {e : LexicalError} {items : List Item}
      (hgap : Gap (covered ++ rest) gap) (hcovers : e.cause.Covers covered rest)
      (hrest : Tiles items rest) : Tiles (.error e :: items) (gap ++ (covered ++ rest))

/-- What a turn takes of a text, before `rest`: a gap, the lexeme of a token, or the text that an
error covers. -/
def Consumes (text rest : List Char) : Option Item → Prop
  | none => text ≠ [] ∧ Gap rest text
  | some (.ok t) => text ≠ [] ∧ t.lexeme = String.ofList text ∧ t.kind ≠ .endOfText
  | some (.error e) => e.cause.Covers text rest

/-- The longest comment goes on to a line feed or to the end. -/
theorem Longest.comment_stop {body rest : List Char}
    (h : Longest .comment ('/' :: '/' :: body) rest) :
    ∀ c ∈ rest.head?, c = '\n' := by
  intro c hc
  obtain ⟨more, rfl⟩ := List.head?_eq_some_iff.mp hc
  by_cases hfeed : c = '\n'
  · exact hfeed
  -- one more character would be a longer comment
  have hlexeme := h.isLexeme
  generalize htext : '/' :: '/' :: body = text at hlexeme
  cases hlexeme with
  | @comment body' hbody =>
    cases htext
    have hlonger : Lexeme .comment ('/' :: '/' :: (body ++ [c])) := by
      refine .comment fun hmem => ?_
      rcases List.mem_append.mp hmem with hmem | hmem
      · exact hbody hmem
      · exact hfeed (List.mem_singleton.mp hmem).symm
    have hle := h.length_le _ _ hlonger ⟨more, by simp⟩
    simp only [List.length_cons, List.length_append, List.length_nil] at hle
    omega

theorem LexicalClass.Denotes.ne_endOfText {cls : LexicalClass} {lexeme : List Char}
    {kind : TokenKind} (h : cls.Denotes lexeme (.token kind)) : kind ≠ .endOfText := by
  cases h <;> nofun

/-- A skipped lexeme makes the gap after it longer. -/
theorem gap_of_skipped {cls : LexicalClass} {lexeme gap after : List Char}
    (hlongest : Longest cls lexeme (gap ++ after)) (hdenotes : cls.Denotes lexeme .skipped)
    (hgap : Gap after gap) : Gap after (lexeme ++ gap) := by
  cases hdenotes with
  | separator =>
    cases hlongest.isLexeme with
    | separator hc => exact .separator hc hgap
  | comment =>
    cases hlongest.isLexeme with
    | comment hbody => exact .comment hbody hlongest.comment_stop hgap

/-- A skipped lexeme before a tiled text makes its first gap longer. -/
theorem Tiles.skip {cls : LexicalClass} {lexeme rest : List Char} {items : List Item}
    (h : Tiles items rest) (hlongest : Longest cls lexeme rest)
    (hdenotes : cls.Denotes lexeme .skipped) : Tiles items (lexeme ++ rest) := by
  -- the first gap grows, and what follows it stays as it is
  cases h with
  | finish hgap line =>
    rw [← List.append_nil rest] at hlongest
    exact .finish (gap_of_skipped hlongest hdenotes hgap) line
  | token hgap hlexeme hkind hrest =>
    rw [← List.append_assoc]
    exact .token (gap_of_skipped hlongest hdenotes hgap) hlexeme hkind hrest
  | error hgap hcovers hrest =>
    rw [← List.append_assoc]
    exact .error (gap_of_skipped hlongest hdenotes hgap) hcovers hrest

/-- The items of the longest lexemes tile a text. -/
theorem tiles_of_munches {line : Nat} {text : List Char} {items : List Item}
    (h : Munches line text items) : Tiles items text := by
  induction h with
  | finish line => exact .finish .nil line
  | skipped hlongest hdenotes _ ih => exact ih.skip hlongest hdenotes
  | @token line cls kind lexeme rest items hlongest hdenotes _ ih =>
    have htiles := Tiles.token (t := ⟨kind, String.ofList lexeme, line + Token.lineFeeds lexeme⟩)
      .nil (fun hempty => hlongest.isLexeme.ne_nil (String.ofList_eq_empty_iff.mp hempty))
      hdenotes.ne_endOfText ih
    rwa [String.toList_ofList] at htiles
  | error hnone hcovers _ ih => exact .error .nil hcovers ih

/-- A lexical piece is what a turn that gives its item takes. -/
theorem Piece.Lexical.consumes {piece : Piece} (h : piece.Lexical) (line : Nat) :
    Consumes piece.text piece.rest (piece.item? line) := by
  rw [Piece.item?]
  rcases h with ⟨cls, hlongest, hdenotes⟩ | ⟨cause, hcause, -, hcovers⟩
  · have hne := hlongest.isLexeme.ne_nil
    cases hreading : piece.reading with
    | skipped =>
      rw [hreading] at hdenotes
      refine ⟨hne, ?_⟩
      have hgap : Gap piece.rest (piece.text ++ []) := gap_of_skipped hlongest hdenotes .nil
      rwa [List.append_nil] at hgap
    | token kind =>
      rw [hreading] at hdenotes
      exact ⟨hne, rfl, hdenotes.ne_endOfText⟩
    | error cause => exact absurd hreading (hdenotes.ne_error cause)
  · rw [hcause]
    exact hcovers

namespace Cursor

variable {source : String} {cursor : Cursor}

/-- A turn that starts between two characters has no trap, and before the end of the text it takes
the characters from there to where the next turn starts. -/
theorem Between.takes (h : Between source cursor) :
    ∃ item next, Cursor.turn source cursor = .ok item next ∧
      (cursor.curr < (bytes source).length →
        ∃ text rest, slice? source cursor.curr next.curr = some (String.ofList text) ∧
          Ahead source next.curr rest ∧ Consumes text rest item) := by
  obtain ⟨start, n, line⟩ := cursor
  obtain ⟨-, -, text, hahead⟩ := h
  cases text with
  | nil =>
    have hend : (bytes source).length = n := hahead.length_bytes
    exact ⟨_, _, hahead.turn_nil start line, fun hlt => absurd hend (Nat.ne_of_gt hlt)⟩
  | cons c cs =>
    have htext : Ahead source n ((Piece.first c cs).text ++ (Piece.first c cs).rest) := by
      rwa [Piece.text_append_rest]
    exact ⟨_, _, hahead.turn start line, fun _ =>
      ⟨_, _, htext.slice, htext.advance, (Piece.lexical_first c cs).consumes _⟩⟩

end Cursor

/-- The items that the turns from the start of a text to its end give are those of a scan, and they
tile the text. Every turn starts with both ends of the cursor at boundaries between characters and
has no trap, and takes the characters from where it starts to where the next one does. -/
theorem scan_tiles_source (source : String) :
    (∀ items, Cursor.Scans source Cursor.first items ↔ items = Token.scan source) ∧
    Tiles (Token.scan source) source.toList ∧
    ∀ cursor, Cursor.Reaches source Cursor.first cursor → cursor.curr ≤ (bytes source).length →
      Boundary source cursor.start ∧ Boundary source cursor.curr ∧ cursor.start ≤ cursor.curr ∧
      ∃ item next, Cursor.turn source cursor = .ok item next ∧
        (cursor.curr < (bytes source).length →
          ∃ text rest, slice? source cursor.curr next.curr = some (String.ofList text) ∧
            Ahead source next.curr rest ∧ Consumes text rest item) := by
  have hscans := Cursor.scans_ahead 0 1 (Ahead.start source)
  refine ⟨fun items => ⟨fun h => h.unique hscans, ?_⟩, ?_, fun cursor hreaches hcurr => ?_⟩
  · rintro rfl
    exact hscans
  · exact tiles_of_munches (Token.munches_scanFrom 1 source.toList)
  · have hbetween := hreaches.between hcurr
    obtain ⟨text, hahead⟩ := hbetween.ahead
    exact ⟨hbetween.start_boundary, hahead.boundary, hbetween.start_le, hbetween.takes⟩

/-- After the two bytes of an accented letter, the next turn starts behind both, and takes a comment
up to the end of the text. -/
theorem comment_after_accent :
    let source := "é//ü"
    let cursor : Cursor := ⟨0, 2, 1⟩
    Cursor.Reaches source Cursor.first cursor ∧ ¬ Boundary source 1 ∧
    Boundary source cursor.start ∧ Boundary source cursor.curr ∧
    ∃ item next, Cursor.turn source cursor = .ok item next ∧
      ∃ text rest, slice? source cursor.curr next.curr = some (String.ofList text) ∧
        Ahead source next.curr rest ∧ Consumes text rest item := by
  intro source cursor
  have htext : source.toList = ['é', '/', '/', 'ü'] := by simp [source]
  have hahead : Ahead source 0 ['é', '/', '/', 'ü'] := ⟨[], htext, rfl⟩
  have hturn : Cursor.turn source Cursor.first = .ok (some (.error ⟨.unexpected 'é', 1⟩)) cursor :=
    hahead.turn 0 1
  have hreaches : Cursor.Reaches source Cursor.first cursor := .turn .here (by decide) hturn
  have hcurr : cursor.curr < (bytes source).length := by decide
  obtain ⟨hstart, hboundary, -, item, next, hturn, htakes⟩ :=
    (scan_tiles_source source).2.2 cursor hreaches (Nat.le_of_lt hcurr)
  exact ⟨hreaches, by decide, hstart, hboundary, item, next, hturn, htakes hcurr⟩

end DivisionScript
