import DivisionScript.Proofs.Token.Spacing
import DivisionScript.Proofs.Token.Span

/-!
# Token — Blanking

A character that starts no lexeme spoils nothing around it. Where a scan finds one, a blank in its
place gives the same items without that error. The pieces before the character are those of the
text with the blank: a lexeme that goes over the blank would be a string or a comment, a string that
starts before the character would have been one piece with it or an error of another kind, and a
comment would have gone over the character just as well.
-/

namespace DivisionScript

/-- The character that an error is about, if it is about one. -/
def LexicalCause.character? : LexicalCause → Option Char
  | unexpected c => some c
  | loneBang => some '!'
  | unterminatedString => none

variable {cls : LexicalClass} {lexeme rest before after more : List Char} {c : Char}

/-! ## Lexemes over a blank -/

/-- A lexeme that goes on over a blank has opened a string or a comment before it. -/
theorem Lexeme.over_blank (h : Lexeme cls (before ++ ' ' :: more)) (hne : before ≠ []) :
    (∃ body, before = '"' :: body ∧ '"' ∉ body) ∨
    ∃ body, before = '/' :: '/' :: body ∧ '\n' ∉ body := by
  have hsolid (hcls : cls.Solid) : False :=
    h.not_isSeparator hcls ' ' (List.mem_append_right _ List.mem_cons_self) rfl
  obtain ⟨d, ds, rfl⟩ := List.exists_cons_of_ne_nil hne
  generalize htext : d :: ds ++ ' ' :: more = text at h
  cases h with
  | symbol | integer | fraction | word => exact (hsolid trivial).elim
  | separator => simp at htext
  | @string body hbody =>
    obtain ⟨rfl, hsame⟩ : d = '"' ∧ ds ++ ' ' :: more = body ++ ['"'] := List.cons.inj htext
    -- the closing quote is no blank, so it stands after the one in question
    have hpre : ds <+: body := by
      rcases more.eq_nil_or_concat' with rfl | ⟨more, last, rfl⟩
      · cases (List.append_inj' hsame rfl).2
      · rw [← List.cons_append, ← List.append_assoc] at hsame
        exact ⟨_, (List.append_inj' hsame rfl).1⟩
    exact .inl ⟨ds, rfl, fun hmem => hbody (hpre.subset hmem)⟩
  | @comment body hbody =>
    obtain ⟨rfl, hsame⟩ : d = '/' ∧ ds ++ ' ' :: more = '/' :: body := List.cons.inj htext
    cases ds with
    | nil => cases hsame
    | cons e ds =>
      obtain ⟨rfl, rfl⟩ : e = '/' ∧ ds ++ ' ' :: more = body := List.cons.inj hsame
      exact .inr ⟨ds, rfl, fun hmem => hbody (List.mem_append_left _ hmem)⟩

/-- A prefix of a text ends before a place of it, or goes over the character there. -/
theorem prefix_before_or_over (h : lexeme <+: before ++ c :: after) :
    lexeme <+: before ∨ ∃ more, lexeme = before ++ c :: more := by
  rcases List.prefix_or_prefix_of_prefix h (List.prefix_append ..) with hwithin | ⟨tail, rfl⟩
  · exact .inl hwithin
  have htail : tail <+: c :: after := (List.prefix_append_right_inj before).mp h
  cases tail with
  | nil => exact .inl (by simp)
  | cons d tail =>
    obtain ⟨rfl, -⟩ := List.cons_prefix_cons.mp htail
    exact .inr ⟨tail, rfl⟩

/-- The longest lexeme stays the longest when a later character gives way to a blank. -/
theorem Longest.blank (h : Longest cls lexeme (rest ++ c :: after)) (hfeed : c ≠ '\n') :
    Longest cls lexeme (rest ++ ' ' :: after) := by
  refine ⟨h.isLexeme, fun cls' other h' hpre => ?_⟩
  rw [← List.append_assoc] at hpre
  rcases prefix_before_or_over hpre with hwithin | ⟨more, rfl⟩
  · refine h.length_le cls' other h' ?_
    rw [← List.append_assoc]
    exact hwithin.trans (List.prefix_append ..)
  obtain ⟨d, ds, rfl, hstart⟩ := h.isLexeme.start
  exfalso
  rcases h'.over_blank (by simp) with ⟨body, hbody, hquote⟩ | ⟨body, hbody, hline⟩
  · -- the lexeme is a string, whose closing quote would stand among what comes before the blank
    obtain ⟨rfl, hsame⟩ := List.cons.inj hbody
    cases cls.eq_string hstart.symm
    generalize hlexeme : '"' :: ds = lexeme at h
    cases h.isLexeme with
    | @string body' =>
      cases hlexeme
      exact hquote (by simp [← hsame])
  · -- the comment could go over the character as well
    have hlonger : Lexeme .comment ('/' :: '/' :: (body ++ [c])) := by
      refine .comment fun hmem => ?_
      rcases List.mem_append.mp hmem with hmem | hmem
      · exact hline hmem
      · exact hfeed (List.mem_singleton.mp hmem).symm
    have htext : '/' :: '/' :: (body ++ [c]) = d :: ds ++ (rest ++ [c]) := by
      rw [← List.append_assoc, hbody]
      rfl
    have hle := h.length_le _ _ hlonger ⟨after, by rw [htext]; simp⟩
    rw [htext, List.length_append, List.length_append, List.length_singleton] at hle
    omega

/-- Where no lexeme starts and no string is open, none starts when a later character gives way to a
blank. -/
theorem Unlexical.blank {d : Char} (h : Unlexical (d :: before ++ c :: after)) (hquote : d ≠ '"') :
    Unlexical (d :: before ++ ' ' :: after) := by
  intro cls lexeme hlexeme hpre
  rcases prefix_before_or_over hpre with hwithin | ⟨more, rfl⟩
  · exact h cls lexeme hlexeme (hwithin.trans (List.prefix_append ..))
  rcases hlexeme.over_blank (List.cons_ne_nil d before) with ⟨body, hbody, -⟩ | ⟨body, hbody, -⟩
  · exact hquote (List.cons.inj hbody).1
  · -- a slash is a lexeme
    cases hbody
    exact h (.symbol .slash) ['/'] (.symbol .slash) ⟨_, rfl⟩

/-- The piece before a character that is no line feed is the piece before a blank in its place. -/
theorem Piece.Lexical.blank {reading : Reading} {text : List Char}
    (h : Piece.Lexical ⟨reading, text, rest ++ c :: after⟩) (hfeed : c ≠ '\n') :
    Piece.Lexical ⟨reading, text, rest ++ ' ' :: after⟩ := by
  rcases h with ⟨cls, hlongest, hdenotes⟩ | ⟨cause, hcause, hnone, hcovers⟩
  · exact .inl ⟨cls, hlongest.blank hfeed, hdenotes⟩
  · dsimp only at hnone hcovers hcause
    cases cause with
    | unexpected d =>
      obtain ⟨rfl, hbang, hquote⟩ := hcovers
      have hblank : Unlexical (d :: rest ++ ' ' :: after) := .blank (c := c) hnone hquote
      exact .inr ⟨.unexpected d, hcause, hblank, rfl, hbang, hquote⟩
    | loneBang =>
      cases hcovers
      have hblank : Unlexical ('!' :: rest ++ ' ' :: after) := .blank (c := c) hnone (by decide)
      exact .inr ⟨.loneBang, hcause, hblank, rfl⟩
    | unterminatedString =>
      -- an open string takes the whole text
      exact absurd hcovers.1 (by simp)

/-- The piece of an error about a character is this character, and no line feed. -/
theorem Piece.Lexical.of_character {piece : Piece} {cause : LexicalCause} (h : piece.Lexical)
    (hreading : piece.reading = .error cause) (hc : cause.character? = some c) :
    piece.text = [c] ∧ c ≠ '\n' := by
  rcases h with ⟨cls, -, hdenotes⟩ | ⟨cause', hcause, hnone, hcovers⟩
  · exact absurd hreading (hdenotes.ne_error cause)
  cases hreading.symm.trans hcause
  have htext : piece.text = [c] := by
    cases cause with
    | unexpected d =>
      cases hc
      exact hcovers.1
    | loneBang =>
      cases hc
      exact hcovers
    | unterminatedString => cases hc
  refine ⟨htext, ?_⟩
  rintro rfl
  rw [htext] at hnone
  exact hnone .separator ['\n'] (.separator (by decide)) ⟨_, rfl⟩

/-! ## Scans of a text with a blank -/

namespace Token

/-- A scan takes a lexical piece and goes on behind it. -/
theorem scanFrom_of_lexical {piece : Piece} (h : piece.Lexical) (hne : piece.text ≠ [])
    (line : Nat) :
    scanFrom line (piece.text ++ piece.rest) =
      (piece.item? (line + lineFeeds piece.text)).toList ++
        scanFrom (line + lineFeeds piece.text) piece.rest := by
  obtain ⟨c, cs, hcs, hfirst⟩ := h.eq_first hne
  rw [hcs, Cursor.scanFrom_cons, hfirst]

theorem scanFrom_blank (line : Nat) (text : List Char) :
    scanFrom line (' ' :: text) = scanFrom line text := by
  rw [scanFrom]
  rfl

end Token

/-- The character `c`, which is no line feed, stands from byte `start` to byte `stop` of a text from
byte `n` on. With a blank in its place, a scan that starts on the given line has these items. -/
def Blanked (n line : Nat) (text : List Char) (c : Char) (start stop : Nat)
    (items : List Item) : Prop :=
  c ≠ '\n' ∧ ∃ before after, text = before ++ c :: after ∧
    start = n + (encode before).length ∧ stop = start + (encode [c]).length ∧
    Token.scanFrom line (before ++ ' ' :: after) = items

section pieces

variable {n line start stop : Nat} {d : Char} {ds : List Char} {items : List Item}

/-- A character that gives way behind a piece leaves the piece as it is. -/
theorem Blanked.behind
    (h : Blanked (n + (encode (Piece.first d ds).text).length)
      (line + Token.lineFeeds (Piece.first d ds).text) (Piece.first d ds).rest c start stop items) :
    Blanked n line (d :: ds) c start stop
      (((Piece.first d ds).item? (line + Token.lineFeeds (Piece.first d ds).text)).toList ++
        items) := by
  obtain ⟨hfeed, before, after, hrest, rfl, rfl, rfl⟩ := h
  have hpiece : Piece.Lexical
      ⟨(Piece.first d ds).reading, (Piece.first d ds).text, before ++ c :: after⟩ := by
    rw [← hrest]
    exact Piece.lexical_first d ds
  have hscan := Token.scanFrom_of_lexical (hpiece.blank hfeed) (Piece.text_ne_nil d ds) line
  refine ⟨hfeed, (Piece.first d ds).text ++ before, after, ?_, ?_, rfl, ?_⟩
  · rw [List.append_assoc, ← hrest, Piece.text_append_rest]
  · rw [encode_append, List.length_append, Nat.add_assoc]
  · rw [List.append_assoc]
    exact hscan

/-- An error about a character at the start of a text goes with the character. -/
theorem Blanked.here {e : LexicalError} {after : Nat}
    (hitem : (Piece.first d ds).item? after = some (.error e)) (hc : e.cause.character? = some c) :
    Blanked n line (d :: ds) c n (n + (encode (Piece.first d ds).text).length)
      (Token.scanFrom (line + Token.lineFeeds (Piece.first d ds).text)
        (Piece.first d ds).rest) := by
  have hreading : (Piece.first d ds).reading = .error e.cause := by
    rw [Piece.item?] at hitem
    cases hreading : (Piece.first d ds).reading with
    | skipped | token =>
      rw [hreading] at hitem
      cases hitem
    | error cause =>
      rw [hreading] at hitem
      cases hitem
      rfl
  obtain ⟨htext, hfeed⟩ := (Piece.lexical_first d ds).of_character hreading hc
  have happend := Piece.text_append_rest d ds
  rw [htext] at happend ⊢
  have hfeeds : Token.lineFeeds [c] = 0 := Cursor.lineFeeds_eq_zero (by simpa using hfeed)
  rw [hfeeds]
  exact ⟨hfeed, [], _, happend.symm, rfl, rfl, Token.scanFrom_blank line _⟩

end pieces

namespace Cursor

variable {source : String} {cursor : Cursor} {spans : List Span}

theorem Marks.eq_nil (h : Marks source cursor spans)
    (hcurr : (bytes source).length < cursor.curr) : spans = [] := by
  cases h with
  | ended => rfl
  | skipped hcurr' | item hcurr' => exact absurd hcurr (Nat.not_lt.mpr hcurr')

/-- The span of an error about a character is where the character stands, and with a blank there a
scan of what is left gives the same items without the error. -/
theorem Marks.blanked {text : List Char} (h : Marks source cursor spans)
    (hahead : Ahead source cursor.curr text) {i start stop : Nat} {e : LexicalError}
    (hspan : spans[i]? = some ⟨.error e, start, stop⟩) (hc : e.cause.character? = some c) :
    Blanked cursor.curr cursor.line text c start stop
      ((Token.scanFrom cursor.line text).eraseIdx i) := by
  -- on the turns, each of which takes the piece at the start of what is left
  induction h generalizing text i with
  | ended => simp at hspan
  | @skipped cursor next spans hcurr hturn _ ih =>
    obtain ⟨first, n, line⟩ := cursor
    cases text with
    | nil => cases hturn.symm.trans (hahead.turn_nil first line)
    | cons d ds =>
      obtain ⟨hitem, rfl⟩ := EStateM.Result.ok.inj (hturn.symm.trans (hahead.turn first line))
      rw [← Piece.text_append_rest d ds] at hahead
      have hbehind := (ih hahead.advance hspan).behind
      rw [scanFrom_cons, ← hitem]
      rwa [← hitem] at hbehind
  | @item cursor next item spans hcurr hturn hmarks ih =>
    obtain ⟨first, n, line⟩ := cursor
    cases text with
    | nil =>
      -- the end of the text is no error, and nothing comes after it
      obtain ⟨hitem, rfl⟩ := EStateM.Result.ok.inj (hturn.symm.trans (hahead.turn_nil first line))
      have hend : (bytes source).length = n := hahead.length_bytes
      cases hmarks.eq_nil (hend ▸ Nat.lt_succ_self n)
      cases hitem
      cases i <;> simp at hspan
    | cons d ds =>
      obtain ⟨hitem, rfl⟩ := EStateM.Result.ok.inj (hturn.symm.trans (hahead.turn first line))
      rw [scanFrom_cons, ← hitem]
      cases i with
      | zero =>
        cases hspan
        exact .here hitem.symm hc
      | succ i =>
        rw [← Piece.text_append_rest d ds] at hahead
        have hbehind := (ih hahead.advance hspan).behind
        rwa [← hitem] at hbehind

end Cursor

/-- A character that starts no lexeme is no more than a blank with an error. The turns of a scan
take spans of the text. Where the item of a span is an error about a character, the span is that
character of the text, and with a blank in its place a scan gives the same items in the same order,
with the same texts, payloads and lines, without that error. -/
theorem stray_character_is_blank (source : String) :
    ∃ spans, Cursor.Marks source Cursor.first spans ∧ spans.map Span.item = Token.scan source ∧
      ∀ i e start stop c, spans[i]? = some ⟨.error e, start, stop⟩ →
        e.cause.character? = some c →
        ∃ before after, source.toList = before ++ c :: after ∧
          start = (encode before).length ∧ stop = start + (encode [c]).length ∧
          Token.scan (String.ofList (before ++ ' ' :: after)) =
            (Token.scan source).eraseIdx i := by
  obtain ⟨spans, hmarks, hitems, -⟩ := Cursor.marks_first source
  refine ⟨spans, hmarks, hitems, fun i e start stop c hspan hc => ?_⟩
  obtain ⟨-, before, after, htext, hstart, hstop, hscan⟩ :=
    hmarks.blanked (Ahead.start source) hspan hc
  refine ⟨before, after, htext, ?_, hstop, ?_⟩
  · rw [hstart]
    exact Nat.zero_add _
  · rw [Token.scan, String.toList_ofList]
    exact hscan

/-- An accented letter of two bytes stands between an exclamation mark and the equals sign that it
parts from it. Both are errors, and the second goes with the letter. -/
theorem accent_is_blank :
    let source := "<!é="
    let text := "<! ="
    let less : Item := .ok ⟨.symbol .less, "<", 1⟩
    let bang : Item := .error ⟨.loneBang, 1⟩
    let equal : Item := .ok ⟨.symbol .equal, "=", 1⟩
    let finish : Item := .ok ⟨.endOfText, "", 1⟩
    Token.scan source = [less, bang, .error ⟨.unexpected 'é', 1⟩, equal, finish] ∧
    Token.scan text = [less, bang, equal, finish] := by
  intro source text less bang equal finish
  have hscan : Token.scan source =
      [less, bang, .error ⟨.unexpected 'é', 1⟩, equal, finish] := by
    simp [Token.scan, Token.scanFrom, Token.lineFeeds, Piece.first, Piece.isSeparator,
      Piece.isWordStart, Piece.symbol?, Piece.cut, Symbol.spelling, source, less, bang, equal,
      finish]
  refine ⟨hscan, ?_⟩
  obtain ⟨spans, -, hitems, hblank⟩ := stray_character_is_blank source
  have hitem : (spans[2]?).map Span.item = some (.error ⟨.unexpected 'é', 1⟩) := by
    rw [← List.getElem?_map, hitems, hscan]
    rfl
  obtain ⟨⟨_, start, stop⟩, hspan, rfl⟩ := Option.map_eq_some_iff.mp hitem
  obtain ⟨before, after, htext, -, -, hsame⟩ := hblank 2 _ start stop 'é' hspan rfl
  obtain ⟨rfl, rfl⟩ : before = ['<', '!'] ∧ after = ['='] := by
    simpa [List.cons_eq_append_iff, source] using htext
  rw [hscan] at hsame
  exact hsame

end DivisionScript
