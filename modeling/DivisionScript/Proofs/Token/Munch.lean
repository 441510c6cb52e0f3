import DivisionScript.Proofs.Token.Longest

/-!
# Token — Munch

A text has one reading by the longest lexemes, and a scan gives it: `scan_takes_longest_lexemes`.
The classes have no lexeme in common, so the lexeme of a token determines its kind.
-/

namespace DivisionScript

/-! ## One reading of a text -/

theorem Keyword.spelling_inj {k k' : Keyword} (h : k.spelling = k'.spelling) : k = k' := by
  have hk := Keyword.ofSpelling?_spelling k
  rw [h, Keyword.ofSpelling?_spelling] at hk
  exact (Option.some.inj hk).symm

theorem Symbol.spelling_inj {s s' : Symbol} (h : s.spelling = s'.spelling) : s = s' := by
  revert h
  cases s <;> cases s' <;> decide

theorem not_lexeme_comment_spelling (s : Symbol) : ¬ Lexeme .comment s.spelling := by
  intro h
  cases s <;> nomatch h

/-- The classes have no lexeme in common. -/
theorem Lexeme.class_unique {cls cls' : LexicalClass} {lexeme : List Char} (h : Lexeme cls lexeme)
    (h' : Lexeme cls' lexeme) : cls = cls' := by
  obtain ⟨c, cs, rfl, hstart⟩ := h.start
  have hstart' := h'.start_of_prefix (List.prefix_refl _)
  have hsame : cls'.start = cls.start := hstart'.trans hstart
  -- the first character leaves one class, except that marks start comments and symbols
  cases cls with
  | separator => exact (cls'.eq_separator hsame).symm
  | string => exact (cls'.eq_string hsame).symm
  | number => exact (cls'.eq_number hsame).symm
  | word => exact (cls'.eq_word hsame).symm
  | comment =>
    rcases cls'.eq_comment_or_symbol hsame with rfl | ⟨s, rfl⟩
    · rfl
    · generalize hlexeme : c :: cs = lexeme at h h'
      cases h'
      exact absurd h (not_lexeme_comment_spelling s)
  | symbol s =>
    generalize hlexeme : c :: cs = lexeme at h h'
    cases h
    rcases cls'.eq_comment_or_symbol hsame with rfl | ⟨s', rfl⟩
    · exact absurd h' (not_lexeme_comment_spelling s)
    · generalize hspelling : s.spelling = lexeme at h'
      cases h'
      rw [Symbol.spelling_inj hspelling]

/-- A lexeme of a class has one reading. -/
theorem LexicalClass.Denotes.unique {cls : LexicalClass} {lexeme : List Char} {r r' : Reading}
    (h : cls.Denotes lexeme r) (h' : cls.Denotes lexeme r') : r = r' := by
  cases h with
  | separator | comment | symbol => cases h'; rfl
  | string body =>
    generalize hlexeme : '"' :: (body ++ ['"']) = lexeme at h'
    cases h' with
    | string body' =>
      rw [List.append_cancel_right (List.cons.inj hlexeme).2]
  | number hx =>
    cases h' with
    | number hx' => rw [Option.some.inj (hx.symm.trans hx')]
  | keyword k =>
    generalize hlexeme : k.spelling.toList = lexeme at h'
    cases h' with
    | keyword k' => rw [Keyword.spelling_inj (String.toList_inj.mp hlexeme)]
    | identifier hnone => exact absurd hlexeme (hnone k)
  | identifier hnone =>
    cases h' with
    | keyword k => exact absurd rfl (hnone k)
    | identifier => rfl

theorem LexicalClass.Denotes.ne_error {cls : LexicalClass} {lexeme : List Char} {r : Reading}
    (h : cls.Denotes lexeme r) (cause : LexicalCause) : r ≠ .error cause := by
  cases h <;> nofun

/-- Texts have one longest lexeme. -/
theorem Longest.unique {cls cls' : LexicalClass} {lexeme lexeme' rest rest' : List Char}
    (h : Longest cls lexeme rest) (h' : Longest cls' lexeme' rest')
    (htext : lexeme ++ rest = lexeme' ++ rest') : cls = cls' ∧ lexeme = lexeme' ∧ rest = rest' := by
  have hle := h.length_le cls' lexeme' h'.isLexeme ⟨rest', htext.symm⟩
  have hge := h'.length_le cls lexeme h.isLexeme ⟨rest, htext⟩
  obtain ⟨rfl, rfl⟩ := List.append_inj htext (Nat.le_antisymm hge hle)
  exact ⟨h.isLexeme.class_unique h'.isLexeme, rfl, rfl⟩

/-- Texts have one error, if they start with one. -/
theorem LexicalCause.Covers.unique {cause cause' : LexicalCause}
    {covered covered' rest rest' : List Char} (h : cause.Covers covered rest)
    (h' : cause'.Covers covered' rest') (htext : covered ++ rest = covered' ++ rest') :
    cause = cause' ∧ covered = covered' ∧ rest = rest' := by
  cases cause with
  | unexpected c =>
    obtain ⟨rfl, hbang, hquote⟩ := h
    cases cause' with
    | unexpected c' =>
      obtain ⟨rfl, -, -⟩ := h'
      cases htext
      exact ⟨rfl, rfl, rfl⟩
    | loneBang =>
      cases h'
      cases htext
      exact absurd rfl hbang
    | unterminatedString =>
      obtain ⟨rfl, body, rfl, -⟩ := h'
      cases htext
      exact absurd rfl hquote
  | loneBang =>
    cases h
    cases cause' with
    | unexpected c' =>
      obtain ⟨rfl, hbang, -⟩ := h'
      cases htext
      exact absurd rfl hbang
    | loneBang =>
      cases h'
      cases htext
      exact ⟨rfl, rfl, rfl⟩
    | unterminatedString =>
      obtain ⟨rfl, body, rfl, -⟩ := h'
      cases htext
  | unterminatedString =>
    obtain ⟨rfl, body, rfl, -⟩ := h
    cases cause' with
    | unexpected c' =>
      obtain ⟨rfl, -, hquote⟩ := h'
      cases htext
      exact absurd rfl hquote
    | loneBang =>
      cases h'
      cases htext
    | unterminatedString =>
      obtain ⟨rfl, body', rfl, -⟩ := h'
      rw [List.append_nil, List.append_nil] at htext
      exact ⟨rfl, htext, rfl⟩

namespace Piece

/-- Texts have one lexical piece. -/
theorem Lexical.unique {piece piece' : Piece} (h : piece.Lexical) (h' : piece'.Lexical)
    (htext : piece.text ++ piece.rest = piece'.text ++ piece'.rest) : piece = piece' := by
  obtain ⟨reading, text, rest⟩ := piece
  obtain ⟨reading', text', rest'⟩ := piece'
  rcases h with ⟨cls, hlongest, hdenotes⟩ | ⟨cause, rfl, hnone, hcovers⟩ <;>
    rcases h' with ⟨cls', hlongest', hdenotes'⟩ | ⟨cause', rfl, hnone', hcovers'⟩
  · obtain ⟨rfl, rfl, rfl⟩ := hlongest.unique hlongest' htext
    obtain rfl : reading = reading' := hdenotes.unique hdenotes'
    rfl
  · exact absurd ⟨rest, htext⟩ (hnone' cls text hlongest.isLexeme)
  · exact absurd ⟨rest', htext.symm⟩ (hnone cls' text' hlongest'.isLexeme)
  · obtain ⟨rfl, rfl, rfl⟩ := hcovers.unique hcovers' htext
    rfl

/-- A lexical piece is the one that a scan takes. -/
theorem Lexical.eq_first {piece : Piece} (h : piece.Lexical) (hne : piece.text ≠ []) :
    ∃ c cs, piece.text ++ piece.rest = c :: cs ∧ first c cs = piece := by
  obtain ⟨c, cs, hcs⟩ := List.exists_cons_of_ne_nil
    (List.append_ne_nil_of_left_ne_nil hne piece.rest)
  exact ⟨c, cs, hcs, (lexical_first c cs).unique h ((text_append_rest c cs).trans hcs.symm)⟩

end Piece

theorem Lexeme.ne_nil {cls : LexicalClass} {lexeme : List Char} (h : Lexeme cls lexeme) :
    lexeme ≠ [] := by
  obtain ⟨c, cs, rfl, -⟩ := h.start
  exact List.cons_ne_nil c cs

theorem LexicalCause.Covers.ne_nil {cause : LexicalCause} {covered rest : List Char}
    (h : cause.Covers covered rest) : covered ≠ [] := by
  cases cause with
  | unexpected c =>
    obtain ⟨rfl, -⟩ := h
    exact List.cons_ne_nil _ _
  | loneBang =>
    cases h
    exact List.cons_ne_nil _ _
  | unterminatedString =>
    obtain ⟨-, body, rfl, -⟩ := h
    exact List.cons_ne_nil _ _

namespace Token

/-- The longest lexemes are those of a scan. -/
theorem scanFrom_of_munches {line : Nat} {text : List Char} {items : List Item}
    (h : Munches line text items) : scanFrom line text = items := by
  -- each rule takes a lexical piece, and a text starts with one lexical piece only
  induction h with
  | finish line => rw [scanFrom]
  | @skipped line cls lexeme rest items hlongest hdenotes hrest ih =>
    have hpiece : Piece.Lexical ⟨.skipped, lexeme, rest⟩ := .inl ⟨cls, hlongest, hdenotes⟩
    obtain ⟨c, cs, hcs, hfirst⟩ := hpiece.eq_first hlongest.isLexeme.ne_nil
    rw [hcs, scanFrom, hfirst]
    exact ih
  | @token line cls kind lexeme rest items hlongest hdenotes hrest ih =>
    have hpiece : Piece.Lexical ⟨.token kind, lexeme, rest⟩ := .inl ⟨cls, hlongest, hdenotes⟩
    obtain ⟨c, cs, hcs, hfirst⟩ := hpiece.eq_first hlongest.isLexeme.ne_nil
    rw [hcs, scanFrom, hfirst]
    exact congrArg (_ :: ·) ih
  | @error line cause covered rest items hnone hcovers hrest ih =>
    have hpiece : Piece.Lexical ⟨.error cause, covered, rest⟩ := .inr ⟨cause, rfl, hnone, hcovers⟩
    obtain ⟨c, cs, hcs, hfirst⟩ := hpiece.eq_first hcovers.ne_nil
    rw [hcs, scanFrom, hfirst]
    exact congrArg (_ :: ·) ih

/-- A scan gives the items of the longest lexemes. -/
theorem munches_scanFrom (line : Nat) (text : List Char) :
    Munches line text (scanFrom line text) := by
  induction line, text using scanFrom.induct with
  | case1 line =>
    rw [scanFrom]
    exact .finish line
  | case2 line c cs piece after hlt hreading ih =>
    change (Piece.first c cs).reading = _ at hreading
    rw [scanFrom, ← Piece.text_append_rest c cs, hreading]
    rcases Piece.lexical_first c cs with ⟨cls, hlongest, hdenotes⟩ | ⟨cause, hcause, -⟩
    · rw [hreading] at hdenotes
      exact .skipped hlongest hdenotes ih
    · cases hreading.symm.trans hcause
  | case3 line c cs piece after hlt kind hreading ih =>
    change (Piece.first c cs).reading = _ at hreading
    rw [scanFrom, ← Piece.text_append_rest c cs, hreading]
    rcases Piece.lexical_first c cs with ⟨cls, hlongest, hdenotes⟩ | ⟨cause, hcause, -⟩
    · rw [hreading] at hdenotes
      exact .token hlongest hdenotes ih
    · cases hreading.symm.trans hcause
  | case4 line c cs piece after hlt cause hreading ih =>
    change (Piece.first c cs).reading = _ at hreading
    rw [scanFrom, ← Piece.text_append_rest c cs, hreading]
    rcases Piece.lexical_first c cs with ⟨cls, -, hdenotes⟩ | ⟨cause', hcause, hnone, hcovers⟩
    · exact absurd hreading (hdenotes.ne_error cause)
    · cases hreading.symm.trans hcause
      exact .error hnone hcovers ih

end Token

/-! ## The payloads of tokens -/

namespace Token

/-- The kind of a token is what a class reads its lexeme as, or the token ends a text. -/
def Lexical (t : Token) : Prop :=
  t.lexeme = "" ∧ t.kind = .endOfText ∨
  ∃ cls, Lexeme cls t.lexeme.toList ∧ cls.Denotes t.lexeme.toList (.token t.kind)

theorem lexical_of_munches {line : Nat} {text : List Char} {items : List Item}
    (h : Munches line text items) {t : Token} (ht : .ok t ∈ items) : t.Lexical := by
  induction h with
  | finish line =>
    cases List.mem_singleton.mp ht
    exact .inl ⟨rfl, rfl⟩
  | skipped _ _ _ ih => exact ih ht
  | @token line cls kind lexeme rest items hlongest hdenotes _ ih =>
    rcases List.mem_cons.mp ht with heq | ht
    · cases heq
      refine .inr ⟨cls, ?_, ?_⟩
      · rw [String.toList_ofList]
        exact hlongest.isLexeme
      · rw [String.toList_ofList]
        exact hdenotes
    · exact ih ht
  | error _ _ _ ih =>
    rcases List.mem_cons.mp ht with heq | ht
    · cases heq
    · exact ih ht

/-- The kind of a lexical token is determined by its lexeme. -/
theorem Lexical.kind_unique {t t' : Token} (h : t.Lexical) (h' : t'.Lexical)
    (hlexeme : t.lexeme = t'.lexeme) : t.kind = t'.kind := by
  rcases h with ⟨hempty, hkind⟩ | ⟨cls, hcls, hdenotes⟩ <;>
    rcases h' with ⟨hempty', hkind'⟩ | ⟨cls', hcls', hdenotes'⟩
  · rw [hkind, hkind']
  · rw [← hlexeme, hempty] at hcls'
    exact absurd rfl hcls'.ne_nil
  · rw [hlexeme, hempty'] at hcls
    exact absurd rfl hcls.ne_nil
  · rw [← hlexeme] at hcls' hdenotes'
    obtain rfl := hcls.class_unique hcls'
    exact Reading.token.inj (hdenotes.unique hdenotes')

end Token

/-- A scan gives a text the items of its longest lexemes and no others, and two scanned tokens that
agree are of the same kind, payloads included. -/
theorem scan_takes_longest_lexemes (source : String) :
    (∀ items, Munches 1 source.toList items ↔ items = Token.scan source) ∧
    ∀ (other : String) (t t' : Token), .ok t ∈ Token.scan source → .ok t' ∈ Token.scan other →
      t.agrees t' → t.kind = t'.kind := by
  refine ⟨fun items => ⟨fun h => (Token.scanFrom_of_munches h).symm, ?_⟩, ?_⟩
  · rintro rfl
    exact Token.munches_scanFrom 1 source.toList
  · intro other t t' ht ht' hagrees
    have hlexeme : t.lexeme = t'.lexeme := (of_decide_eq_true hagrees).2.1
    exact (Token.lexical_of_munches (Token.munches_scanFrom _ _) ht).kind_unique
      (Token.lexical_of_munches (Token.munches_scanFrom _ _) ht') hlexeme

/-- A number stops before a point without a digit after it, `<=` comes before `=`, and the number is
the same one in another text. -/
theorem longest_lexemes_split :
    let first : Token := ⟨.number 1.5, "1.5", 1⟩
    let second : Token := ⟨.number (Number.ofDecimal 15 (-1)), "1.5", 1⟩
    Munches 1 "1.5.x<==".toList [.ok first, .error ⟨.unexpected '.', 1⟩, .ok ⟨.identifier, "x", 1⟩,
      .ok ⟨.symbol .lessEqual, "<=", 1⟩, .ok ⟨.symbol .equal, "=", 1⟩, .ok ⟨.endOfText, "", 1⟩] ∧
    .ok second ∈ Token.scan "-1.5" ∧ first.kind = second.kind := by
  intro first second
  have hvalue : Number.ofDecimal (Number.natOfDigits ['1', '5']) (-1) = 1.5 := rfl
  have hword : Keyword.ofSpelling? "x" = none := rfl
  have hscan : Token.scan "1.5.x<==" = [.ok first, .error ⟨.unexpected '.', 1⟩,
      .ok ⟨.identifier, "x", 1⟩, .ok ⟨.symbol .lessEqual, "<=", 1⟩, .ok ⟨.symbol .equal, "=", 1⟩,
      .ok ⟨.endOfText, "", 1⟩] := by
    simp [Token.scan, Token.scanFrom, Token.lineFeeds, Piece.first, Piece.isSeparator, Piece.number,
      Piece.word, Piece.isWordStart, Piece.isWordPart, Piece.symbol?, Piece.cut, Piece.wordKind,
      Symbol.spelling, hvalue, hword, first]
  have hsecond : .ok second ∈ Token.scan "-1.5" := by
    simp [Token.scan, Token.scanFrom, Token.lineFeeds, Piece.first, Piece.isSeparator, Piece.number,
      Piece.isWordStart, Piece.symbol?, Piece.cut, Symbol.spelling, hvalue, second]
    rfl
  have hfirst : .ok first ∈ Token.scan "1.5.x<==" := hscan ▸ List.mem_cons_self
  exact ⟨((scan_takes_longest_lexemes _).1 _).mpr hscan.symm, hsecond,
    (scan_takes_longest_lexemes _).2 _ first second hfirst hsecond rfl⟩

end DivisionScript
