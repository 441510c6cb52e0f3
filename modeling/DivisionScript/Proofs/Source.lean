import DivisionScript.Source
import DivisionScript.Proofs.Grammar.Phrase
import DivisionScript.Proofs.Grammar.Program
import DivisionScript.Proofs.Token.Span

/-!
# Source, proved

Lines from the text of a program to its tree. The line of a token is the one on which it ends, that
of a statement or a declaration the one on which it starts; both are counted in the text itself, so
the strings, comments and blank lines before or inside a phrase are no exception.
-/

namespace DivisionScript

open Grammar

/-! ## The tokens of a text -/

namespace Token

variable {line : Nat} {text : List Char} {items : List Item} {ts : List Token}

theorem map_of_collect (h : collect items = .ok ts) : items = ts.map .ok := by
  induction items generalizing ts with
  | nil =>
    cases h
    rfl
  | cons item items ih =>
    cases item with
    | error e => cases h
    | ok t =>
      rw [collect] at h
      cases hrest : collect items with
      | error e =>
        rw [hrest] at h
        cases h
      | ok us =>
        rw [hrest] at h
        cases h
        rw [ih hrest, List.map_cons]

/-- A scan ends with the end of the text, on its last line. -/
theorem getLast?_of_munches (h : Munches line text items) :
    items.getLast? = some (.ok ⟨.endOfText, "", line + lineFeeds text⟩) := by
  induction h with
  | finish line => rfl
  | skipped _ _ _ ih =>
    rw [ih, lineFeeds, lineFeeds, lineFeeds, List.count_append, Nat.add_assoc]
  | token _ _ _ ih | error _ _ _ ih =>
    rw [List.getLast?_cons, ih, lineFeeds, lineFeeds, lineFeeds, List.count_append, Nat.add_assoc]
    rfl

theorem shape_ne_endOfText {kind : TokenKind} (h : kind ≠ .endOfText) :
    kind.shape ≠ .endOfText := by
  cases kind with
  | endOfText => exact absurd rfl h
  | _ => exact nofun

/-- The tokens of a text without errors end once. -/
theorem endsOnce_of_tiles (h : Tiles items text) (hts : items = ts.map .ok) : EndsOnce ts := by
  induction h generalizing ts with
  | finish hgap line =>
    obtain ⟨t, us, rfl, ht, hus⟩ := List.map_eq_cons_iff.mp hts.symm
    cases ht
    rw [List.map_eq_nil_iff.mp hus]
    exact ⟨[], _, rfl, rfl, nofun⟩
  | token _ _ hkind _ ih =>
    obtain ⟨t, us, rfl, ht, hus⟩ := List.map_eq_cons_iff.mp hts.symm
    obtain ⟨body, stop, rfl, hstop, hbody⟩ := ih hus.symm
    cases ht
    exact ⟨_ :: body, stop, rfl, hstop,
      List.forall_mem_cons.mpr ⟨shape_ne_endOfText hkind, hbody⟩⟩
  | error =>
    obtain ⟨t, us, rfl, ht, -⟩ := List.map_eq_cons_iff.mp hts.symm
    cases ht

end Token

/-- The tokens of spans differ from what they are on their first lines at most in the lines of
strings. -/
theorem resembling_openings {source : String} {spans : List Span} {ts : List Token}
    (hspans : ∀ span ∈ spans, span.Located source) (hts : spans.map Span.item = ts.map .ok) :
    Resembling ts (spans.filterMap (Span.opening? source)) := by
  induction spans generalizing ts with
  | nil =>
    rw [List.map_eq_nil_iff.mp hts.symm]
    exact .nil
  | cons span spans ih =>
    obtain ⟨t, us, rfl, ht, hus⟩ := List.map_eq_cons_iff.mp hts.symm
    obtain ⟨hspan, hrest⟩ := List.forall_mem_cons.mp hspans
    have hopening : span.opening? source = some { t with line := lineAt source span.start } := by
      rw [Span.opening?, ← ht]
    rw [List.filterMap_cons_some hopening]
    exact .cons ⟨rfl, rfl, fun hshape => (hspan.line_start t ht.symm hshape).symm⟩
      (ih hrest hus.symm)

theorem ok_of_mapError {α ε ε' : Type} {f : ε → ε'} {x : Except ε α} {a : α}
    (h : x.mapError f = .ok a) : x = .ok a := by
  cases x with
  | error e => cases h
  | ok b =>
    cases h
    rfl

/-- A text that spells a program has no lexical error, and the grammar derives the program from its
tokens. -/
theorem derives_of_program {source : String} {p : Program}
    (h : (Source.program source).result = .ok p) :
    ∃ ts, Token.scan source = ts.map .ok ∧ DerivesProgram maxArity maxNesting ts p := by
  have hscanned : (Source.tokens source).result = Token.collect (Token.scan source) := rfl
  rw [Source.program] at h
  dsimp only at h
  cases hts : Token.collect (Token.scan source) with
  | error e =>
    rw [hscanned, hts] at h
    cases h
  | ok ts =>
    rw [hscanned, hts] at h
    have hitems := Token.map_of_collect hts
    obtain ⟨body, stop, rfl, hstop, hbody⟩ :=
      Token.endsOnce_of_tiles (tiles_of_munches (Token.munches_scanFrom 1 source.toList)) hitems
    have hparsed : (Program.ofTokens (body ++ [stop])).1.mapError SourceError.syntactic = .ok p := h
    have hok := ok_of_mapError hparsed
    exact ⟨_, hitems, (derivesProgram_iff #[] hstop).mp ((ofTokens_eq_ok hstop hbody).mp hok)⟩

/-- Lines are right from the text to the tree. The turns of a scan take spans of the text, whose
items are those of the scan; a token has the text of its span, every item has the line of the byte
after its span, and the last one, the end of the text, comes after all line feeds. A program that
the text spells is the one that the grammar derives from the tokens where each has the line of the
byte at which its span starts. In such a derivation the line of a declaration or a statement, at any
depth, is that of the first token of its phrase. -/
theorem lines_count_line_feeds (source : String) :
    ∃ spans, Cursor.Marks source Cursor.first spans ∧ spans.map Span.item = Token.scan source ∧
      (∀ span ∈ spans, span.item.line = lineAt source span.stop ∧
        ∀ t, span.item = .ok t → t.kind ≠ .endOfText →
          slice? source span.start span.stop = some t.lexeme) ∧
      (Token.scan source).getLast? =
        some (.ok ⟨.endOfText, "", 1 + Token.lineFeeds source.toList⟩) ∧
      ∀ p, (Source.program source).result = .ok p →
        let openings := spans.filterMap (Span.opening? source)
        DerivesProgram 255 1024 openings p ∧
        (∀ d ∈ p.declarations, Stands (DerivesDeclaration 1024 · d) d.line openings) ∧
        ∀ s ∈ allOfEach p.statements, Stands (Spells 255 s) s.line openings := by
  obtain ⟨spans, hmarks, hitems, hlocated⟩ := Cursor.marks_first source
  have hlast := Token.getLast?_of_munches (Token.munches_scanFrom 1 source.toList)
  refine ⟨spans, hmarks, hitems, fun span hspan => ?_, hlast, fun p hp => ?_⟩
  · exact ⟨(hlocated span hspan).line_stop, (hlocated span hspan).slice_eq⟩
  · obtain ⟨ts, hts, hderives⟩ := derives_of_program hp
    have hopenings := hderives.resembling (resembling_openings hlocated (hitems.trans hts))
    exact ⟨hopenings, hopenings.all_stand⟩

/-- The string before the block holds a line feed, and a comment stands inside the block. -/
theorem lines_inside_block :
    let source := "dynamic division if \"\n\" \x7b // c\nprint x; \x7d"
    let inner : Stmt := .print 3 (.identifier "x")
    (Source.program source).result = .ok ⟨[], [.branch 1 (.string "\n") [inner] []]⟩ ∧
    ∃ spans, Cursor.Marks source Cursor.first spans ∧
      Stands (Spells 255 inner) 3 (spans.filterMap (Span.opening? source)) := by
  intro source inner
  let body : List Token := [⟨.keyword .dynamic, "dynamic", 1⟩, ⟨.keyword .division, "division", 1⟩,
    ⟨.keyword .ifWord, "if", 1⟩, ⟨.string "\n", "\"\n\"", 2⟩, ⟨.symbol .leftBrace, "\x7b", 2⟩,
    ⟨.keyword .print, "print", 3⟩, ⟨.identifier, "x", 3⟩, ⟨.symbol .semicolon, ";", 3⟩,
    ⟨.symbol .rightBrace, "\x7d", 3⟩]
  let stop : Token := ⟨.endOfText, "", 3⟩
  have hscan : Token.scan source = (body ++ [stop]).map .ok := by
    simp [Token.scan, Token.scanFrom, Token.lineFeeds, Piece.first, Piece.isSeparator, Piece.string,
      Piece.comment, Piece.word, Piece.isWordStart, Piece.isWordPart, Piece.symbol?, Piece.cut,
      Piece.wordKind, Keyword.ofSpelling?, Keyword.all, Keyword.spelling, Symbol.spelling, source,
      body, stop]
  have hderives : DerivesProgram maxArity maxNesting (body ++ [stop])
      ⟨[], [.branch 1 (.string "\n") [inner] []]⟩ := by
    have hx : Derives .expression 1022 [⟨.identifier, "x", 3⟩] (.identifier "x") :=
      .of_unary (.unaryOne (.identifier rfl))
    have htext : Derives .expression 1023 [⟨.string "\n", "\"\n\"", 2⟩] (.string "\n") :=
      .of_unary (.unaryOne (.string rfl))
    have hinner : DerivesStatement maxArity 1023 (⟨.keyword .print, "print", 3⟩ ::
        (_ ++ [⟨.symbol .semicolon, ";", 3⟩])) inner :=
      .print rfl hx rfl
    have hblock : DerivesBlock maxArity 1023 (⟨.symbol .leftBrace, "\x7b", 2⟩ ::
        (_ ++ [⟨.symbol .rightBrace, "\x7d", 3⟩])) [inner] :=
      .mk rfl (.cons hinner .nil) rfl
    have hbranch : DerivesStatement maxArity 1024 (⟨.keyword .ifWord, "if", 1⟩ :: (_ ++ (_ ++ [])))
        (.branch 1 (.string "\n") [inner] []) :=
      .branch (.mk rfl htext hblock .absent)
    have hprogram : DerivesProgram maxArity 1024
        ([] ++ ⟨.keyword .dynamic, "dynamic", 1⟩ :: ⟨.keyword .division, "division", 1⟩ ::
          (_ ++ [stop])) _ :=
      .mk .absent rfl rfl (.cons hbranch .nil) rfl
    exact hprogram
  have hprogram : (Source.program source).result =
      .ok ⟨[], [.branch 1 (.string "\n") [inner] []]⟩ := by
    have hstop : stop.shape = .endOfText := rfl
    have hparsed := (ofTokens_eq_ok hstop (by decide)).mpr
      ((derivesProgram_iff #[] hstop).mpr hderives)
    have hresult : (Source.tokens source).result = .ok (body ++ [stop]) := by
      show Token.collect (Token.scan source) = _
      rw [hscan]
      rfl
    rw [Source.program]
    dsimp only
    rw [hresult]
    show ((Program.ofTokens (body ++ [stop])).1).mapError _ = _
    rw [hparsed]
    rfl
  obtain ⟨spans, hmarks, -, -, -, hlines⟩ := lines_count_line_feeds source
  exact ⟨hprogram, spans, hmarks, (hlines _ hprogram).2.2 inner (by simp [allOfEach, Stmt.all])⟩

end DivisionScript
