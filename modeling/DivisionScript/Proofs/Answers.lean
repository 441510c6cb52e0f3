import DivisionScript.Proofs.Layout

/-!
# Answers

A scan is asked for one item after another. A call takes turns until one of them gives an item, or
finds that the text has ended. However often a scan is asked, the answers are its items in order and
then none; the whole text is read if and only if there is no error among them.
-/

namespace DivisionScript

namespace Cursor

/-- What one call for the next item answers, and the cursor that it leaves. -/
inductive Next (source : String) : Cursor → Option Item → Cursor → Prop
  | ended {cursor : Cursor} (hcurr : (bytes source).length < cursor.curr) :
      Next source cursor none cursor
  | skipped {cursor mid next : Cursor} {answer : Option Item}
      (hcurr : cursor.curr ≤ (bytes source).length)
      (hturn : Cursor.turn source cursor = .ok none mid) (hnext : Next source mid answer next) :
      Next source cursor answer next
  | item {cursor next : Cursor} {item : Item} (hcurr : cursor.curr ≤ (bytes source).length)
      (hturn : Cursor.turn source cursor = .ok (some item) next) :
      Next source cursor (some item) next

/-- What calls one after the other answer, and the cursor that the last one leaves. -/
inductive Answers (source : String) : Cursor → List (Option Item) → Cursor → Prop
  | nil {cursor : Cursor} : Answers source cursor [] cursor
  | cons {cursor mid next : Cursor} {answer : Option Item} {answers : List (Option Item)}
      (hnext : Next source cursor answer mid) (hrest : Answers source mid answers next) :
      Answers source cursor (answer :: answers) next

variable {source : String} {cursor next next' : Cursor} {items : List Item}

/-- A call has one answer. -/
theorem Next.unique {answer answer' : Option Item} (h : Next source cursor answer next)
    (h' : Next source cursor answer' next') : answer = answer' ∧ next = next' := by
  induction h with
  | ended hcurr =>
    cases h' with
    | ended => exact ⟨rfl, rfl⟩
    | skipped hcurr' | item hcurr' => exact absurd hcurr (Nat.not_lt.mpr hcurr')
  | skipped hcurr hturn _ ih =>
    cases h' with
    | ended hcurr' => exact absurd hcurr' (Nat.not_lt.mpr hcurr)
    | skipped _ hturn' hnext' =>
      cases hturn.symm.trans hturn'
      exact ih hnext'
    | item _ hturn' => cases hturn.symm.trans hturn'
  | item hcurr hturn =>
    cases h' with
    | ended hcurr' => exact absurd hcurr' (Nat.not_lt.mpr hcurr)
    | skipped _ hturn' => cases hturn.symm.trans hturn'
    | item _ hturn' =>
      cases hturn.symm.trans hturn'
      exact ⟨rfl, rfl⟩

theorem Answers.unique {answers answers' : List (Option Item)}
    (h : Answers source cursor answers next) (h' : Answers source cursor answers' next')
    (hlength : answers.length = answers'.length) : answers = answers' := by
  induction h generalizing answers' with
  | nil => exact (List.length_eq_zero_iff.mp hlength.symm).symm
  | cons hnext _ ih =>
    cases h' with
    | nil => cases hlength
    | cons hnext' hrest' =>
      obtain ⟨rfl, rfl⟩ := hnext.unique hnext'
      rw [ih hrest' (Nat.succ.inj hlength)]

/-- A call takes the first item off those that are to come. Where none is, it leaves the cursor as
it is, behind the end of the text. -/
theorem Scans.call (h : Scans source cursor items) :
    ∃ next, Next source cursor items.head? next ∧ Scans source next items.tail := by
  induction h with
  | ended hcurr => exact ⟨_, .ended hcurr, .ended hcurr⟩
  | @turn cursor mid item items hcurr hturn hrest ih =>
    cases item with
    | none =>
      obtain ⟨next, hnext, hscans⟩ := ih
      exact ⟨next, .skipped hcurr hturn hnext, hscans⟩
    | some item => exact ⟨mid, .item hcurr hturn, hrest⟩

/-- Any number of calls answer with the items that are to come, in order, and then with none. -/
theorem Scans.answers (h : Scans source cursor items) (k : Nat) :
    ∃ next, Answers source cursor ((List.range k).map (items[·]?)) next := by
  induction k generalizing cursor items with
  | zero => exact ⟨cursor, .nil⟩
  | succ k ih =>
    obtain ⟨mid, hnext, hscans⟩ := h.call
    obtain ⟨next, hanswers⟩ := ih hscans
    have hshift : (List.range (k + 1)).map (items[·]?) =
        items.head? :: (List.range k).map (items.tail[·]?) := by
      simp only [List.range_succ_eq_map, List.map_cons, List.map_map, List.head?_eq_getElem?,
        Function.comp_def, List.getElem?_tail]
    rw [hshift]
    exact ⟨next, .cons hnext hanswers⟩

end Cursor

/-! ## How many items there are, and which -/

namespace Token

variable {line : Nat} {text : List Char} {items : List Item}

theorem length_encode_pos (h : text ≠ []) : 0 < (encode text).length := by
  obtain ⟨c, cs, rfl⟩ := List.exists_cons_of_ne_nil h
  rw [encode_cons, List.length_append]
  exact Nat.add_pos_left (List.length_pos_iff.mpr String.utf8EncodeChar_ne_nil) _

/-- Every item but the end of the text takes at least one byte. -/
theorem length_le_of_munches (h : Munches line text items) :
    items.length ≤ (encode text).length + 1 := by
  induction h with
  | finish line => exact Nat.le_refl 1
  | skipped _ _ _ ih =>
    rw [encode_append, List.length_append]
    omega
  | token hlongest _ _ ih =>
    have hpos := length_encode_pos hlongest.isLexeme.ne_nil
    rw [encode_append, List.length_append, List.length_cons]
    omega
  | error _ hcovers _ ih =>
    have hpos := length_encode_pos hcovers.ne_nil
    rw [encode_append, List.length_append, List.length_cons]
    omega

/-- The end of the text is the last item, and no other token. -/
theorem ends_once_of_tiles (h : Tiles items text) :
    ∃ body line, items = body ++ [.ok ⟨.endOfText, "", line⟩] ∧
      ∀ t, .ok t ∈ body → t.kind ≠ .endOfText := by
  induction h with
  | finish _ line => exact ⟨[], line, rfl, nofun⟩
  | @token gap rest t items _ _ hkind _ ih =>
    obtain ⟨body, line, rfl, hbody⟩ := ih
    refine ⟨.ok t :: body, line, rfl, fun u hu => ?_⟩
    rcases List.mem_cons.mp hu with heq | hu
    · cases heq
      exact hkind
    · exact hbody u hu
  | @error gap covered rest e items _ _ _ ih =>
    obtain ⟨body, line, rfl, hbody⟩ := ih
    refine ⟨.error e :: body, line, rfl, fun u hu => ?_⟩
    rcases List.mem_cons.mp hu with heq | hu
    · cases heq
    · exact hbody u hu

theorem collect_eq_ok_iff {ts : List Token} : collect items = .ok ts ↔ items = ts.map .ok := by
  refine ⟨map_of_collect, ?_⟩
  rintro rfl
  exact collect_map_ok ts

/-- The error that a collection stops at is the first one. -/
theorem collect_eq_error_iff {e : LexicalError} :
    collect items = .error e ↔
      ∃ (ts : List Token) (rest : List Item), items = ts.map .ok ++ .error e :: rest := by
  constructor
  · intro h
    induction items with
    | nil => cases h
    | cons item items ih =>
      cases item with
      | error e' =>
        cases h
        exact ⟨[], items, rfl⟩
      | ok t =>
        rw [collect] at h
        cases hrest : collect items with
        | ok ts =>
          rw [hrest] at h
          cases h
        | error e' =>
          rw [hrest] at h
          cases h
          obtain ⟨ts, rest, rfl⟩ := ih hrest
          exact ⟨t :: ts, rest, rfl⟩
  · rintro ⟨ts, rest, rfl⟩
    induction ts with
    | nil => rfl
    | cons t ts ih =>
      rw [List.map_cons, List.cons_append, collect, ih]
      rfl

end Token

theorem Source.program_eq_lexical_iff {source : String} {e : LexicalError} :
    (program source).result = .error (.lexical e) ↔ Token.scanAll source = .error e := by
  have hscanned : (tokens source).result = Token.scanAll source := rfl
  cases hts : Token.scanAll source with
  | error e' =>
    rw [program]
    dsimp only
    rw [hscanned, hts]
    simp
  | ok ts =>
    rw [program_of_scanAll hts]
    cases (Program.ofTokens ts).1 <;> simp [Except.mapError]

/-- A scan ends once. Asked any number of times, it answers with its items in order and with none
from then on. There is at most one item more than the text has bytes; the last is the end of the
text, and no other item is. The tokens of a text are its items if none is an error; otherwise there
is the first error in their place, and a program that the text spells fails with it, wherever a
syntax error may be. -/
theorem scan_ends_once (source : String) :
    (∀ answers, (∃ cursor, Cursor.Answers source Cursor.first answers cursor) ↔
      answers = (List.range answers.length).map ((Token.scan source)[·]?)) ∧
    (Token.scan source).length ≤ (bytes source).length + 1 ∧
    (∃ items line, Token.scan source = items ++ [.ok ⟨.endOfText, "", line⟩] ∧
      ∀ t, .ok t ∈ items → t.kind ≠ .endOfText) ∧
    (∀ ts, Token.scanAll source = .ok ts ↔ Token.scan source = ts.map .ok) ∧
    (∀ e, Token.scanAll source = .error e ↔
      ∃ (ts : List Token) (rest : List Item),
        Token.scan source = ts.map .ok ++ .error e :: rest) ∧
    ∀ e, (Source.program source).result = .error (.lexical e) ↔
      Token.scanAll source = .error e := by
  have hscans := Cursor.scans_ahead 0 1 (Ahead.start source)
  have hmunches := Token.munches_scanFrom 1 source.toList
  refine ⟨fun answers => ⟨?_, fun h => ?_⟩, ?_,
    Token.ends_once_of_tiles (tiles_of_munches hmunches), fun ts => Token.collect_eq_ok_iff,
    fun e => Token.collect_eq_error_iff, fun e => Source.program_eq_lexical_iff⟩
  · rintro ⟨cursor, hanswers⟩
    obtain ⟨next, hall⟩ := hscans.answers answers.length
    exact hanswers.unique hall (by simp)
  · rw [h]
    exact hscans.answers answers.length
  · rw [bytes_eq_encode]
    exact Token.length_le_of_munches hmunches

/-- A string without its closing quote ends the text, behind a parenthesis that no program starts
with. The fourth call and the fifth answer with none. -/
theorem open_string_ends_once :
    let source := ")\""
    let answers : List (Option Item) := [some (.ok ⟨.symbol .rightParen, ")", 1⟩),
      some (.error ⟨.unterminatedString, 1⟩), some (.ok ⟨.endOfText, "", 1⟩), none, none]
    (∃ cursor, Cursor.Answers source Cursor.first answers cursor) ∧
    (Source.program source).result = .error (.lexical ⟨.unterminatedString, 1⟩) := by
  intro source answers
  have hscan : Token.scan source = [.ok ⟨.symbol .rightParen, ")", 1⟩,
      .error ⟨.unterminatedString, 1⟩, .ok ⟨.endOfText, "", 1⟩] := by
    simp [Token.scan, Token.scanFrom, Token.lineFeeds, Piece.first, Piece.isSeparator,
      Piece.isWordStart, Piece.string, Piece.symbol?, Piece.cut, Symbol.spelling, source]
  obtain ⟨hanswers, -, -, -, herror, hprogram⟩ := scan_ends_once source
  refine ⟨(hanswers answers).mpr ?_, (hprogram _).mpr ((herror _).mpr ⟨[_], [_], hscan⟩)⟩
  rw [hscan]
  rfl

end DivisionScript
