import Mathlib.Data.List.Basic
import DivisionScript.CommandLine.Console
import DivisionScript.Proofs.Token.Longest

/-!
# Command line — Log file, proved

A command that keeps a log can be told to run the log file. What it finds there depends on all that
it has done before; but the first line of a log begins with the time of day, and no program goes on
with a colon after its first number. So a log is never a program, and it fails with the same error
whatever it reports.
-/

namespace DivisionScript.CommandLine

/-! ## A log is no program -/

namespace LogFile

/-- The hour of the day has two digits. -/
theorem padded_hour {hour : Nat} (h : hour < 24) :
    ∃ d e, (padded 2 hour).toList = [d, e] ∧ d.isDigit ∧ e.isDigit := by
  have hall : ∀ hour < 24, (padded 2 hour).toList.length = 2 ∧
      (padded 2 hour).toList.all Char.isDigit := by decide
  obtain ⟨hlength, hdigits⟩ := hall hour h
  obtain ⟨d, e, heq⟩ := List.length_eq_two.mp hlength
  rw [heq, List.all_cons, List.all_cons, List.all_nil, Bool.and_true, Bool.and_eq_true] at hdigits
  exact ⟨d, e, heq, hdigits.1, hdigits.2⟩

theorem text_begins (ms : Nat) (events : List Event) :
    ∃ d e rest, (text ms events).toList = d :: e :: ':' :: rest ∧ d.isDigit ∧ e.isDigit := by
  obtain ⟨d, e, hhour, hd, he⟩ := padded_hour (Nat.mod_lt (ms / 3600000) (show 0 < 24 by decide))
  have htext : ∃ rest, text ms events = padded 2 (ms / 3600000 % 24) ++ (":" ++ rest) :=
    ⟨_, by simp only [text, heading, timeOfDay, String.append_assoc]; rfl⟩
  obtain ⟨rest, htext⟩ := htext
  refine ⟨d, e, rest.toList, ?_, hd, he⟩
  rw [htext, String.toList_append, String.toList_append, hhour]
  rfl

/-- A number that ends at a colon is followed by an error there. -/
theorem scanFrom_colon {d e : Char} (hd : d.isDigit) (he : e.isDigit) (rest : List Char) :
    ∃ t items, Token.scanFrom 1 (d :: e :: ':' :: rest) =
      .ok t :: .error ⟨.unexpected ':', 1⟩ :: items := by
  have hcolon : ¬ Char.isDigit ':' := by decide
  have htake : (d :: e :: ':' :: rest).takeWhile Char.isDigit = [d, e] := by
    rw [List.takeWhile_cons_of_pos hd, List.takeWhile_cons_of_pos he,
      List.takeWhile_cons_of_neg hcolon]
  have hdrop : (d :: e :: ':' :: rest).dropWhile Char.isDigit = ':' :: rest := by
    rw [List.dropWhile_cons_of_pos hd, List.dropWhile_cons_of_pos he,
      List.dropWhile_cons_of_neg hcolon]
  have hnumber : Piece.first d (e :: ':' :: rest) =
      ⟨.token (.number (Number.ofDecimal (Number.natOfDigits [d, e]) 0)), [d, e], ':' :: rest⟩ := by
    rw [Piece.first_eq, Start.of_digit hd]
    dsimp only
    rw [Piece.number_integer (by rw [hdrop]; rintro d rest ⟨⟩), htake, hdrop]
  have herror : Piece.first ':' rest = ⟨.error (.unexpected ':'), [':'], rest⟩ := by
    rw [Piece.first_eq]
    rfl
  have hfeeds : Token.lineFeeds [d, e] = 0 := by
    have hne {c : Char} (hc : c.isDigit) : c ≠ '\n' := by
      rintro rfl
      exact absurd hc (by decide)
    rw [Token.lineFeeds, List.count_eq_zero]
    simp [(hne hd).symm, (hne he).symm]
  rw [Token.scanFrom, hnumber]
  dsimp only
  rw [hfeeds, Token.scanFrom, herror]
  exact ⟨_, _, rfl⟩

/-- A log has the same lexical error, whatever its reports and whenever it began. -/
theorem program_text (ms : Nat) (events : List Event) :
    (Source.program (text ms events)).result = .error (.lexical ⟨.unexpected ':', 1⟩) := by
  obtain ⟨d, e, rest, htext, hd, he⟩ := text_begins ms events
  obtain ⟨t, items, hscan⟩ := scanFrom_colon hd he rest
  have htokens : (Source.tokens (text ms events)).result = .error ⟨.unexpected ':', 1⟩ := by
    rw [Source.tokens, Token.scan, htext, hscan]
    rfl
  rw [Source.program]
  dsimp only
  rw [htokens]

end LogFile

/-! ## What opening the log file leads to -/

/-- Two openings lead to the same, or to two texts that are put in the same place. -/
def Opened.Alike (text text' : String) (opened opened' : Opened) : Prop :=
  opened' = opened ∨ opened = .contents text.toUTF8 ∧ opened' = .contents text'.toUTF8

namespace FileTree

variable (tree : FileTree) (text text' : String)

theorem standing_withLog (place : Place) :
    Opened.Alike text text' ((tree.withLog (some text)).standing place)
      ((tree.withLog (some text')).standing place) := by
  cases place with
  | above => exact .inl rfl
  | inside names =>
    simp only [standing, withLog, List.lookup_cons, List.any_cons]
    by_cases h : names = [LogFile.name]
    · rw [beq_iff_eq.mpr h]
      exact .inr ⟨rfl, rfl⟩
    · rw [beq_eq_false_iff_ne.mpr h]
      exact .inl rfl

/-- Another text in the log file leads to the same place. -/
theorem follow_withLog (parts : List String) (here : Place) :
    Opened.Alike text text' ((tree.withLog (some text)).follow here parts)
      ((tree.withLog (some text')).follow here parts) := by
  induction parts generalizing here with
  | nil => exact tree.standing_withLog text text' here
  | cons part rest ih =>
    rw [follow, follow]
    rcases tree.standing_withLog text text' here with hsame | ⟨hlog, hlog'⟩
    · rw [hsame]
      split
      · split
        · exact .inl rfl
        · split
          · exact ih _
          · exact .inl rfl
      · exact .inl rfl
      · exact .inl rfl
    · rw [hlog, hlog']
      exact .inl rfl

theorem openPath_withLog (path : String) :
    Opened.Alike text text' ((tree.withLog (some text)).openPath path)
      ((tree.withLog (some text')).openPath path) := by
  rw [openPath, openPath]
  split
  · exact .inl rfl
  split
  · exact .inl rfl
  split
  · exact .inl rfl
  · exact tree.follow_withLog text text' _ _

end FileTree

theorem Opened.source_contents (path text : String) :
    (Opened.contents text.toUTF8).source path = .ok text := by
  have hdecode : String.fromUTF8? text.toUTF8 = some text := by
    rw [String.fromUTF8?]
    exact dif_pos text.isValidUTF8
  rw [source, reason?]
  dsimp only
  rw [Text.decode, hdecode]
  rfl

/-- Two readings of a file fail in the same way, or yield texts of which the same becomes when they
are taken as programs. -/
inductive SameReading : Except Trouble String → Except Trouble String → Prop
  | trouble (t : Trouble) : SameReading (.error t) (.error t)
  | text {text text' : String}
      (h : (Source.program text').result = (Source.program text).result) :
      SameReading (.ok text) (.ok text')

theorem SameReading.refl (reading : Except Trouble String) : SameReading reading reading := by
  cases reading with
  | error t => exact .trouble t
  | ok text => exact .text rfl

namespace Console

/-- What is read from a file of a directory, which may be the log file. -/
def read (tree : FileTree) (c : Console) (path : String) : Except Trouble String :=
  ((tree.withLog c.logText?).openPath path).source path

/-- What is read from a file does not depend on what the log reports. -/
theorem sameReading {c c' : Console} (h : c'.log.threshold = c.log.threshold) (tree : FileTree)
    (path : String) : SameReading (c.read tree path) (c'.read tree path) := by
  rw [read, read, logText?, logText?, h]
  cases c.log.threshold with
  | none =>
    rw [Option.map_none, Option.map_none]
    exact .refl _
  | some _ =>
    rw [Option.map_some, Option.map_some]
    rcases tree.openPath_withLog (LogFile.text c.clock c.log.events)
      (LogFile.text c'.clock c'.log.events) path with hsame | ⟨hlog, hlog'⟩
    · rw [hsame]
      exact .refl _
    · rw [hlog, hlog', Opened.source_contents, Opened.source_contents]
      exact .text (by rw [LogFile.program_text, LogFile.program_text])

end Console

end DivisionScript.CommandLine
