import Mathlib.Data.List.Infix
import Mathlib.Data.List.TakeWhile
import DivisionScript.Token.Scan

/-!
# Token — Lexeme

The lexical grammar: the classes of pieces that a program text is made of, the lexemes of each, and
what a lexeme is read as. `Munches` says, without a word on how a scan goes about it, which items a
text has: at every place where one starts, the longest lexeme of any class counts, and there is an
error where no class has a lexeme.
-/

namespace DivisionScript

/-- The classes of pieces of a text. -/
inductive LexicalClass where
  | separator
  | comment
  | symbol (s : Symbol)
  | string
  | number
  | word

/-- The lexemes of a class. -/
inductive Lexeme : LexicalClass → List Char → Prop
  | separator {c : Char} (h : c ∈ [' ', '\t', '\r', '\n']) : Lexeme .separator [c]
  /-- Two slashes and what follows them on the line. -/
  | comment {body : List Char} (h : '\n' ∉ body) : Lexeme .comment ('/' :: '/' :: body)
  | symbol (s : Symbol) : Lexeme (.symbol s) s.spelling
  /-- Anything but a quote between two quotes. -/
  | string {body : List Char} (h : '"' ∉ body) : Lexeme .string ('"' :: (body ++ ['"']))
  | integer {d : Char} {digits : List Char} (hd : d.isDigit) (h : ∀ c ∈ digits, c.isDigit) :
      Lexeme .number (d :: digits)
  | fraction {d d' : Char} {before after : List Char} (hd : d.isDigit)
      (hbefore : ∀ c ∈ before, c.isDigit) (hd' : d'.isDigit) (hafter : ∀ c ∈ after, c.isDigit) :
      Lexeme .number (d :: (before ++ '.' :: d' :: after))
  | word {c : Char} {cs : List Char} (hc : c.isAlpha ∨ c = '_')
      (h : ∀ c ∈ cs, c.isAlphanum ∨ c = '_') : Lexeme .word (c :: cs)

/-- What a lexeme of a class is read as. -/
inductive LexicalClass.Denotes : LexicalClass → List Char → Reading → Prop
  | separator (lexeme : List Char) : Denotes .separator lexeme .skipped
  | comment (lexeme : List Char) : Denotes .comment lexeme .skipped
  | symbol (s : Symbol) (lexeme : List Char) : Denotes (.symbol s) lexeme (.token (.symbol s))
  /-- The text of a string is its lexeme without the quotes. -/
  | string (body : List Char) :
      Denotes .string ('"' :: (body ++ ['"'])) (.token (.string (String.ofList body)))
  /-- A number is the one that its lexeme denotes as a text. -/
  | number {lexeme : List Char} {x : Float} (h : Number.ofString? (String.ofList lexeme) = some x) :
      Denotes .number lexeme (.token (.number x))
  | keyword (k : Keyword) : Denotes .word k.spelling.toList (.token (.keyword k))
  | identifier {lexeme : List Char} (h : ∀ k : Keyword, k.spelling.toList ≠ lexeme) :
      Denotes .word lexeme (.token .identifier)

/-- No class has a lexeme at the start of a text. -/
def Unlexical (text : List Char) : Prop :=
  ∀ cls lexeme, Lexeme cls lexeme → ¬ lexeme <+: text

/-- The lexeme of a class at the start of a text, before `rest`, is as long as any. -/
structure Longest (cls : LexicalClass) (lexeme rest : List Char) : Prop where
  isLexeme : Lexeme cls lexeme
  length_le : ∀ cls' other, Lexeme cls' other → other <+: lexeme ++ rest →
    other.length ≤ lexeme.length

/-- How much of a text an error covers, before `rest`: an unfinished string all of it, and any other
error one character. -/
def LexicalCause.Covers : LexicalCause → (covered rest : List Char) → Prop
  | .unexpected c, covered, _ => covered = [c] ∧ c ≠ '!' ∧ c ≠ '"'
  | .loneBang, covered, _ => covered = ['!']
  | .unterminatedString, covered, rest => rest = [] ∧ ∃ body, covered = '"' :: body ∧ '"' ∉ body

open Token in
/-- The items of a text that starts on the given line, by the longest lexemes. -/
inductive Munches : (line : Nat) → List Char → List Item → Prop
  | finish (line : Nat) : Munches line [] [.ok ⟨.endOfText, "", line⟩]
  | skipped {line : Nat} {cls : LexicalClass} {lexeme rest : List Char} {items : List Item}
      (hlongest : Longest cls lexeme rest) (hdenotes : cls.Denotes lexeme .skipped)
      (hrest : Munches (line + lineFeeds lexeme) rest items) : Munches line (lexeme ++ rest) items
  | token {line : Nat} {cls : LexicalClass} {kind : TokenKind} {lexeme rest : List Char}
      {items : List Item} (hlongest : Longest cls lexeme rest)
      (hdenotes : cls.Denotes lexeme (.token kind))
      (hrest : Munches (line + lineFeeds lexeme) rest items) :
      Munches line (lexeme ++ rest)
        (.ok ⟨kind, String.ofList lexeme, line + lineFeeds lexeme⟩ :: items)
  | error {line : Nat} {cause : LexicalCause} {covered rest : List Char} {items : List Item}
      (hnone : Unlexical (covered ++ rest)) (hcovers : cause.Covers covered rest)
      (hrest : Munches (line + lineFeeds covered) rest items) :
      Munches line (covered ++ rest) (.error ⟨cause, line + lineFeeds covered⟩ :: items)

/-! ## How lexemes start -/

/-- The kinds of characters that lexemes start with. -/
inductive Start where
  | blank | quote | digit | letter | mark
deriving DecidableEq

/-- The kind of a character. -/
def Start.of (c : Char) : Start :=
  if Piece.isSeparator c then .blank
  else if c = '"' then .quote
  else if c.isDigit then .digit
  else if Piece.isWordStart c then .letter
  else .mark

/-- How the lexemes of a class start. -/
def LexicalClass.start : LexicalClass → Start
  | separator => .blank
  | string => .quote
  | number => .digit
  | word => .letter
  | comment | symbol _ => .mark

theorem isDigit_iff {c : Char} : c.isDigit ↔ 48 ≤ c.toNat ∧ c.toNat ≤ 57 := by
  simp [Char.isDigit, UInt32.le_iff_toNat_le]

theorem isAlpha_iff {c : Char} :
    c.isAlpha ↔ 65 ≤ c.toNat ∧ c.toNat ≤ 90 ∨ 97 ≤ c.toNat ∧ c.toNat ≤ 122 := by
  have hupper : c.isUpper = decide (65 ≤ c.val ∧ c.val ≤ 90) := rfl
  have hlower : c.isLower = (decide (97 ≤ c.val) && decide (c.val ≤ 122)) := rfl
  have halpha : c.isAlpha = (c.isUpper || c.isLower) := rfl
  rw [halpha, hupper, hlower]
  simp [UInt32.le_iff_toNat_le]

namespace Start

variable {c : Char}

theorem isSeparator_iff : Piece.isSeparator c ↔ c ∈ [' ', '\t', '\r', '\n'] := by
  simp [Piece.isSeparator, or_assoc, or_comm, or_left_comm]

theorem isWordStart_iff : Piece.isWordStart c ↔ c.isAlpha ∨ c = '_' := by
  simp [Piece.isWordStart]

theorem isWordPart_iff : Piece.isWordPart c ↔ c.isAlphanum ∨ c = '_' := by
  simp [Piece.isWordPart]

theorem of_separator (h : Piece.isSeparator c) : of c = .blank := by
  rw [of, if_pos h]

theorem toNat_le_of_isSeparator (h : Piece.isSeparator c) : c.toNat ≤ 32 := by
  simp only [isSeparator_iff, List.mem_cons, List.not_mem_nil, or_false] at h
  rcases h with rfl | rfl | rfl | rfl <;> decide

theorem of_digit (h : c.isDigit) : of c = .digit := by
  have hcode := isDigit_iff.mp h
  have hblank : ¬ Piece.isSeparator c := fun hc =>
    absurd (toNat_le_of_isSeparator hc) (by omega)
  have hquote : c ≠ '"' := by
    rintro rfl
    exact absurd h (by decide)
  rw [of, if_neg hblank, if_neg hquote, if_pos h]

theorem of_letter (h : Piece.isWordStart c) : of c = .letter := by
  have hcode : 65 ≤ c.toNat := by
    rw [isWordStart_iff, isAlpha_iff] at h
    rcases h with h | rfl
    · omega
    · decide
  have hblank : ¬ Piece.isSeparator c := fun hc =>
    absurd (toNat_le_of_isSeparator hc) (by omega)
  have hquote : c ≠ '"' := by
    rintro rfl
    exact absurd h (by decide)
  have hdigit : ¬ c.isDigit := by
    rw [isDigit_iff]
    omega
  rw [of, if_neg hblank, if_neg hquote, if_neg hdigit, if_pos h]

end Start

/-- How a text starts decides which piece comes first. -/
theorem Piece.first_eq (c : Char) (cs : List Char) :
    first c cs = match Start.of c with
      | .blank => cut .skipped 1 (c :: cs)
      | .quote => string cs
      | .digit => number (c :: cs)
      | .letter => word (c :: cs)
      | .mark =>
        if c = '/' ∧ cs.head? = some '/' then comment (c :: cs)
        else match symbol? (c :: cs) with
          | some s => cut (.token (.symbol s)) s.spelling.length (c :: cs)
          | none => cut (.error (if c = '!' then .loneBang else .unexpected c)) 1 (c :: cs) := by
  by_cases hcomment : c = '/' ∧ cs.head? = some '/'
  · obtain ⟨rfl, hhead⟩ := hcomment
    rw [first, if_neg (by decide), if_pos ⟨rfl, hhead⟩]
    exact (if_pos ⟨rfl, hhead⟩).symm
  · rw [first, Start.of, if_neg hcomment, if_neg hcomment]
    split
    · rfl
    split
    · rfl
    split
    · rfl
    split <;> rfl

/-- A lexeme starts as those of its class do. -/
theorem Lexeme.start {cls : LexicalClass} {lexeme : List Char} (h : Lexeme cls lexeme) :
    ∃ c cs, lexeme = c :: cs ∧ Start.of c = cls.start := by
  cases h with
  | separator hc => exact ⟨_, _, rfl, Start.of_separator (Start.isSeparator_iff.mpr hc)⟩
  | comment | string => exact ⟨_, _, rfl, rfl⟩
  | symbol s => cases s <;> exact ⟨_, _, rfl, rfl⟩
  | integer hd | fraction hd => exact ⟨_, _, rfl, Start.of_digit hd⟩
  | word hc => exact ⟨_, _, rfl, Start.of_letter (Start.isWordStart_iff.mpr hc)⟩

theorem Lexeme.start_of_prefix {cls : LexicalClass} {lexeme : List Char} {c : Char} {cs : List Char}
    (h : Lexeme cls lexeme) (hpre : lexeme <+: c :: cs) : cls.start = Start.of c := by
  obtain ⟨d, ds, rfl, hd⟩ := h.start
  rw [← hd, (List.cons_prefix_cons.mp hpre).1]

end DivisionScript
