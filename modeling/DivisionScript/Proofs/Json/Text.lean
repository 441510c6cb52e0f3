import Mathlib.Tactic.SplitIfs
import DivisionScript.Json.Basic
import DivisionScript.Number.Reading

/-!
# Json — Text

Which texts stand for a JSON value, told by the grammar of JSON and not by a reader. Each relation
is between what is spelled, a text that begins with the spelling, and the text that is left after
it. A value has many spellings: blanks may stand between its parts, and the characters of a string
stand for themselves or behind a backslash in one of several ways. The two written forms of a value
are among them.
-/

namespace DivisionScript.Json

/-! ## Blanks, numbers and strings -/

/-- Blanks in front of a text. -/
inductive Blanks : List Char → List Char → Prop
  | done (rest : List Char) : Blanks rest rest
  | blank {c : Char} {cs rest : List Char} (hc : c ∈ [' ', '\n', '\t', '\r'])
    (h : Blanks cs rest) : Blanks (c :: cs) rest

/-- At least one decimal digit. -/
structure Digits (ds : List Char) : Prop where
  ne_nil : ds ≠ []
  isDigit : ∀ d ∈ ds, d.isDigit

/-- The part of a number after its whole part: nothing, or a point with digits. -/
inductive Fraction : List Char → Prop
  | absent : Fraction []
  | point {ds : List Char} (h : Digits ds) : Fraction ('.' :: ds)

/-- The power of ten at the end of a number: nothing, or `e` with digits, perhaps behind a sign. -/
inductive Power : List Char → Prop
  | absent : Power []
  | exponent {e : Char} {sign ds : List Char} (he : e ∈ ['e', 'E'])
    (hsign : sign ∈ [[], ['+'], ['-']]) (h : Digits ds) : Power (e :: (sign ++ ds))

/-- A hexadecimal digit of either case and its value. -/
def HexDigit (value : Nat) (c : Char) : Prop :=
  value < 16 ∧ (c = value.digitChar ∨ c = value.digitChar.toUpper)

/-- Four hexadecimal digits. -/
inductive HexCode : Nat → List Char → List Char → Prop
  | digits {a b c d : Nat} {p q r s : Char} (ha : HexDigit a p) (hb : HexDigit b q)
    (hc : HexDigit c r) (hd : HexDigit d s) (rest : List Char) :
    HexCode (((a * 16 + b) * 16 + c) * 16 + d) (p :: q :: r :: s :: rest) rest

/-- The letters that stand for a character behind a backslash. -/
def letterEscapes : List (Char × Char) :=
  [('"', '"'), ('\\', '\\'), ('/', '/'), ('b', '\x08'), ('f', '\x0c'), ('n', '\n'), ('r', '\r'),
   ('t', '\t')]

/-- The characters of a string, up to and with the closing quote. -/
inductive Quotes : List Char → List Char → List Char → Prop
  | close (rest : List Char) : Quotes [] ('"' :: rest) rest
  | plain {c : Char} {text cs rest : List Char} (hlow : 0x20 ≤ c.toNat) (hquote : c ≠ '"')
    (hbackslash : c ≠ '\\') (h : Quotes text cs rest) : Quotes (c :: text) (c :: cs) rest
  | letter {d c : Char} {text cs rest : List Char} (hd : (d, c) ∈ letterEscapes)
    (h : Quotes text cs rest) : Quotes (c :: text) ('\\' :: d :: cs) rest
  | code {n : Nat} {digits text cs rest : List Char} (hcode : HexCode n digits cs)
    (hn : n < 0xD800 ∨ 0xDFFF < n) (h : Quotes text cs rest) :
    Quotes (Char.ofNat n :: text) ('\\' :: 'u' :: digits) rest
  /-- The two halves of a character beyond `U+FFFF`. -/
  | pair {high low : Nat} {digits digits' text cs rest : List Char}
    (hcode : HexCode high digits ('\\' :: 'u' :: digits')) (hhigh : 0xD800 ≤ high ∧ high ≤ 0xDBFF)
    (hcode' : HexCode low digits' cs) (hlow : 0xDC00 ≤ low ∧ low ≤ 0xDFFF)
    (h : Quotes text cs rest) :
    Quotes (Char.ofNat (0x10000 + (high - 0xD800) * 0x400 + (low - 0xDC00)) :: text)
      ('\\' :: 'u' :: digits) rest

/-! ## Values -/

mutual

/-- A value. A number has a sign, a point or a power where it is no count. -/
inductive Spells : Json → List Char → List Char → Prop
  | null (rest : List Char) : Spells .null (['n', 'u', 'l', 'l'] ++ rest) rest
  | true (rest : List Char) : Spells (.bool true) (['t', 'r', 'u', 'e'] ++ rest) rest
  | false (rest : List Char) : Spells (.bool false) (['f', 'a', 'l', 's', 'e'] ++ rest) rest
  | count (n : Nat) (rest : List Char) : Spells (.count n) (Nat.toDigits 10 n ++ rest) rest
  | number {sign fraction power : List Char} {n : Nat} {x : Float} (hsign : sign ∈ [[], ['-']])
    (hfraction : Fraction fraction) (hpower : Power power)
    (hmarked : sign ++ fraction ++ power ≠ [])
    (hx : Number.ofChars? (sign ++ (Nat.toDigits 10 n ++ (fraction ++ power))) = some x)
    (rest : List Char) :
    Spells (.number x) (sign ++ (Nat.toDigits 10 n ++ (fraction ++ (power ++ rest)))) rest
  | string {text : String} {cs rest : List Char} (h : Quotes text.toList cs rest) :
    Spells (.string text) ('"' :: cs) rest
  | noItems {cs rest : List Char} (h : Blanks cs (']' :: rest)) :
    Spells (.array []) ('[' :: cs) rest
  | array {items : List Json} {cs rest : List Char} (h : SpellsItems items cs rest) :
    Spells (.array items) ('[' :: cs) rest
  | noFields {cs rest : List Char} (h : Blanks cs ('\x7d' :: rest)) :
    Spells (.object []) ('\x7b' :: cs) rest
  | object {fields : List (String × Json)} {cs rest : List Char} (h : SpellsFields fields cs rest) :
    Spells (.object fields) ('\x7b' :: cs) rest

/-- The items of an array, up to and with the closing bracket. -/
inductive SpellsItems : List Json → List Char → List Char → Prop
  | last {item : Json} {cs value after rest : List Char} (hbefore : Blanks cs value)
    (h : Spells item value after) (hclose : Blanks after (']' :: rest)) : SpellsItems [item] cs rest
  | next {item : Json} {items : List Json} {cs value after others rest : List Char}
    (hbefore : Blanks cs value) (h : Spells item value after)
    (hcomma : Blanks after (',' :: others)) (hothers : SpellsItems items others rest) :
    SpellsItems (item :: items) cs rest

/-- The fields of an object, up to and with the closing brace. -/
inductive SpellsFields : List (String × Json) → List Char → List Char → Prop
  | last {field : String × Json} {cs after rest : List Char} (h : SpellsField field cs after)
    (hclose : Blanks after ('\x7d' :: rest)) : SpellsFields [field] cs rest
  | next {field : String × Json} {fields : List (String × Json)} {cs after others rest : List Char}
    (h : SpellsField field cs after) (hcomma : Blanks after (',' :: others))
    (hothers : SpellsFields fields others rest) : SpellsFields (field :: fields) cs rest

/-- A name and a value with a colon between them. -/
inductive SpellsField : String × Json → List Char → List Char → Prop
  | field {name : String} {item : Json} {cs quoted behind before value rest : List Char}
    (hname : Blanks cs ('"' :: quoted)) (hquoted : Quotes name.toList quoted behind)
    (hcolon : Blanks behind (':' :: before)) (hbefore : Blanks before value)
    (h : Spells item value rest) : SpellsField (name, item) cs rest

end

/-- A text stands for a value, with or without blanks around it. -/
def TextOf (value : Json) (text : String) : Prop :=
  ∃ cs rest, Blanks text.toList cs ∧ Spells value cs rest ∧ Blanks rest []

/-! ## The written forms -/

theorem hexDigit_digitChar {n : Nat} (h : n < 16) : HexDigit n n.digitChar :=
  ⟨h, .inl rfl⟩

/-- A character below the space, by its code. -/
theorem Quotes.control {c : Char} {text cs rest : List Char} (h : Quotes text cs rest)
    (hc : c.toNat < 0x20) :
    Quotes (c :: text)
      (['\\', 'u', '0', '0', (c.toNat / 16).digitChar, (c.toNat % 16).digitChar] ++ cs) rest := by
  have hzero : HexDigit 0 '0' := hexDigit_digitChar (by decide)
  have hcode := HexCode.digits hzero hzero (hexDigit_digitChar (by omega : c.toNat / 16 < 16))
    (hexDigit_digitChar (Nat.mod_lt c.toNat (by decide))) cs
  rw [(by omega : ((0 * 16 + 0) * 16 + c.toNat / 16) * 16 + c.toNat % 16 = c.toNat)] at hcode
  have hspelled := Quotes.code hcode (.inl (by omega)) h
  rwa [Char.ofNat_toNat] at hspelled

/-- What the writer puts for a character is a spelling of it. -/
theorem Quotes.jsonEscape {text cs rest : List Char} (h : Quotes text cs rest) (c : Char) :
    Quotes (c :: text) ((Text.jsonEscape c).getD [c] ++ cs) rest := by
  rw [Text.jsonEscape]
  split_ifs with hquote hbackslash hback htab hfeed hform hreturn hten hcontrol
  · subst hquote
    exact .letter (by decide) h
  · subst hbackslash
    exact .letter (by decide) h
  · obtain rfl : c = '\x08' := Char.toNat_inj.mp hback
    exact .letter (by decide) h
  · subst htab
    exact .letter (by decide) h
  · subst hfeed
    exact .letter (by decide) h
  · obtain rfl : c = '\x0c' := Char.toNat_inj.mp hform
    exact .letter (by decide) h
  · subst hreturn
    exact .letter (by decide) h
  · have hspelled := h.control (by omega : c.toNat < 0x20)
    rw [(by omega : c.toNat / 16 = 0), Nat.mod_eq_of_lt hten] at hspelled
    rw [Text.hexDigits, Nat.toDigits_of_lt_base hten]
    exact hspelled
  · have hspelled := h.control hcontrol
    rw [(by omega : c.toNat / 16 = 1)] at hspelled
    rw [Text.hexDigits, Nat.toDigits_eq_if (by decide), if_neg hten,
      (by omega : c.toNat / 16 = 1)]
    exact hspelled
  · exact .plain (by omega) hquote hbackslash h

/-- A written string, in front of a text. -/
theorem exists_quoted (s : String) (rest : List Char) :
    ∃ quoted, stringChars s ++ rest = '"' :: quoted ∧ Quotes s.toList quoted rest := by
  refine ⟨Text.escaped Text.jsonEscape s.toList ++ '"' :: rest, ?_, ?_⟩
  · simp [stringChars, Text.quoted]
  rw [Text.escaped]
  induction s.toList with
  | nil => exact .close rest
  | cons c text ih =>
    rw [List.flatMap_cons, List.append_assoc]
    exact ih.jsonEscape c

theorem blanks_lineBreak (level : Nat) (rest : List Char) :
    Blanks (lineBreak level ++ rest) rest := by
  refine .blank (by decide) ?_
  induction 2 * level with
  | zero => exact .done rest
  | succ n ih => exact .blank (by decide) ih

/-- Fields are spelled by a way of writing them that spells each one, puts a comma between two and
closes the object. -/
theorem spellsFields_of (write : Bool → List (String × Json) → List Char)
    {fields : List (String × Json)} {rest : List Char} (hne : fields ≠ [])
    (hfield : ∀ field ∈ fields, ∀ others,
      SpellsField field (write true (field :: others)) (write false others))
    (hcomma : ∀ field others, write false (field :: others) = ',' :: write true (field :: others))
    (hclose : Blanks (write false []) ('\x7d' :: rest)) :
    SpellsFields fields (write true fields) rest := by
  induction fields with
  | nil => exact absurd rfl hne
  | cons first fields ih =>
    have hfirst := hfield first List.mem_cons_self
    cases fields with
    | nil => exact .last (hfirst []) hclose
    | cons second fields =>
      refine .next (hfirst _) (hcomma second fields ▸ .done _) (ih (List.cons_ne_nil _ _) ?_)
      exact fun field hmem => hfield field (List.mem_cons_of_mem first hmem)

/-- Both written forms of a value spell it, in front of any text. -/
structure Spelled (value : Json) : Prop where
  compact : ∀ rest, Spells value (value.writeOnto rest) rest
  spread : ∀ level rest, Spells value (value.spreadOnto level rest) rest

namespace Spelled

theorem null : Spelled .null :=
  ⟨fun rest => .null rest, fun _ rest => .null rest⟩

theorem bool (b : Bool) : Spelled (.bool b) := by
  cases b with
  | true => exact ⟨fun rest => .true rest, fun _ rest => .true rest⟩
  | false => exact ⟨fun rest => .false rest, fun _ rest => .false rest⟩

theorem count (n : Nat) : Spelled (.count n) :=
  ⟨fun rest => .count n rest, fun _ rest => .count n rest⟩

theorem string (s : String) : Spelled (.string s) := by
  have hspelled (rest : List Char) : Spells (.string s) (stringChars s ++ rest) rest := by
    obtain ⟨quoted, hchars, hquoted⟩ := exists_quoted s rest
    rw [hchars]
    exact .string hquoted
  exact ⟨hspelled, fun _ rest => hspelled rest⟩

theorem object {fields : List (String × Json)} (h : ∀ field ∈ fields, Spelled field.2) :
    Spelled (.object fields) := by
  cases fields with
  | nil => exact ⟨fun _ => .noFields (.done _), fun _ _ => .noFields (.done _)⟩
  | cons first fields =>
    have hne := List.cons_ne_nil first fields
    refine ⟨fun rest => .object ?_, fun level rest => .object ?_⟩
    · refine spellsFields_of (fun first fields => writeFields first fields _) hne
        (fun field hfield others => ?_) (fun _ _ => rfl) (.done _)
      obtain ⟨quoted, hchars, hquoted⟩ := exists_quoted field.1 _
      rw [writeFields, if_pos rfl, List.nil_append, hchars]
      exact .field (.done _) hquoted (.done _) (.done _) ((h field hfield).compact _)
    · refine spellsFields_of (fun first fields => spreadFields (level + 1) first fields _) hne
        (fun field hfield others => ?_) (fun _ _ => rfl) (blanks_lineBreak level _)
      obtain ⟨quoted, hchars, hquoted⟩ := exists_quoted field.1 _
      rw [spreadFields, if_pos rfl, List.nil_append, List.append_assoc, hchars]
      exact .field (blanks_lineBreak _ _) hquoted (.done _) (.blank (by decide) (.done _))
        ((h field hfield).spread _ _)

theorem textOf_compact {value : Json} (h : Spelled value) : TextOf value value.compact := by
  refine ⟨_, _, .done _, ?_, .done _⟩
  rw [Json.compact, String.toList_ofList]
  exact h.compact []

theorem textOf_spread {value : Json} (h : Spelled value) : TextOf value value.spread := by
  refine ⟨_, _, .done _, ?_, .done _⟩
  rw [Json.spread, String.toList_ofList]
  exact h.spread 0 []

end Spelled

end DivisionScript.Json
