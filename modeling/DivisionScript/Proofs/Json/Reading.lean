import DivisionScript.Json.Reading
import DivisionScript.Proofs.Json.Text
import DivisionScript.Proofs.Number.Nearest
import DivisionScript.Proofs.State

/-!
# Json — Reading, proved

What the readers of single values come to on a text that stands for a value. Each of them wants a
kind of value. It goes exactly to the end of a spelling of that kind, in whichever way it is
spelled, and never past the spelling of a value of another kind.
-/

namespace DivisionScript.Json

namespace Reader

/-! ## Readers -/

/-- What a reader comes to; why it stops is left out. -/
def yield? {α : Type} (reader : Reader α) (cs : List Char) : Option (α × List Char) :=
  (reader cs).toOption

section

variable {α β : Type}

@[simp] theorem yield?_pure (a : α) (cs : List Char) : yield? (pure a) cs = some (a, cs) :=
  rfl

@[simp] theorem yield?_refuse (r : Refusal) (cs : List Char) :
    yield? (refuse r : Reader α) cs = none :=
  rfl

@[simp] theorem yield?_advance (cs : List Char) : yield? advance cs = some ((), cs.tail) :=
  rfl

@[simp] theorem yield?_bind (reader : Reader α) (next : α → Reader β) (cs : List Char) :
    yield? (reader >>= next) cs = (yield? reader cs).bind fun r => yield? (next r.1) r.2 := by
  rw [yield?, yield?]
  simp only [bind, StateT.bind]
  cases reader cs <;> rfl

@[simp] theorem yield?_map (f : α → β) (reader : Reader α) (cs : List Char) :
    yield? (f <$> reader) cs = (yield? reader cs).map fun r => (f r.1, r.2) := by
  rw [yield?, yield?]
  simp only [Functor.map, StateT.map, bind]
  cases reader cs <;> rfl

end

/-! ## Blanks -/

theorem isSpace_iff {c : Char} : isSpace c ↔ c ∈ [' ', '\n', '\t', '\r'] := by
  simp [isSpace, or_assoc]

theorem yield?_word (expected rest : List Char) :
    yield? (word expected) (expected ++ rest) = some ((), rest) := by
  induction expected with
  | nil => rfl
  | cons e es ih =>
    rw [← ih, List.cons_append, yield?, word, if_pos rfl, yield?]

theorem yield?_ahead? (c : Char) (cs : List Char) (hc : isSpace c = false) :
    yield? ahead? (c :: cs) = some (some c, c :: cs) := by
  simp [yield?, ahead?, hc, Except.toOption]

theorem yield?_ahead (c : Char) (cs : List Char) (hc : isSpace c = false) :
    yield? ahead (c :: cs) = some (c, c :: cs) := by
  rw [ahead, yield?_bind, yield?_ahead? c cs hc]
  rfl

end Reader

open Reader

theorem Blanks.ahead? {cs rest : List Char} (h : Blanks cs rest) :
    Reader.ahead? cs = Reader.ahead? rest := by
  induction h with
  | done rest => rfl
  | blank hc h ih =>
    rw [← ih]
    simp [Reader.ahead?, isSpace_iff.mpr hc]

theorem Blanks.ahead {cs rest : List Char} (h : Blanks cs rest) :
    Reader.ahead cs = Reader.ahead rest := by
  simp only [Reader.ahead, bind, StateT.bind, h.ahead?]

theorem Blanks.yield?_ahead {c : Char} {cs rest : List Char} (h : Blanks cs (c :: rest))
    (hc : isSpace c = false) : yield? Reader.ahead cs = some (c, c :: rest) := by
  rw [yield?, h.ahead]
  exact Reader.yield?_ahead c rest hc

theorem Blanks.yield?_finish {cs : List Char} (h : Blanks cs []) :
    yield? finish cs = some ((), []) := by
  have hahead : yield? Reader.ahead? cs = some (none, []) := by
    rw [yield?, h.ahead?]
    rfl
  rw [finish, yield?_bind, hahead]
  rfl

/-! ## Numbers -/

/-- A text in which no number goes on. -/
def Ends (rest : List Char) : Prop :=
  ∀ c ∈ rest.head?, c.isDigit = false ∧ c ∉ ['.', 'e', 'E']

theorem ends_cons {c : Char} {rest : List Char} (hdigit : c.isDigit = false)
    (hmark : c ∉ ['.', 'e', 'E']) : Ends (c :: rest) := by
  rintro d hd
  cases Option.some.inj hd
  exact ⟨hdigit, hmark⟩

/-- A number ends before a blank. -/
theorem Blanks.ends {c : Char} {cs rest : List Char} (h : Blanks cs (c :: rest))
    (hdigit : c.isDigit = false) (hmark : c ∉ ['.', 'e', 'E']) : Ends cs := by
  cases h with
  | done => exact ends_cons hdigit hmark
  | blank hc =>
    simp only [List.mem_cons, List.not_mem_nil, or_false] at hc
    rcases hc with rfl | rfl | rfl | rfl <;> exact ends_cons (by decide) (by decide)

theorem ne_of_isDigit {c d : Char} (hc : c.isDigit) (hd : d.isDigit = false) : c ≠ d :=
  fun h => Bool.false_ne_true (hd.symm.trans (h ▸ hc))

theorem digits_toDigits (n : Nat) : Digits (Nat.toDigits 10 n) :=
  ⟨Nat.toDigits_ne_nil, fun _ hd => Nat.isDigit_of_mem_toDigits (by decide) (by decide) hd⟩

theorem toDigits_eq_cons (n : Nat) : ∃ d ds, Nat.toDigits 10 n = d :: ds ∧ d.isDigit := by
  cases hn : Nat.toDigits 10 n with
  | nil => exact absurd hn Nat.toDigits_ne_nil
  | cons d ds => exact ⟨d, ds, rfl, (digits_toDigits n).isDigit d (hn ▸ List.mem_cons_self)⟩

theorem Digits.read {ds rest : List Char} (h : Digits ds)
    (hrest : ∀ c ∈ rest.head?, c.isDigit = false) :
    yield? digits (ds ++ rest) = some (ds, rest) := by
  have htake : rest.takeWhile Char.isDigit = [] := by
    cases rest with
    | nil => rfl
    | cons c rest => simp [hrest c rfl]
  have hdrop : rest.dropWhile Char.isDigit = rest := by
    cases rest with
    | nil => rfl
    | cons c rest => simp [hrest c rfl]
  rw [yield?, digits, List.takeWhile_append_of_pos h.isDigit,
    List.dropWhile_append_of_pos h.isDigit, htake, hdrop, List.append_nil]
  cases ds with
  | nil => exact absurd rfl h.ne_nil
  | cons d ds => rfl

/-- Only zero itself is written with a leading zero. -/
theorem toDigits_ne_zero_cons (n : Nat) (c : Char) (cs : List Char) :
    Nat.toDigits 10 n ≠ '0' :: c :: cs := by
  induction n using Nat.strong_induction_on generalizing c cs with
  | h n ih =>
    intro h
    rw [Nat.toDigits_eq_if (by decide)] at h
    split at h
    · exact absurd (congrArg List.length h) (by simp)
    · cases htens : Nat.toDigits 10 (n / 10) with
      | nil => exact Nat.toDigits_ne_nil htens
      | cons d ds =>
        rw [htens, List.cons_append] at h
        obtain ⟨rfl, hds⟩ := List.cons_eq_cons.mp h
        cases ds with
        | nil =>
          have hvalue := Nat.ofDigitChars_ten_toDigits (n := n / 10)
          rw [htens] at hvalue
          have : n / 10 = 0 := hvalue.symm
          omega
        | cons d ds => exact ih (n / 10) (by omega) d ds htens

theorem yield?_wholeDigits (n : Nat) {rest : List Char}
    (hrest : ∀ c ∈ rest.head?, c.isDigit = false) :
    yield? wholeDigits (Nat.toDigits 10 n ++ rest) = some (Nat.toDigits 10 n, rest) := by
  rw [wholeDigits, yield?_bind, (digits_toDigits n).read hrest, Option.bind_some]
  dsimp only
  split
  · next h => exact absurd h (toDigits_ne_zero_cons n _ _)
  · rfl

theorem Fraction.read {part rest : List Char} (h : Fraction part)
    (hrest : ∀ c ∈ rest.head?, c.isDigit = false ∧ c ≠ '.') :
    ∃ value, yield? fraction (part ++ rest) = some (value, rest) ∧
      (value = none ↔ part = []) := by
  cases h with
  | absent =>
    refine ⟨none, ?_, iff_of_true rfl rfl⟩
    cases rest with
    | nil => rfl
    | cons c rest =>
      rw [List.nil_append, yield?, fraction]
      · rfl
      · exact fun cs h => (hrest c rfl).2 (List.cons_eq_cons.mp h).1
  | @point ds h =>
    refine ⟨some ds, ?_, iff_of_false (by simp) (by simp)⟩
    have hread : yield? (some <$> digits) (ds ++ rest) = some (some ds, rest) := by
      rw [yield?_map, h.read fun c hc => (hrest c hc).1]
      rfl
    exact hread

/-- Behind the `e` and the sign of a power its digits are read. -/
theorem exists_power_eq {e : Char} {sign ds : List Char} (he : e ∈ ['e', 'E'])
    (hsign : sign ∈ [[], ['+'], ['-']]) (h : Digits ds) (rest : List Char) :
    ∃ f : List Char → Int, power (e :: (sign ++ ds) ++ rest) =
      ((fun ds => some (f ds)) <$> digits) (ds ++ rest) := by
  have he : e = 'e' ∨ e = 'E' := by simpa using he
  simp only [List.mem_cons, List.not_mem_nil, or_false] at hsign
  rcases hsign with rfl | rfl | rfl
  · cases ds with
    | nil => exact absurd rfl h.ne_nil
    | cons d ds =>
      have hd := h.isDigit d List.mem_cons_self
      refine ⟨fun ds => Number.natOfDigits ds, ?_⟩
      simp only [List.nil_append, List.cons_append]
      rw [power, if_pos he]
      · exact fun cs h => ne_of_isDigit hd (by decide) (List.cons_eq_cons.mp h).1
      · exact fun cs h => ne_of_isDigit hd (by decide) (List.cons_eq_cons.mp h).1
  · exact ⟨fun ds => Number.natOfDigits ds, if_pos he⟩
  · exact ⟨fun ds => -(Number.natOfDigits ds : Int), if_pos he⟩

theorem Power.read {part rest : List Char} (h : Power part) (hrest : Ends rest) :
    ∃ value, yield? power (part ++ rest) = some (value, rest) ∧ (value = none ↔ part = []) := by
  cases h with
  | absent =>
    refine ⟨none, ?_, iff_of_true rfl rfl⟩
    cases rest with
    | nil => rfl
    | cons c rest =>
      obtain ⟨-, hmark⟩ := hrest c rfl
      simp only [List.mem_cons, not_or] at hmark
      have hnone : power (c :: rest) = .ok (none, c :: rest) := if_neg (by simp [hmark])
      rw [List.nil_append, yield?, hnone]
      rfl
  | @exponent e sign ds he hsign h =>
    obtain ⟨f, hpower⟩ := exists_power_eq he hsign h rest
    refine ⟨some (f ds), ?_, iff_of_false (by simp) (by simp)⟩
    rw [yield?, hpower, ← yield?, yield?_map, h.read fun c hc => (hrest c hc).1]
    rfl

/-! A whole number is read digit by digit as long as it stays below the bound. -/

theorem le_ofDigitChars (m : Nat) (ds : List Char) : m ≤ Nat.ofDigitChars 10 ds m := by
  induction ds generalizing m with
  | nil => exact le_rfl
  | cons d ds ih =>
    rw [Nat.ofDigitChars_cons]
    have := ih (10 * m + (d.toNat - '0'.toNat))
    omega

theorem absorb_of_lt {m : Nat} {ds : List Char} (h : Nat.ofDigitChars 10 ds m < wordSize) :
    absorb m ds = (Nat.ofDigitChars 10 ds m, ds.length) := by
  induction ds generalizing m with
  | nil => rfl
  | cons d ds ih =>
    rw [Nat.ofDigitChars_cons] at h ⊢
    rw [absorb, if_pos (lt_of_le_of_lt (le_ofDigitChars _ ds) h), ih h]
    rfl

theorem absorb_of_le {m : Nat} {ds : List Char} (hm : m < wordSize)
    (h : wordSize ≤ Nat.ofDigitChars 10 ds m) : (absorb m ds).2 < ds.length := by
  induction ds generalizing m with
  | nil => exact absurd (lt_of_lt_of_le hm h) (lt_irrefl m)
  | cons d ds ih =>
    rw [Nat.ofDigitChars_cons] at h
    rw [absorb]
    dsimp only
    split
    · next hnext => exact Nat.succ_lt_succ (ih hnext h)
    · exact Nat.succ_pos _

theorem overflows_eq_false {n : Nat} (h : n < wordSize) : overflows n 0 = false := by
  have hfinite := Number.isFinite_ofNat_mul_one (n := n) (by rw [wordSize] at h; omega)
  simp [overflows, hfinite]

/-- A number with a point, a power or too many digits is read as no whole number, if at all. -/
theorem numeral_of_marked {cs cs₁ cs₂ rest whole : List Char} {part : Option (List Char)}
    {e : Option Int} (hwhole : yield? wholeDigits cs = some (whole, cs₁))
    (hpart : yield? fraction cs₁ = some (part, cs₂)) (he : yield? power cs₂ = some (e, rest))
    (hmarked : ¬ (part = none ∧ e = none ∧ (absorb 0 whole).2 = whole.length)) :
    yield? numeral cs = none ∨ yield? numeral cs = some (none, rest) := by
  rw [numeral]
  simp only [yield?_bind, hwhole, hpart, he, Option.bind_some, if_neg hmarked]
  split
  all_goals
    split
    · exact .inl rfl
    · exact .inr rfl

/-- Digits alone are read as the whole number that they denote, if it is below the bound. -/
theorem numeral_of_whole {cs rest whole : List Char}
    (hwhole : yield? wholeDigits cs = some (whole, rest))
    (hpart : yield? fraction rest = some (none, rest)) (he : yield? power rest = some (none, rest))
    (hlt : Nat.ofDigitChars 10 whole 0 < wordSize) :
    yield? numeral cs = some (some (Nat.ofDigitChars 10 whole 0), rest) := by
  rw [numeral]
  simp only [yield?_bind, hwhole, hpart, he, Option.bind_some, absorb_of_lt hlt, sub_self,
    Option.getD_none, add_zero, overflows_eq_false hlt]
  rfl

theorem Power.stops {part rest : List Char} (h : Power part) (hrest : Ends rest) :
    ∀ c ∈ (part ++ rest).head?, c.isDigit = false ∧ c ≠ '.' := by
  cases h with
  | absent =>
    intro c hc
    obtain ⟨hdigit, hmark⟩ := hrest c hc
    exact ⟨hdigit, fun h => hmark (h ▸ List.mem_cons_self)⟩
  | exponent he =>
    rintro c hc
    cases Option.some.inj hc
    simp only [List.mem_cons, List.not_mem_nil, or_false] at he
    rcases he with rfl | rfl <;> exact ⟨by decide, by decide⟩

theorem Fraction.stops {part rest : List Char} (h : Fraction part)
    (hrest : ∀ c ∈ rest.head?, c.isDigit = false) :
    ∀ c ∈ (part ++ rest).head?, c.isDigit = false := by
  cases h with
  | absent => exact hrest
  | point =>
    rintro c hc
    cases Option.some.inj hc
    rfl

/-- The whole number that is read from a number. -/
theorem yield?_numeral (n : Nat) {part exponent rest : List Char} (hpart : Fraction part)
    (hexponent : Power exponent) (hrest : Ends rest) :
    let cs := Nat.toDigits 10 n ++ (part ++ (exponent ++ rest))
    if part = [] ∧ exponent = [] ∧ n < wordSize then yield? numeral cs = some (some n, rest)
    else yield? numeral cs = none ∨ yield? numeral cs = some (none, rest) := by
  intro cs
  have hstops := hexponent.stops hrest
  have hwhole : yield? wholeDigits cs = some (Nat.toDigits 10 n, part ++ (exponent ++ rest)) :=
    yield?_wholeDigits n (hpart.stops fun c hc => (hstops c hc).1)
  obtain ⟨value, hvalue, hnone⟩ := hpart.read hstops
  obtain ⟨e, he, hnone'⟩ := hexponent.read hrest
  have hdigits := Nat.ofDigitChars_ten_toDigits (n := n)
  split
  · next h =>
    obtain ⟨rfl, rfl, hlt⟩ := h
    rw [hnone.mpr rfl] at hvalue
    rw [hnone'.mpr rfl] at he
    have hread := numeral_of_whole hwhole hvalue he (by rwa [hdigits])
    rwa [hdigits] at hread
  · next h =>
    refine numeral_of_marked hwhole hvalue he fun hall => h ?_
    obtain ⟨hvalue, he, htaken⟩ := hall
    refine ⟨hnone.mp hvalue, hnone'.mp he, ?_⟩
    by_contra hle
    have hbound : wordSize ≤ Nat.ofDigitChars 10 (Nat.toDigits 10 n) 0 := by omega
    have := absorb_of_le (by decide) hbound
    omega

/-! ## Strings -/

theorem HexDigit.read {value : Nat} {c : Char} (h : HexDigit value c) :
    hexValue? c = some value := by
  obtain ⟨hlt, rfl | rfl⟩ := h
  · revert value
    decide
  · revert value
    decide

theorem HexCode.read {n : Nat} {cs rest : List Char} (h : HexCode n cs rest) :
    yield? fourHex cs = some (n, rest) := by
  cases h with
  | digits ha hb hc hd => rw [yield?, fourHex, ha.read, hb.read, hc.read, hd.read]; rfl

theorem yield?_escape_letter {d c : Char} (h : (d, c) ∈ letterEscapes) (cs : List Char) :
    yield? escape (d :: cs) = some (c, cs) := by
  simp only [letterEscapes, List.mem_cons, List.not_mem_nil, or_false, Prod.mk.injEq] at h
  rcases h with ⟨rfl, rfl⟩ | ⟨rfl, rfl⟩ | ⟨rfl, rfl⟩ | ⟨rfl, rfl⟩ | ⟨rfl, rfl⟩ | ⟨rfl, rfl⟩ |
    ⟨rfl, rfl⟩ | ⟨rfl, rfl⟩ <;> rfl

theorem HexCode.escape {n : Nat} {cs rest : List Char} (h : HexCode n cs rest)
    (hn : n < 0xD800 ∨ 0xDFFF < n) :
    yield? Reader.escape ('u' :: cs) = some (Char.ofNat n, rest) := by
  have hread : yield? codeEscape cs = some (Char.ofNat n, rest) := by
    rw [codeEscape, yield?_bind, h.read, Option.bind_some]
    dsimp only
    rw [if_neg (by omega), if_neg (by omega), yield?_pure]
  exact hread

theorem HexCode.escape_pair {high low : Nat} {cs cs' rest : List Char}
    (h : HexCode high cs ('\\' :: 'u' :: cs')) (hhigh : 0xD800 ≤ high ∧ high ≤ 0xDBFF)
    (h' : HexCode low cs' rest) (hlow : 0xDC00 ≤ low ∧ low ≤ 0xDFFF) :
    yield? Reader.escape ('u' :: cs) =
      some (Char.ofNat (0x10000 + (high - 0xD800) * 0x400 + (low - 0xDC00)), rest) := by
  have hword : yield? (word ['\\', 'u']) ('\\' :: 'u' :: cs') = some ((), cs') :=
    yield?_word ['\\', 'u'] cs'
  have hread : yield? codeEscape cs =
      some (Char.ofNat (0x10000 + (high - 0xD800) * 0x400 + (low - 0xDC00)), rest) := by
    rw [codeEscape, yield?_bind, h.read, Option.bind_some]
    dsimp only
    rw [if_neg (by omega), if_pos hhigh, yield?_bind, hword, Option.bind_some, yield?_bind,
      h'.read, Option.bind_some, if_pos hlow, yield?_pure]
  exact hread

theorem yield?_stringChars_escape {c : Char} {cs cs' text rest : List Char}
    (hescape : yield? Reader.escape cs = some (c, cs'))
    (h : yield? Reader.stringChars cs' = some (text, rest)) :
    yield? Reader.stringChars ('\\' :: cs) = some (c :: text, rest) := by
  rw [yield?, toOption_eq_some_iff] at *
  rw [Reader.stringChars]
  split
  · next r hr => cases hr.symm.trans hescape
  · next d rest' hok =>
    cases hok.symm.trans hescape
    rw [h]
    rfl

theorem Quotes.read {text cs rest : List Char} (h : Quotes text cs rest) :
    yield? Reader.stringChars cs = some (text, rest) := by
  induction h with
  | close rest => rw [yield?, Reader.stringChars]; rfl
  | plain hlow hquote hbackslash h ih =>
    rw [yield?, toOption_eq_some_iff] at *
    rw [Reader.stringChars, if_neg (by omega), ih]
    · rfl
    · exact hquote
    · exact hbackslash
  | letter hd h ih => exact yield?_stringChars_escape (yield?_escape_letter hd _) ih
  | code hcode hn h ih => exact yield?_stringChars_escape (hcode.escape hn) ih
  | pair hcode hhigh hcode' hlow h ih =>
    exact yield?_stringChars_escape (hcode.escape_pair hhigh hcode' hlow) ih

theorem Quotes.quotedString {text : String} {cs rest : List Char} (h : Quotes text.toList cs rest) :
    yield? Reader.quotedString ('"' :: cs) = some (text, rest) := by
  rw [Reader.quotedString]
  simp [h.read]

/-! ## Values of one kind -/

/-- The truth value that a value is. -/
def truth? : Json → Option Bool
  | .bool b => some b
  | _ => none

/-- The string that a value is. -/
def string? : Json → Option String
  | .string s => some s
  | _ => none

/-- The whole number of 64 bits that a value is. -/
def unsigned? : Json → Option UInt64
  | .count n => if n < UInt64.size then some n.toUInt64 else none
  | _ => none

/-- What a value that may be `null` is. -/
def optional? {α : Type} (item? : Json → Option α) : Json → Option (Option α)
  | .null => some none
  | value => (item? value).map some

theorem truth?_eq_some_iff {value : Json} {b : Bool} :
    truth? value = some b ↔ value = .bool b := by
  cases value <;> simp [truth?]

theorem string?_eq_some_iff {value : Json} {s : String} :
    string? value = some s ↔ value = .string s := by
  cases value <;> simp [string?]

theorem unsigned?_eq_some_iff {value : Json} {n : UInt64} :
    unsigned? value = some n ↔ value = .count n.toNat := by
  cases value with
  | count k =>
    rw [unsigned?, Json.count.injEq]
    split
    · next hlt => rw [Option.some.injEq, ← UInt64.toNat_inj, UInt64.toNat_ofNat_of_lt' hlt]
    · next hle => exact ⟨nofun, fun h => absurd (h ▸ n.toNat_lt_size) hle⟩
  | _ => simp [unsigned?]

theorem optional?_of_ne {α : Type} {item? : Json → Option α} {value : Json} (h : value ≠ .null) :
    optional? item? value = (item? value).map some := by
  cases value with
  | null => exact absurd rfl h
  | _ => rfl

theorem optional?_eq_some_iff {α : Type} {item? : Json → Option α} {write : α → Json}
    (hitem : ∀ value a, item? value = some a ↔ value = write a) (hnull : item? .null = none)
    {value : Json} {o : Option α} :
    optional? item? value = some o ↔ value = (o.map write).getD .null := by
  by_cases hvalue : value = .null
  · subst hvalue
    cases o with
    | none => exact iff_of_true rfl rfl
    | some a =>
      refine iff_of_false nofun fun h => ?_
      cases hnull.symm.trans ((hitem _ a).mpr h)
  · rw [optional?_of_ne hvalue]
    cases o with
    | none => exact iff_of_false (by simp) hvalue
    | some a => simpa using hitem value a

/-- What the first character of a spelling tells about the value. -/
structure Opens (value : Json) (c : Char) : Prop where
  solid : isSpace c = false
  null : c = 'n' ↔ value = .null
  true : c = 't' ↔ value = .bool true
  false : c = 'f' ↔ value = .bool false
  string : c = '"' ↔ ∃ s, value = .string s

theorem solid_of_isDigit {c : Char} (hc : c.isDigit) : isSpace c = false := by
  rw [← Bool.not_eq_true, isSpace_iff]
  simp [ne_of_isDigit hc]

theorem opens_of_isDigit {c : Char} (hc : c.isDigit) {value : Json}
    (h : (∃ n, value = .count n) ∨ ∃ x, value = .number x) : Opens value c := by
  rcases h with ⟨n, rfl⟩ | ⟨x, rfl⟩ <;>
    constructor <;> simp [solid_of_isDigit hc, ne_of_isDigit hc]

theorem Spells.opens {value : Json} {cs rest : List Char} (h : Spells value cs rest) :
    ∃ c more, cs = c :: more ∧ Opens value c := by
  cases h with
  | count n =>
    obtain ⟨d, ds, hn, hd⟩ := toDigits_eq_cons n
    rw [hn]
    exact ⟨d, _, rfl, opens_of_isDigit hd (.inl ⟨n, rfl⟩)⟩
  | @number sign _ _ n x hsign =>
    obtain ⟨d, ds, hn, hd⟩ := toDigits_eq_cons n
    rw [hn]
    simp only [List.mem_cons, List.not_mem_nil, or_false] at hsign
    rcases hsign with rfl | rfl
    · exact ⟨d, _, rfl, opens_of_isDigit hd (.inr ⟨x, rfl⟩)⟩
    · exact ⟨'-', _, rfl, by constructor <;> simp [isSpace]⟩
  | _ => exact ⟨_, _, rfl, by constructor <;> simp [isSpace]⟩

/-- A value of another kind than wanted is always refused. -/
theorem yield?_unwanted {α : Type} (cs : List Char) :
    yield? (unwanted : Reader α) cs = none := by
  rw [unwanted, yield?_bind]
  cases yield? Reader.ahead cs with
  | none => rfl
  | some r =>
    rw [Option.bind_some]
    split
    all_goals try split
    all_goals simp

theorem unsigned_of_not_digit {c : Char} (hsolid : isSpace c = false) (hc : c.isDigit = false)
    (more : List Char) : yield? Reader.unsigned (c :: more) = none := by
  rw [Reader.unsigned, yield?_bind, yield?_ahead c more hsolid, Option.bind_some]
  dsimp only
  rw [hc, if_neg Bool.false_ne_true, yield?_unwanted]

/-- A number is read if it is a whole number below the bound and nothing more. -/
theorem unsigned_of_digits (n : Nat) {part exponent rest : List Char} (hpart : Fraction part)
    (hexponent : Power exponent) (hrest : Ends rest) :
    yield? Reader.unsigned (Nat.toDigits 10 n ++ (part ++ (exponent ++ rest))) =
      if part = [] ∧ exponent = [] ∧ n < wordSize then some (n.toUInt64, rest) else none := by
  have hread := yield?_numeral n hpart hexponent hrest
  obtain ⟨d, ds, hn, hd⟩ := toDigits_eq_cons n
  rw [hn, List.cons_append] at hread ⊢
  rw [Reader.unsigned, yield?_bind, yield?_ahead d _ (solid_of_isDigit hd), Option.bind_some]
  dsimp only
  rw [if_pos hd, yield?_bind]
  split at hread
  · next h =>
    rw [if_pos h, hread]
    rfl
  · next h =>
    rw [if_neg h]
    rcases hread with hread | hread
    · rw [hread]
      rfl
    · rw [hread]
      rfl

section readers

variable {value : Json} {cs rest : List Char} (h : Spells value cs rest)

include h

theorem Spells.truth : yield? Reader.truth cs = (truth? value).map (·, rest) := by
  by_cases hvalue : ∃ b, value = .bool b
  · obtain ⟨b, rfl⟩ := hvalue
    cases h with
    | true => rfl
    | false => rfl
  · obtain ⟨c, more, rfl, hc⟩ := h.opens
    have hnone : truth? value = none :=
      Option.eq_none_iff_forall_ne_some.mpr fun b hb => hvalue ⟨b, truth?_eq_some_iff.mp hb⟩
    rw [hnone, Reader.truth, yield?_bind, yield?_ahead c more hc.solid, Option.bind_some]
    dsimp only
    split
    · exact absurd ⟨_, hc.true.mp rfl⟩ hvalue
    · exact absurd ⟨_, hc.false.mp rfl⟩ hvalue
    · exact yield?_unwanted _

theorem Spells.string? : yield? Reader.string cs = (string? value).map (·, rest) := by
  by_cases hvalue : ∃ s, value = .string s
  · obtain ⟨s, rfl⟩ := hvalue
    cases h with
    | string h =>
      rw [Reader.string, yield?_bind, yield?_ahead _ _ (by decide), Option.bind_some]
      exact h.quotedString
  · obtain ⟨c, more, rfl, hc⟩ := h.opens
    have hnone : Json.string? value = none :=
      Option.eq_none_iff_forall_ne_some.mpr fun s hs => hvalue ⟨s, string?_eq_some_iff.mp hs⟩
    rw [hnone, Reader.string, yield?_bind, yield?_ahead c more hc.solid, Option.bind_some]
    dsimp only
    split
    · exact absurd (hc.string.mp rfl) hvalue
    · exact yield?_unwanted _

theorem Spells.unsigned (hrest : Ends rest) :
    yield? Reader.unsigned cs = (unsigned? value).map (·, rest) := by
  cases h with
  | count n =>
    have hread := unsigned_of_digits n .absent .absent hrest
    rw [List.nil_append, List.nil_append] at hread
    rw [hread, unsigned?]
    by_cases hlt : n < UInt64.size
    · rw [if_pos hlt, if_pos ⟨rfl, rfl, hlt⟩]
      rfl
    · rw [if_neg hlt, if_neg fun h => hlt h.2.2]
      rfl
  | number hsign hfraction hpower hmarked =>
    simp only [List.mem_cons, List.not_mem_nil, or_false] at hsign
    rcases hsign with rfl | rfl
    · rw [List.nil_append, unsigned_of_digits _ hfraction hpower hrest, if_neg]
      · rfl
      · rintro ⟨rfl, rfl, -⟩
        exact hmarked rfl
    · exact unsigned_of_not_digit (by decide) (by decide) _
  | _ => exact unsigned_of_not_digit (by decide) (by decide) _

theorem Spells.optional {α : Type} {reader : Reader α} {item? : Json → Option α}
    (hread : yield? reader cs = (item? value).map (·, rest)) :
    yield? (Reader.optional reader) cs = (optional? item? value).map (·, rest) := by
  by_cases hvalue : value = .null
  · subst hvalue
    cases h with
    | null => rfl
  · obtain ⟨c, more, rfl, hc⟩ := h.opens
    rw [optional?_of_ne hvalue, Reader.optional, yield?_bind, yield?_ahead? c more hc.solid,
      Option.bind_some]
    dsimp only
    split
    · next heq => exact absurd (hc.null.mp (Option.some.inj heq)) hvalue
    · rw [yield?_map, hread, Option.map_map, Option.map_map]
      rfl

end readers

end DivisionScript.Json
