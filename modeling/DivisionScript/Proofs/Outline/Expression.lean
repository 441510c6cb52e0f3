import DivisionScript.Program.Outline
import DivisionScript.Proofs.Legible
import DivisionScript.Proofs.Number.Numeral
import DivisionScript.Proofs.Text.Quoted

/-!
# Outline — Expression

The outline of an expression can be read back. How it starts tells whether it is a form, a number, a
string or a name; the word of a form and the number of its operands tell which one it is, so that
one minus sign does for both negations and differences.
-/

namespace DivisionScript

/-! ## Words, numbers and what may stand behind them -/

/-- The text goes on with a character that no word and no number contains. -/
inductive Bounded : List Char → Prop
  | space (rest : List Char) : Bounded (' ' :: rest)
  | parenthesis (rest : List Char) : Bounded (')' :: rest)
  | bracket (rest : List Char) : Bounded (']' :: rest)
  | lineFeed (rest : List Char) : Bounded ('\n' :: rest)

theorem Bounded.head {text : List Char} (h : Bounded text) :
    ∃ c rest, text = c :: rest ∧ c ∈ [' ', ')', ']', '\n'] := by
  cases h <;> exact ⟨_, _, rfl, by decide⟩

/-- Where a run of characters ends is told by the first one that does not belong to it. -/
theorem run_inj {p : Char → Bool} {run run' s t : List Char} {c d : Char} (hrun : ∀ x ∈ run, p x)
    (hrun' : ∀ x ∈ run', p x) (hc : p c = false) (hd : p d = false)
    (h : run ++ c :: s = run' ++ d :: t) : run = run' ∧ c :: s = d :: t := by
  have hhead := congrArg (List.takeWhile p) h
  have htail := congrArg (List.dropWhile p) h
  rw [takeWhile_append_stop hrun hc, takeWhile_append_stop hrun' hd] at hhead
  rw [dropWhile_append_stop hrun hc, dropWhile_append_stop hrun' hd] at htail
  exact ⟨hhead, htail⟩

theorem Bounded.run_inj {p : Char → Bool} {run run' s t : List Char} (hs : Bounded s)
    (ht : Bounded t) (hstop : ∀ c ∈ [' ', ')', ']', '\n'], p c = false) (hrun : ∀ x ∈ run, p x)
    (hrun' : ∀ x ∈ run', p x) (h : run ++ s = run' ++ t) : run = run' ∧ s = t := by
  obtain ⟨c, s, rfl, hc⟩ := hs.head
  obtain ⟨d, t, rfl, hd⟩ := ht.head
  exact DivisionScript.run_inj hrun hrun' (hstop c hc) (hstop d hd) h

theorem IsWord.chars {name : String} (h : IsWord name) :
    ∃ c cs, name.toList = c :: cs ∧ Piece.isWordStart c ∧
      ∀ d ∈ name.toList, Piece.isWordPart d := by
  rw [IsWord] at h
  generalize name.toList = lexeme at h
  cases h with
  | word hc hcs =>
    have hstart := Start.isWordStart_iff.mpr hc
    exact ⟨_, _, rfl, hstart, List.forall_mem_cons.mpr ⟨Piece.isWordPart_of_isWordStart hstart,
      fun d hd => Start.isWordPart_iff.mpr (hcs d hd)⟩⟩

theorem IsWord.append_inj {a b : String} {s t : List Char} (ha : IsWord a) (hb : IsWord b)
    (hs : Bounded s) (ht : Bounded t) (h : a.toList ++ s = b.toList ++ t) : a = b ∧ s = t := by
  obtain ⟨_, _, -, -, hachars⟩ := ha.chars
  obtain ⟨_, _, -, -, hbchars⟩ := hb.chars
  have hstop : ∀ c ∈ [' ', ')', ']', '\n'], Piece.isWordPart c = false := by
    simp [Piece.isWordPart]
  obtain ⟨hname, hrest⟩ := hs.run_inj ht hstop hachars hbchars h
  exact ⟨String.toList_inj.mp hname, hrest⟩

theorem IsWord.before_space {a b : String} {s t : List Char} (ha : IsWord a) (hb : IsWord b)
    (h : a.toList ++ ' ' :: s = b.toList ++ ' ' :: t) : a = b ∧ s = t := by
  obtain ⟨hname, hrest⟩ := ha.append_inj hb (.space s) (.space t) h
  exact ⟨hname, (List.cons_eq_cons.mp hrest).2⟩

/-- Whether the character can stand in the outline of a number. -/
def isNumeric (c : Char) : Bool :=
  c.isDigit || c == '.' || c == '-'

theorem isNumeric_of_mem {x : Float} (h : x.isFinite) :
    ∀ c ∈ (Number.outlineText x).toList, isNumeric c := by
  intro c hc
  have hchars := (Number.outlineText_chars h).2 c hc
  simpa [isNumeric, or_assoc] using hchars

theorem outlineText_append_inj {x y : Float} {s t : List Char} (hx : x.isFinite) (hy : y.isFinite)
    (hs : Bounded s) (ht : Bounded t)
    (h : (Number.outlineText x).toList ++ s = (Number.outlineText y).toList ++ t) :
    x = y ∧ s = t := by
  have hstop : ∀ c ∈ [' ', ')', ']', '\n'], isNumeric c = false := by
    simp [isNumeric]
  obtain ⟨htext, hrest⟩ := hs.run_inj ht hstop (isNumeric_of_mem hx) (isNumeric_of_mem hy) h
  exact ⟨Number.outlineText_inj hx hy (String.toList_inj.mp htext), hrest⟩

theorem opening_inj {word word' s t : List Char} (hword : ' ' ∉ word) (hword' : ' ' ∉ word')
    (h : opening word ++ s = opening word' ++ t) : word = word' ∧ s = t := by
  simp only [opening, List.cons_append, List.append_assoc, List.nil_append, List.cons.injEq,
    true_and] at h
  obtain ⟨hsame, hrest⟩ := run_inj (bne_of_notMem hword) (bne_of_notMem hword')
    (bne_self_eq_false ' ') (bne_self_eq_false ' ') h
  exact ⟨hsame, (List.cons_eq_cons.mp hrest).2⟩

/-! ## Expressions -/

namespace Expr

/-- What the outline of an expression can be. -/
inductive Kind where
  | form | number | string | name

/-- The kind of outline that starts with the character. -/
def Kind.of? (c : Char) : Option Kind :=
  if c = '(' then some .form
  else if c = '"' then some .string
  else if isNumeric c then some .number
  else if Piece.isWordStart c then some .name
  else none

/-- What the outline of the expression is. -/
def kind : Expr → Kind
  | .number _ => .number
  | .string _ => .string
  | .identifier _ => .name
  | _ => .form

theorem Kind.of?_numeric {c : Char} (h : isNumeric c) : of? c = some .number := by
  have hform : c ≠ '(' := by
    rintro rfl
    cases h
  have hstring : c ≠ '"' := by
    rintro rfl
    cases h
  rw [of?, if_neg hform, if_neg hstring, if_pos h]

theorem Kind.of?_wordStart {c : Char} (h : Piece.isWordStart c) : of? c = some .name := by
  have hcode : 65 ≤ c.toNat := by
    rw [Start.isWordStart_iff, isAlpha_iff] at h
    rcases h with h | rfl
    · omega
    · decide
  have hform : c ≠ '(' := by
    rintro rfl
    exact absurd hcode (by decide)
  have hstring : c ≠ '"' := by
    rintro rfl
    exact absurd hcode (by decide)
  have hnumber : ¬ isNumeric c := by
    intro hnumeric
    simp only [isNumeric, Bool.or_eq_true, isDigit_iff, beq_iff_eq] at hnumeric
    rcases hnumeric with (hdigit | rfl) | rfl
    · omega
    · exact absurd hcode (by decide)
    · exact absurd hcode (by decide)
  rw [of?, if_neg hform, if_neg hstring, if_neg hnumber, if_pos h]

/-- How an outline starts tells what it is. -/
theorem kind_of_outlineOnto {e : Expr} (h : e.Legible) (t : List Char) :
    ∃ c rest, e.outlineOnto t = c :: rest ∧ Kind.of? c = some e.kind := by
  cases e with
  | firstPower => exact h.elim
  | number x =>
    obtain ⟨hne, -⟩ := Number.outlineText_chars h
    obtain ⟨c, cs, htext⟩ := List.exists_cons_of_ne_nil hne
    have hnumeric := isNumeric_of_mem h c (by simp [htext])
    exact ⟨c, cs ++ t, by rw [outlineOnto, htext]; rfl, Kind.of?_numeric hnumeric⟩
  | identifier name =>
    obtain ⟨c, cs, htext, hstart, -⟩ := IsWord.chars h
    exact ⟨c, cs ++ t, by rw [outlineOnto, htext]; rfl, Kind.of?_wordStart hstart⟩
  | _ => exact ⟨_, _, rfl, rfl⟩

/-- The word of a form and its operands. -/
def parts? : Expr → Option (List Char × List Expr)
  | .disjunction left right => some (['o', 'r'], [left, right])
  | .conjunction left right => some (['a', 'n', 'd'], [left, right])
  | .comparison left op right => some (op.spelling.toList, [left, right])
  | .sum left op right => some (op.spelling.toList, [left, right])
  | .term left op right => some (op.spelling.toList, [left, right])
  | .power base exponent => some (['^'], [base, exponent])
  | .negate operand => some (['-'], [operand])
  | .group inner => some (['g', 'r', 'o', 'u', 'p'], [inner])
  | _ => none

/-- The form that a word and its operands make. -/
def ofParts? : List Char → List Expr → Option Expr
  | ['-'], [operand] => some (.negate operand)
  | ['g', 'r', 'o', 'u', 'p'], [inner] => some (.group inner)
  | ['o', 'r'], [left, right] => some (.disjunction left right)
  | ['a', 'n', 'd'], [left, right] => some (.conjunction left right)
  | ['=', '='], [left, right] => some (.comparison left .equal right)
  | ['!', '='], [left, right] => some (.comparison left .notEqual right)
  | ['<'], [left, right] => some (.comparison left .less right)
  | ['>'], [left, right] => some (.comparison left .greater right)
  | ['<', '='], [left, right] => some (.comparison left .lessEqual right)
  | ['>', '='], [left, right] => some (.comparison left .greaterEqual right)
  | ['+'], [left, right] => some (.sum left .add right)
  | ['-'], [left, right] => some (.sum left .sub right)
  | ['*'], [left, right] => some (.term left .mul right)
  | ['/'], [left, right] => some (.term left .div right)
  | ['^'], [base, exponent] => some (.power base exponent)
  | _, _ => none

variable {e e' : Expr} {word : List Char} {es : List Expr}

theorem ofParts?_of_parts? (h : e.parts? = some (word, es)) : ofParts? word es = some e := by
  cases e with
  | comparison left op right => cases op <;> cases h <;> rfl
  | sum left op right => cases op <;> cases h <;> rfl
  | term left op right => cases op <;> cases h <;> rfl
  | _ => cases h <;> rfl

theorem space_notMem_of_parts? (h : e.parts? = some (word, es)) : ' ' ∉ word := by
  cases e with
  | comparison left op right => cases op <;> cases h <;> decide
  | sum left op right => cases op <;> cases h <;> decide
  | term left op right => cases op <;> cases h <;> decide
  | _ => cases h <;> decide

theorem outlineOnto_of_parts? (h : e.parts? = some (word, es)) (t : List Char) :
    e.outlineOnto t = opening word ++ spacedOnto es (')' :: t) := by
  cases e <;> cases h <;> rfl

theorem legible_of_parts? (h : e.parts? = some (word, es)) (hlegible : e.Legible) :
    ∀ x ∈ es, x.Legible := by
  cases e <;> cases h <;> simpa [Legible] using hlegible

theorem parts?_of_kind (h : e.Legible) (hform : e.kind = .form) :
    ∃ word es, e.parts? = some (word, es) := by
  cases e with
  | number | string | identifier => cases hform
  | firstPower => exact h.elim
  | _ => exact ⟨_, _, rfl⟩

/-- Expressions whose outlines agree before texts that bound them have one kind. -/
theorem kind_eq (h : e.Legible) (h' : e'.Legible) {s t : List Char}
    (hsame : e.outlineOnto s = e'.outlineOnto t) : e.kind = e'.kind := by
  obtain ⟨c, rest, htext, hkind⟩ := kind_of_outlineOnto h s
  obtain ⟨c', rest', htext', hkind'⟩ := kind_of_outlineOnto h' t
  rw [htext, htext'] at hsame
  obtain ⟨rfl, -⟩ := List.cons_eq_cons.mp hsame
  exact Option.some.inj (hkind.symm.trans hkind')

/-- The outline of the expression can be read back from any text that goes on behind it. -/
def Readable (e : Expr) : Prop :=
  ∀ ⦃e' : Expr⦄ ⦃s t : List Char⦄, e'.Legible → Bounded s → Bounded t →
    e.outlineOnto s = e'.outlineOnto t → e = e' ∧ s = t

end Expr

/-! ### Operands -/

/-- What follows the first of several expressions. -/
def restOnto : List Expr → List Char → List Char
  | [], tail => tail
  | e :: rest, tail => ' ' :: spacedOnto (e :: rest) tail

theorem spacedOnto_cons (e : Expr) (rest : List Expr) (t : List Char) :
    spacedOnto (e :: rest) t = e.outlineOnto (restOnto rest t) := by
  cases rest <;> rfl

theorem bounded_restOnto {t : List Char} (ht : Bounded t) (es : List Expr) :
    Bounded (restOnto es t) := by
  cases es with
  | nil => exact ht
  | cons e rest => exact .space _

/-- Whether a further expression follows is told by a space. -/
theorem spacedOnto_of_restOnto {es es' : List Expr} {c : Char} {s t : List Char} (hc : c ≠ ' ')
    (h : restOnto es (c :: s) = restOnto es' (c :: t)) :
    spacedOnto es (c :: s) = spacedOnto es' (c :: t) := by
  cases es <;> cases es'
  · exact h
  · exact absurd (List.cons_eq_cons.mp h).1 hc
  · exact absurd (List.cons_eq_cons.mp h).1.symm hc
  · exact (List.cons_eq_cons.mp h).2

/-- Expressions that can be read back one by one can be read back where spaces set them apart and a
closing character ends them. -/
theorem spacedOnto_inj {es es' : List Expr} {c : Char} {s t : List Char} (hc : c = ')' ∨ c = ']')
    (hread : ∀ e ∈ es, e.Readable) (hes : ∀ e ∈ es, e.Legible) (hes' : ∀ e ∈ es', e.Legible)
    (h : spacedOnto es (c :: s) = spacedOnto es' (c :: t)) : es = es' ∧ s = t := by
  have no_start {e : Expr} {u v : List Char} (he : e.Legible) : e.outlineOnto u ≠ c :: v := by
    intro hstart
    obtain ⟨d, rest, htext, hkind⟩ := Expr.kind_of_outlineOnto he u
    rw [htext] at hstart
    obtain ⟨rfl, -⟩ := List.cons_eq_cons.mp hstart
    rcases hc with rfl | rfl <;> cases hkind
  have bounded (u : List Char) : Bounded (c :: u) := by
    rcases hc with rfl | rfl
    · exact .parenthesis u
    · exact .bracket u
  induction es generalizing es' with
  | nil =>
    cases es' with
    | nil => exact ⟨rfl, (List.cons_eq_cons.mp h).2⟩
    | cons e' rest' =>
      rw [spacedOnto_cons] at h
      exact absurd h.symm (no_start (hes' e' List.mem_cons_self))
  | cons e rest ih =>
    cases es' with
    | nil =>
      rw [spacedOnto_cons] at h
      exact absurd h (no_start (hes e List.mem_cons_self))
    | cons e' rest' =>
      rw [spacedOnto_cons, spacedOnto_cons] at h
      rw [List.forall_mem_cons] at hread hes hes'
      obtain ⟨rfl, hrest⟩ :=
        hread.1 hes'.1 (bounded_restOnto (bounded s) rest) (bounded_restOnto (bounded t) rest') h
      have hspace : c ≠ ' ' := by grind
      obtain ⟨rfl, hsame⟩ := ih hread.2 hes.2 hes'.2 (spacedOnto_of_restOnto hspace hrest)
      exact ⟨rfl, hsame⟩

namespace Expr

variable {e : Expr} {word : List Char} {es : List Expr}

/-- A form can be read back if its operands can. -/
theorem readable_of_parts? (h : e.parts? = some (word, es)) (hlegible : e.Legible)
    (hread : ∀ x ∈ es, x.Readable) : e.Readable := by
  intro e' s t hlegible' hs ht hsame
  have hform : e.kind = .form := by
    cases e <;> cases h <;> rfl
  obtain ⟨word', es', h'⟩ :=
    parts?_of_kind hlegible' ((kind_eq hlegible hlegible' hsame).symm.trans hform)
  rw [outlineOnto_of_parts? h, outlineOnto_of_parts? h'] at hsame
  obtain ⟨rfl, hoperands⟩ :=
    opening_inj (space_notMem_of_parts? h) (space_notMem_of_parts? h') hsame
  obtain ⟨rfl, hrest⟩ := spacedOnto_inj (.inl rfl) hread (legible_of_parts? h hlegible)
    (legible_of_parts? h' hlegible') hoperands
  have hsame := (ofParts?_of_parts? h).symm.trans (ofParts?_of_parts? h')
  exact ⟨Option.some.inj hsame, hrest⟩

/-- The outline of a legible expression can be read back. -/
theorem Legible.readable (hlegible : e.Legible) : e.Readable := by
  induction e with
  | disjunction left right ihl ihr | conjunction left right ihl ihr
  | comparison left op right ihl ihr | sum left op right ihl ihr | term left op right ihl ihr
  | power left right ihl ihr =>
    refine readable_of_parts? rfl hlegible ?_
    rw [List.forall_mem_cons, List.forall_mem_singleton]
    exact ⟨ihl hlegible.1, ihr hlegible.2⟩
  | negate operand ih | group operand ih =>
    refine readable_of_parts? rfl hlegible ?_
    rw [List.forall_mem_singleton]
    exact ih hlegible
  | firstPower => exact hlegible.elim
  | number x =>
    intro e' s t hlegible' hs ht hsame
    have hkind := kind_eq hlegible hlegible' hsame
    cases e' with
    | number y =>
      obtain ⟨rfl, hrest⟩ := outlineText_append_inj hlegible hlegible' hs ht hsame
      exact ⟨rfl, hrest⟩
    | _ => cases hkind
  | string text =>
    intro e' s t hlegible' hs ht hsame
    have hkind := kind_eq hlegible hlegible' hsame
    cases e' with
    | string text' =>
      obtain ⟨rfl, hrest⟩ := quotedOnto_inj hsame
      exact ⟨rfl, hrest⟩
    | _ => cases hkind
  | identifier name =>
    intro e' s t hlegible' hs ht hsame
    have hkind := kind_eq hlegible hlegible' hsame
    cases e' with
    | identifier name' =>
      obtain ⟨rfl, hrest⟩ := IsWord.append_inj hlegible hlegible' hs ht hsame
      exact ⟨rfl, hrest⟩
    | _ => cases hkind

end Expr

end DivisionScript
