import DivisionScript.Proofs.Token.Tiling

/-!
# Token — Spacing

The white space between tokens is free. A lexeme of a token that a separator follows is the longest
one in its place, so however the lexemes of tokens are set apart, the text has these tokens again,
with the same kinds and in the same order; only their lines may differ.
-/

namespace DivisionScript

/-- A text of the lexemes of tokens in order, with a run of separators between each two. After the
last one a run may follow. -/
inductive Spaced : List Token → List Char → Prop
  | nil : Spaced [] []
  | cons {t : Token} {ts : List Token} {gap text : List Char}
      (hgap : ∀ c ∈ gap, c ∈ [' ', '\t', '\r', '\n']) (hne : ts ≠ [] → gap ≠ [])
      (hrest : Spaced ts text) : Spaced (t :: ts) (t.lexeme.toList ++ (gap ++ text))

/-- A token without its line. -/
def Token.content (t : Token) : TokenKind × String :=
  (t.kind, t.lexeme)

/-- The kind of the token is what a class reads its lexeme as. -/
def Token.Spelled (t : Token) : Prop :=
  ∃ cls, Lexeme cls t.lexeme.toList ∧ cls.Denotes t.lexeme.toList (.token t.kind)

variable {cls : LexicalClass} {lexeme rest : List Char} {kind : TokenKind}

/-! ## Lexemes before a separator -/

/-- The classes of lexemes without white space. -/
def LexicalClass.Solid : LexicalClass → Prop
  | symbol _ | number | word => True
  | separator | comment | string => False

theorem Piece.not_isSeparator_of_isWordPart {c : Char} (h : isWordPart c) : ¬ isSeparator c := by
  intro hblank
  have hcode := Start.toNat_le_of_isSeparator hblank
  rw [Start.isWordPart_iff, Char.isAlphanum, Bool.or_eq_true, isAlpha_iff, isDigit_iff] at h
  rcases h with h | rfl
  · omega
  · exact absurd hcode (by decide)

theorem Piece.isWordPart_of_isDigit {c : Char} (h : c.isDigit) : isWordPart c :=
  Start.isWordPart_iff.mpr (.inl (by simp [Char.isAlphanum, h]))

theorem Symbol.not_isSeparator (s : Symbol) : ∀ c ∈ s.spelling, ¬ Piece.isSeparator c := by
  cases s <;> simp [spelling, Piece.isSeparator]

theorem Lexeme.not_isSeparator (h : Lexeme cls lexeme) (hsolid : cls.Solid) :
    ∀ c ∈ lexeme, ¬ Piece.isSeparator c := by
  have hpart {run : List Char} (hrun : ∀ c ∈ run, Piece.isWordPart c) :
      ∀ c ∈ run, ¬ Piece.isSeparator c :=
    fun c hc => Piece.not_isSeparator_of_isWordPart (hrun c hc)
  have hdigits {d : Char} {run : List Char} (hrun : d.isDigit ∧ ∀ c ∈ run, c.isDigit) :
      ∀ c ∈ d :: run, ¬ Piece.isSeparator c := by
    have hall : ∀ c ∈ d :: run, c.isDigit := List.forall_mem_cons.mpr hrun
    exact hpart fun c hc => Piece.isWordPart_of_isDigit (hall c hc)
  cases h with
  | separator | comment | string => exact hsolid.elim
  | symbol s => exact s.not_isSeparator
  | integer hd h => exact hdigits ⟨hd, h⟩
  | @fraction d d' before after hd hbefore hd' hafter =>
    rw [← List.cons_append, List.forall_mem_append]
    refine ⟨hdigits ⟨hd, hbefore⟩, List.forall_mem_cons.mpr ⟨by decide, hdigits ⟨hd', hafter⟩⟩⟩
  | word hc h =>
    exact hpart (List.forall_mem_cons.mpr
      ⟨Piece.isWordPart_of_isWordStart (Start.isWordStart_iff.mpr hc),
        fun c hc => Start.isWordPart_iff.mpr (h c hc)⟩)

/-- No lexeme takes the lexeme of a token and a separator behind it. -/
theorem Lexeme.not_across {cls' : LexicalClass} {c : Char} {more : List Char}
    (h : Lexeme cls lexeme) (hdenotes : cls.Denotes lexeme (.token kind))
    (hc : Piece.isSeparator c) : ¬ Lexeme cls' (lexeme ++ c :: more) := by
  intro h'
  have hsolid (hcls : cls'.Solid) : False :=
    h'.not_isSeparator hcls c (List.mem_append_right _ List.mem_cons_self) hc
  obtain ⟨d, ds, hlexeme, hstart⟩ := h.start
  have hpre : lexeme ++ c :: more <+: d :: (ds ++ c :: more) := by simp [hlexeme]
  have hsame : cls'.start = cls.start := (h'.start_of_prefix hpre).trans hstart
  cases hdenotes with
  | number =>
    cases cls'.eq_number hsame
    exact hsolid trivial
  | keyword | identifier =>
    cases cls'.eq_word hsame
    exact hsolid trivial
  | string body =>
    cases cls'.eq_string hsame
    -- a string ends at the first quote, which is the one that the lexeme ends with
    generalize htext : '"' :: (body ++ ['"']) ++ c :: more = text at h'
    generalize hlexeme : '"' :: (body ++ ['"']) = lexeme at h
    cases h' with
    | @string body' hbody' =>
      cases h with
      | @string body'' hbody =>
        have hbodies : body'' = body := by simpa using hlexeme.symm
        subst hbodies
        have hquotes : body'' ++ '"' :: c :: more = body' ++ '"' :: [] := by simpa using htext
        cases append_stop_inj hbody hbody' hquotes
        simp at hquotes
  | symbol s =>
    rcases cls'.eq_comment_or_symbol hsame with rfl | ⟨s', rfl⟩
    · generalize htext : lexeme ++ c :: more = text at h'
      cases h' with
      | comment =>
        -- what follows a slash here is no second one
        cases h
        cases s <;> cases htext
        exact absurd hc (by decide)
    · exact hsolid trivial

/-- Before a separator or the end, the lexeme of a token is the longest one. -/
theorem Lexeme.longest (h : Lexeme cls lexeme) (hdenotes : cls.Denotes lexeme (.token kind))
    (hrest : ∀ c ∈ rest.head?, Piece.isSeparator c) : Longest cls lexeme rest := by
  refine ⟨h, fun cls' other h' hpre => ?_⟩
  by_contra hlonger
  have hwithin : lexeme <+: other :=
    List.prefix_of_prefix_length_le (List.prefix_append ..) hpre (by omega)
  obtain ⟨more, rfl⟩ := hwithin
  cases more with
  | nil => simp at hlonger
  | cons c more =>
    have hhead : c :: more <+: rest := (List.prefix_append_right_inj lexeme).mp hpre
    obtain ⟨after, rfl⟩ := hhead
    exact h.not_across hdenotes (hrest c rfl) h'

/-! ## Texts of spaced tokens -/

variable {line : Nat} {gap text : List Char} {items : List Item} {ts : List Token}

/-- A run of separators gives no items. -/
theorem munches_gap (hgap : ∀ c ∈ gap, c ∈ [' ', '\t', '\r', '\n'])
    (h : Munches (line + Token.lineFeeds gap) rest items) : Munches line (gap ++ rest) items := by
  induction gap generalizing line with
  | nil => exact h
  | cons c gap ih =>
    obtain ⟨hc, hgap⟩ := List.forall_mem_cons.mp hgap
    rw [Token.lineFeeds, ← List.singleton_append, List.count_append, ← Nat.add_assoc] at h
    have hskipped := Munches.skipped (.separator (Start.isSeparator_iff.mpr hc)) (.separator [c])
      (ih hgap h)
    exact hskipped

/-- What follows the lexeme of a token is a separator or the end. -/
theorem Spaced.head_isSeparator (h : Spaced ts text) (hgap : ∀ c ∈ gap, c ∈ [' ', '\t', '\r', '\n'])
    (hne : ts ≠ [] → gap ≠ []) : ∀ c ∈ (gap ++ text).head?, Piece.isSeparator c := by
  cases gap with
  | nil =>
    cases h with
    | nil => simp
    | cons => exact absurd rfl (hne (by simp))
  | cons d gap =>
    intro c hc
    cases hc
    exact Start.isSeparator_iff.mpr (hgap d List.mem_cons_self)

/-- However tokens are set apart, the text has them again. -/
theorem Spaced.munches (h : Spaced ts text) (hts : ∀ t ∈ ts, t.Spelled) (line : Nat) :
    ∃ us last, Munches line text ((us ++ [⟨.endOfText, "", last⟩]).map .ok) ∧
      us.map Token.content = ts.map Token.content := by
  induction h generalizing line with
  | nil => exact ⟨[], line, .finish line, rfl⟩
  | @cons t ts gap text hgap hne hrest ih =>
    obtain ⟨⟨cls, hlexeme, hdenotes⟩, hts⟩ := List.forall_mem_cons.mp hts
    obtain ⟨us, last, hmunches, hsame⟩ := ih hts
      (line + Token.lineFeeds t.lexeme.toList + Token.lineFeeds gap)
    have hlongest := hlexeme.longest hdenotes (hrest.head_isSeparator hgap hne)
    have htoken := Munches.token hlongest hdenotes (munches_gap hgap hmunches)
    rw [String.ofList_toList] at htoken
    exact ⟨_ :: us, last, htoken, congrArg (t.content :: ·) hsame⟩

end DivisionScript
