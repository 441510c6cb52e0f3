import DivisionScript.Proofs.Token.Lexeme

/-!
# Token — Longest

The piece that a step of a scan takes is the longest lexeme of any class, read as its class is read,
or no class has a lexeme there and the piece is an error: `Piece.lexical_first`. The character that
a text starts with leaves one class to compare with, or, for a mark, comments and symbols.
-/

namespace DivisionScript

/-! ## Runs of characters -/

section runs

variable {p : Char → Bool} {run text : List Char}

theorem length_le_takeWhile (hrun : ∀ c ∈ run, p c) (hpre : run <+: text) :
    run.length ≤ (text.takeWhile p).length := by
  obtain ⟨rest, rfl⟩ := hpre
  rw [List.takeWhile_append_of_pos hrun, List.length_append]
  exact Nat.le_add_right ..

theorem takeWhile_append_stop {c : Char} {rest : List Char} (hrun : ∀ d ∈ run, p d)
    (hc : p c = false) :
    (run ++ c :: rest).takeWhile p = run := by
  rw [List.takeWhile_append_of_pos hrun, List.takeWhile_cons_of_neg (by simp [hc]), List.append_nil]

theorem dropWhile_append_stop {c : Char} {rest : List Char} (hrun : ∀ d ∈ run, p d)
    (hc : p c = false) :
    (run ++ c :: rest).dropWhile p = c :: rest := by
  rw [List.dropWhile_append_of_pos hrun, List.dropWhile_cons_of_neg (by simp [hc])]

theorem bne_of_notMem {c : Char} (h : c ∉ run) : ∀ d ∈ run, (d != c) = true := by
  rintro d hd
  rw [bne_iff_ne]
  rintro rfl
  exact h hd

/-- A run ends at the first character that stops it. -/
theorem append_stop_inj {run' : List Char} {c : Char} {rest rest' : List Char} (hrun : c ∉ run)
    (hrun' : c ∉ run') (h : run ++ c :: rest = run' ++ c :: rest') : run = run' := by
  have h := congrArg (List.takeWhile (· != c)) h
  rwa [takeWhile_append_stop (bne_of_notMem hrun) (bne_self_eq_false c),
    takeWhile_append_stop (bne_of_notMem hrun') (bne_self_eq_false c)] at h

theorem takeWhile_eq_self (hrun : ∀ d ∈ run, p d) : run.takeWhile p = run :=
  List.takeWhile_eq_self_iff.mpr hrun

theorem dropWhile_eq_nil (hrun : ∀ d ∈ run, p d) : run.dropWhile p = [] :=
  List.dropWhile_eq_nil_iff.mpr hrun

end runs

/-! ## The values of number lexemes -/

namespace Number

theorem toLower_of_isDigit {c : Char} (hc : c.isDigit) : c.toLower = c := by
  have hcode := isDigit_iff.mp hc
  have hupper : ¬ (c.val ≥ 'A'.val ∧ c.val ≤ 'Z'.val) := by
    rintro ⟨hle, -⟩
    have hle : 65 ≤ c.toNat := UInt32.le_iff_toNat_le.mp hle
    omega
  exact dif_neg hupper

section digits

variable {c : Char} {before after digits : List Char}

/-- A text that starts with a digit is no name of a special value. -/
theorem magnitude?_digit {cs : List Char} (hc : c.isDigit) :
    magnitude? (c :: cs) = unsigned? (c :: cs) := by
  have hne : ∀ d : Char, ¬ d.isDigit → c ≠ d := fun d hd h => hd (h ▸ hc)
  have hi := hne 'i' (by decide)
  have hn := hne 'n' (by decide)
  simp [magnitude?, toLower_of_isDigit hc, hi, hn]

/-- A text that starts with a digit has no sign. -/
theorem ofChars?_digit {cs : List Char} (hc : c.isDigit) :
    ofChars? (c :: cs) = unsigned? (c :: cs) := by
  have hne : ∀ d : Char, ¬ d.isDigit → c ≠ d := fun d hd h => hd (h ▸ hc)
  have hminus := hne '-' (by decide)
  have hplus := hne '+' (by decide)
  rw [ofChars?.eq_3 _ (by simp [hminus]) (by simp [hplus]), magnitude?_digit hc]

theorem unsigned?_integer (hne : digits ≠ []) (hdigits : ∀ d ∈ digits, d.isDigit) :
    unsigned? digits = some (ofDecimal (natOfDigits digits) 0) := by
  rw [unsigned?, takeWhile_eq_self hdigits, dropWhile_eq_nil hdigits]
  simp [exponent?, hne]

theorem unsigned?_fraction (hne : before ≠ []) (hbefore : ∀ d ∈ before, d.isDigit)
    (hafter : ∀ d ∈ after, d.isDigit) : unsigned? (before ++ '.' :: after) =
      some (ofDecimal (natOfDigits (before ++ after)) (-after.length)) := by
  rw [unsigned?, takeWhile_append_stop hbefore rfl, dropWhile_append_stop hbefore rfl]
  simp only [takeWhile_eq_self hafter, dropWhile_eq_nil hafter]
  simp [exponent?, hne]

theorem ofString?_integer (hc : c.isDigit) (hdigits : ∀ d ∈ digits, d.isDigit) :
    ofString? (String.ofList (c :: digits)) = some (ofDecimal (natOfDigits (c :: digits)) 0) := by
  rw [ofString?, String.toList_ofList, ofChars?_digit hc]
  exact unsigned?_integer (List.cons_ne_nil _ _) (List.forall_mem_cons.mpr ⟨hc, hdigits⟩)

theorem ofString?_fraction (hc : c.isDigit)
    (hbefore : ∀ d ∈ before, d.isDigit) (hafter : ∀ d ∈ after, d.isDigit) :
    ofString? (String.ofList (c :: before ++ '.' :: after)) =
      some (ofDecimal (natOfDigits (c :: before ++ after)) (-after.length)) := by
  rw [ofString?, String.toList_ofList, List.cons_append, ofChars?_digit hc, ← List.cons_append]
  exact unsigned?_fraction (List.cons_ne_nil _ _) (List.forall_mem_cons.mpr ⟨hc, hbefore⟩) hafter

end digits

end Number

/-! ## The longest lexemes of each class -/

/-- A piece is the longest lexeme of a class, read as its class is read, or an error where no class
has a lexeme. -/
def Piece.Lexical (piece : Piece) : Prop :=
  (∃ cls, Longest cls piece.text piece.rest ∧ cls.Denotes piece.text piece.reading) ∨
  ∃ cause, piece.reading = .error cause ∧ Unlexical (piece.text ++ piece.rest) ∧
    cause.Covers piece.text piece.rest

namespace LexicalClass

variable {cls : LexicalClass}

theorem eq_separator (h : cls.start = .blank) : cls = .separator := by
  cases cls <;> first | rfl | cases h

theorem eq_string (h : cls.start = .quote) : cls = .string := by
  cases cls <;> first | rfl | cases h

theorem eq_number (h : cls.start = .digit) : cls = .number := by
  cases cls <;> first | rfl | cases h

theorem eq_word (h : cls.start = .letter) : cls = .word := by
  cases cls <;> first | rfl | cases h

theorem eq_comment_or_symbol (h : cls.start = .mark) :
    cls = .comment ∨ ∃ s, cls = .symbol s := by
  cases cls with
  | comment => exact .inl rfl
  | symbol s => exact .inr ⟨s, rfl⟩
  | _ => cases h

end LexicalClass

theorem Longest.separator {c : Char} {rest : List Char} (hc : Piece.isSeparator c) :
    Longest .separator [c] rest := by
  refine ⟨.separator (Start.isSeparator_iff.mp hc), fun cls other h hpre => ?_⟩
  cases cls.eq_separator ((h.start_of_prefix hpre).trans (Start.of_separator hc))
  cases h
  exact Nat.le_refl _

namespace Piece

variable {c : Char} {cs : List Char}

theorem lexical_separator (hc : isSeparator c) : (cut .skipped 1 (c :: cs)).Lexical :=
  .inl ⟨.separator, .separator hc, .separator _⟩

/-- Where a symbol is written, a symbol is found that is at least as long. -/
theorem symbol?_append (s : Symbol) (rest : List Char) :
    ∃ s', symbol? (s.spelling ++ rest) = some s' ∧ s.spelling.length ≤ s'.spelling.length := by
  have hequals (s : Symbol) (hs : s = .equal ∨ s = .less ∨ s = .greater) :
      ∃ s', symbol? (s.spelling ++ rest) = some s' ∧ s.spelling.length ≤ s'.spelling.length := by
    -- these three begin longer symbols, which end in an equals sign
    by_cases hrest : ∃ more, rest = '=' :: more
    · obtain ⟨more, rfl⟩ := hrest
      rcases hs with rfl | rfl | rfl <;> exact ⟨_, rfl, by decide⟩
    · have hne : ∀ more, rest = '=' :: more → False := fun more h => hrest ⟨more, h⟩
      rcases hs with rfl | rfl | rfl
      · exact ⟨.equal, by simp [symbol?, Symbol.spelling], Nat.le_refl _⟩
      · exact ⟨.less, by simp [symbol?, Symbol.spelling], Nat.le_refl _⟩
      · exact ⟨.greater, by simp [symbol?, Symbol.spelling], Nat.le_refl _⟩
  cases s with
  | equal => exact hequals _ (.inl rfl)
  | less => exact hequals _ (.inr (.inl rfl))
  | greater => exact hequals _ (.inr (.inr rfl))
  | _ => exact ⟨_, rfl, by decide⟩

theorem symbol?_starts {text : List Char} {s : Symbol} (h : symbol? text = some s) :
    s.spelling <+: text := by
  unfold symbol? at h
  split at h <;> cases h <;> exact ⟨_, rfl⟩

theorem symbol?_eq_none {text : List Char} (h : ∀ s : Symbol, ¬ s.spelling <+: text) :
    symbol? text = none := by
  cases hs : symbol? text with
  | none => rfl
  | some s => exact absurd (symbol?_starts hs) (h s)

theorem symbol?_of_prefix {text : List Char} {s : Symbol} (h : s.spelling <+: text) :
    ∃ s', symbol? text = some s' ∧ s.spelling.length ≤ s'.spelling.length := by
  obtain ⟨rest, rfl⟩ := h
  exact symbol?_append s rest

theorem lexical_comment : (comment ('/' :: '/' :: cs)).Lexical := by
  have htext : (comment ('/' :: '/' :: cs)).text = '/' :: '/' :: cs.takeWhile (· != '\n') := rfl
  refine .inl ⟨.comment, ⟨?_, ?_⟩, .comment _⟩
  · rw [htext]
    refine .comment fun hmem => ?_
    simpa using List.mem_takeWhile_imp hmem
  · intro cls other h hpre
    have happend : (comment ('/' :: '/' :: cs)).text ++ (comment ('/' :: '/' :: cs)).rest =
        '/' :: '/' :: cs := List.takeWhile_append_dropWhile
    rw [happend] at hpre
    rcases cls.eq_comment_or_symbol (h.start_of_prefix hpre) with rfl | ⟨s, rfl⟩
    · cases h with
      | comment hbody => exact length_le_takeWhile (bne_of_notMem (by simpa using hbody)) hpre
    · cases h
      obtain ⟨s', hs', hle⟩ := symbol?_of_prefix hpre
      cases hs'
      rw [htext]
      exact hle.trans (Nat.le_add_left ..)

theorem string_closed {body rest : List Char} (h : '"' ∉ body) :
    string (body ++ '"' :: rest) =
      ⟨.token (.string (String.ofList body)), '"' :: (body ++ ['"']), rest⟩ := by
  simp only [string, takeWhile_append_stop (bne_of_notMem h) (bne_self_eq_false '"'),
    dropWhile_append_stop (bne_of_notMem h) (bne_self_eq_false '"'), List.cons_append]

theorem string_open (h : '"' ∉ cs) :
    string cs = ⟨.error .unterminatedString, '"' :: cs, []⟩ := by
  simp only [string, takeWhile_eq_self (bne_of_notMem h), dropWhile_eq_nil (bne_of_notMem h)]

theorem lexical_string : (string cs).Lexical := by
  by_cases hmem : '"' ∈ cs
  · obtain ⟨body, rest, rfl, hbody⟩ := List.eq_append_cons_of_mem hmem
    rw [string_closed hbody]
    refine .inl ⟨.string, ⟨.string hbody, fun cls other h hpre => ?_⟩, .string body⟩
    cases cls.eq_string (h.start_of_prefix hpre)
    cases h with
    | @string body' hbody' =>
      obtain ⟨more, hmore⟩ := hpre
      -- a string ends at the first quote, so there is one string only
      have hsame : body' ++ '"' :: more = body ++ '"' :: rest := by simpa using hmore
      rw [append_stop_inj hbody' hbody hsame]
  · rw [string_open hmem]
    refine .inr ⟨.unterminatedString, rfl, fun cls lexeme h hpre => ?_, rfl, cs, rfl, hmem⟩
    rw [List.append_nil] at hpre
    cases cls.eq_string (h.start_of_prefix hpre)
    cases h with
    | string hbody =>
      exact hmem <| (List.cons_prefix_cons.mp hpre).2.subset
        (List.mem_append_right _ (List.mem_singleton_self '"'))

/-- A number takes a point and the digits after it, if there is a digit after it. -/
theorem number_fraction {before rest : List Char} {d : Char}
    (hbefore : ∀ c ∈ before, c.isDigit) (hd : d.isDigit) :
    number (before ++ '.' :: d :: rest) =
      ⟨.token (.number (Number.ofDecimal
          (Number.natOfDigits (before ++ d :: rest.takeWhile Char.isDigit))
          (-(d :: rest.takeWhile Char.isDigit).length))),
        before ++ '.' :: d :: rest.takeWhile Char.isDigit, rest.dropWhile Char.isDigit⟩ := by
  simp only [number, takeWhile_append_stop hbefore (show Char.isDigit '.' = false from rfl),
    dropWhile_append_stop hbefore (show Char.isDigit '.' = false from rfl), hd, if_true]

/-- Otherwise a number is its digits. -/
theorem number_integer {text : List Char}
    (h : ∀ d rest, text.dropWhile Char.isDigit = '.' :: d :: rest → ¬ d.isDigit) :
    number text = ⟨.token (.number (Number.ofDecimal
        (Number.natOfDigits (text.takeWhile Char.isDigit)) 0)),
      text.takeWhile Char.isDigit, text.dropWhile Char.isDigit⟩ := by
  simp only [number]
  split
  · next d rest hdrop =>
    rw [if_neg (h d rest hdrop), hdrop]
  · rfl

/-- A number lexeme is digits, or digits around a point. -/
theorem number_cases {lexeme : List Char} (h : Lexeme .number lexeme) :
    (∀ c ∈ lexeme, c.isDigit) ∨
    ∃ before d after, lexeme = before ++ '.' :: d :: after ∧ (∀ c ∈ before, c.isDigit) ∧
      d.isDigit ∧ ∀ c ∈ after, c.isDigit := by
  cases h with
  | integer hd hdigits => exact .inl (List.forall_mem_cons.mpr ⟨hd, hdigits⟩)
  | @fraction c d before after hc hbefore hd hafter =>
    exact .inr ⟨c :: before, d, after, rfl, List.forall_mem_cons.mpr ⟨hc, hbefore⟩, hd, hafter⟩

theorem lexical_fraction {before rest : List Char} {d : Char} (hc : c.isDigit)
    (hbefore : ∀ c ∈ before, c.isDigit) (hd : d.isDigit) :
    (number (c :: before ++ '.' :: d :: rest)).Lexical := by
  have hall : ∀ d ∈ c :: before, d.isDigit := List.forall_mem_cons.mpr ⟨hc, hbefore⟩
  have hafter : ∀ c ∈ rest.takeWhile Char.isDigit, c.isDigit := fun _ => List.mem_takeWhile_imp
  have hpoint {run : List Char} (hrun : ∀ c ∈ run, c.isDigit) : '.' ∉ run := fun h =>
    absurd (hrun _ h) (by decide)
  have happend : (number (c :: before ++ '.' :: d :: rest)).text ++
      (number (c :: before ++ '.' :: d :: rest)).rest = c :: before ++ '.' :: d :: rest :=
    number_text_append_rest
  rw [number_fraction hall hd] at happend ⊢
  refine .inl ⟨.number, ⟨.fraction hc hbefore hd hafter, fun cls other h hpre => ?_⟩, .number ?_⟩
  · rw [happend] at hpre
    cases cls.eq_number ((h.start_of_prefix hpre).trans (Start.of_digit hc))
    -- the other lexeme stops before the point, or has its point in the same place
    rcases number_cases h with hdigits | ⟨before', d', after', rfl, hbefore', hd', hafter'⟩
    · refine (length_le_takeWhile hdigits hpre).trans ?_
      rw [takeWhile_append_stop hall rfl, List.length_append]
      exact Nat.le_add_right ..
    · obtain ⟨more, hmore⟩ := hpre
      rw [List.append_assoc, List.cons_append] at hmore
      cases append_stop_inj (hpoint hbefore') (hpoint hall) hmore
      obtain ⟨-, hrest⟩ : d' = d ∧ after' ++ more = rest := by
        simpa using List.append_cancel_left hmore
      have hle := length_le_takeWhile hafter' ⟨more, hrest⟩
      simpa using hle
  · exact Number.ofString?_fraction hc hbefore (List.forall_mem_cons.mpr ⟨hd, hafter⟩)

theorem lexical_integer (hc : c.isDigit)
    (h : ∀ d rest, (c :: cs).dropWhile Char.isDigit = '.' :: d :: rest → ¬ d.isDigit) :
    (number (c :: cs)).Lexical := by
  have htake : (c :: cs).takeWhile Char.isDigit = c :: cs.takeWhile Char.isDigit :=
    List.takeWhile_cons_of_pos hc
  have hdigits : ∀ d ∈ cs.takeWhile Char.isDigit, d.isDigit := fun _ => List.mem_takeWhile_imp
  rw [number_integer h]
  refine .inl ⟨.number, ⟨?_, fun cls other hother hpre => ?_⟩, .number ?_⟩
  · rw [htake]
    exact .integer hc hdigits
  · rw [List.takeWhile_append_dropWhile] at hpre
    cases cls.eq_number ((hother.start_of_prefix hpre).trans (Start.of_digit hc))
    -- a lexeme with a point would put a digit after the point that follows the digits here
    rcases number_cases hother with hall | ⟨before, d, after, rfl, hbefore, hd, -⟩
    · exact length_le_takeWhile hall hpre
    · obtain ⟨more, hmore⟩ := hpre
      rw [List.append_assoc, List.cons_append] at hmore
      have hdrop : (before ++ '.' :: (d :: after ++ more)).dropWhile Char.isDigit =
          '.' :: d :: (after ++ more) := dropWhile_append_stop hbefore rfl
      rw [hmore] at hdrop
      exact absurd hd (h d _ hdrop)
  · rw [htake]
    exact Number.ofString?_integer hc hdigits

theorem lexical_number (hc : c.isDigit) : (number (c :: cs)).Lexical := by
  by_cases h : ∃ d rest, (c :: cs).dropWhile Char.isDigit = '.' :: d :: rest ∧ d.isDigit
  · obtain ⟨d, rest, hdrop, hd⟩ := h
    have htext := List.takeWhile_append_dropWhile (p := Char.isDigit) (l := c :: cs)
    rw [hdrop, List.takeWhile_cons_of_pos hc] at htext
    rw [← htext]
    exact lexical_fraction hc (fun _ => List.mem_takeWhile_imp) hd
  · exact lexical_integer hc fun d rest hdrop hd => h ⟨d, rest, hdrop, hd⟩

theorem isWordPart_of_isWordStart (hc : isWordStart c) : isWordPart c := by
  simp only [isWordStart, isWordPart, Char.isAlphanum, Bool.or_eq_true] at hc ⊢
  exact hc.imp_left .inl

theorem denotes_wordKind (text : List Char) :
    LexicalClass.Denotes .word text (.token (wordKind text)) := by
  rw [wordKind]
  split
  · next k hk =>
    have hspelling := congrArg String.toList (Keyword.spelling_of_ofSpelling? hk)
    rw [String.toList_ofList] at hspelling
    rw [← hspelling]
    exact .keyword k
  · next hnone =>
    refine .identifier fun k hk => ?_
    rw [← hk, String.ofList_toList, Keyword.ofSpelling?_spelling] at hnone
    cases hnone

theorem lexical_word (hc : isWordStart c) : (word (c :: cs)).Lexical := by
  have htake : (c :: cs).takeWhile isWordPart = c :: cs.takeWhile isWordPart :=
    List.takeWhile_cons_of_pos (isWordPart_of_isWordStart hc)
  have happend : (word (c :: cs)).text ++ (word (c :: cs)).rest = c :: cs :=
    List.takeWhile_append_dropWhile
  refine .inl ⟨.word, ⟨?_, fun cls other h hpre => ?_⟩, ?_⟩
  · rw [word, htake]
    exact .word (Start.isWordStart_iff.mp hc) fun d hd =>
      Start.isWordPart_iff.mp (List.mem_takeWhile_imp hd)
  · rw [happend] at hpre
    cases cls.eq_word ((h.start_of_prefix hpre).trans (Start.of_letter hc))
    cases h with
    | word hc' hcs =>
      exact length_le_takeWhile (List.forall_mem_cons.mpr
        ⟨isWordPart_of_isWordStart (Start.isWordStart_iff.mpr hc'),
          fun d hd => Start.isWordPart_iff.mpr (hcs d hd)⟩) hpre
  · exact denotes_wordKind _

theorem lexical_symbol {s : Symbol} (hcomment : ¬ (c = '/' ∧ cs.head? = some '/'))
    (hmark : Start.of c = .mark) (hs : symbol? (c :: cs) = some s) :
    (cut (.token (.symbol s)) s.spelling.length (c :: cs)).Lexical := by
  have htext : (c :: cs).take s.spelling.length = s.spelling :=
    (List.prefix_iff_eq_take.mp (symbol?_starts hs)).symm
  refine .inl ⟨.symbol s, ⟨?_, fun cls other h hpre => ?_⟩, .symbol s _⟩
  · rw [cut, htext]
    exact .symbol s
  · rw [cut, List.take_append_drop] at hpre
    rcases cls.eq_comment_or_symbol ((h.start_of_prefix hpre).trans hmark) with rfl | ⟨s', rfl⟩
    · cases h with
      | comment =>
        obtain ⟨more, hmore⟩ := hpre
        cases hmore
        exact absurd ⟨rfl, rfl⟩ hcomment
    · cases h
      obtain ⟨s'', hs'', hle⟩ := symbol?_of_prefix hpre
      rw [hs] at hs''
      cases hs''
      rw [cut, htext]
      exact hle

theorem lexical_unexpected (hcomment : ¬ (c = '/' ∧ cs.head? = some '/'))
    (hquote : c ≠ '"') (hmark : Start.of c = .mark) (hs : symbol? (c :: cs) = none) :
    (cut (.error (if c = '!' then .loneBang else .unexpected c)) 1 (c :: cs)).Lexical := by
  refine .inr ⟨_, rfl, fun cls lexeme h hpre => ?_, ?_⟩
  · rw [cut, List.take_append_drop] at hpre
    rcases cls.eq_comment_or_symbol ((h.start_of_prefix hpre).trans hmark) with rfl | ⟨s, rfl⟩
    · cases h with
      | comment =>
        obtain ⟨more, hmore⟩ := hpre
        cases hmore
        exact absurd ⟨rfl, rfl⟩ hcomment
    · cases h
      obtain ⟨s', hs', -⟩ := symbol?_of_prefix hpre
      rw [hs] at hs'
      cases hs'
  · split
    · next hbang => exact congrArg (fun c => [c]) hbang
    · next hbang => exact ⟨rfl, hbang, hquote⟩

/-- The piece at the start of a text is the longest lexeme there, or an error. -/
theorem lexical_first (c : Char) (cs : List Char) : (first c cs).Lexical := by
  rw [first]
  split
  · next hc => exact lexical_separator hc
  next hseparator =>
  split
  · next hc =>
    obtain ⟨rfl, hhead⟩ := hc
    obtain ⟨cs, rfl⟩ := List.head?_eq_some_iff.mp hhead
    exact lexical_comment
  next hcomment =>
  split
  · exact lexical_string
  next hquote =>
  split
  · next hc => exact lexical_number hc
  next hdigit =>
  split
  · next hc => exact lexical_word hc
  next hword =>
  have hmark : Start.of c = .mark := by
    rw [Start.of, if_neg hseparator, if_neg hquote, if_neg hdigit, if_neg hword]
  split
  · next s hs => exact lexical_symbol hcomment hmark hs
  · next hs => exact lexical_unexpected hcomment hquote hmark hs

end Piece

end DivisionScript
