import DivisionScript.Proofs.Token.Cursor

/-!
# Token — Turn

A turn of the scan over bytes that starts between two characters takes the piece that is there, and
the next turn starts between two characters again.
-/

namespace DivisionScript

namespace Cursor

variable {source : String} {n line : Nat} {c : Char} {cs : List Char}

/-- After so many of its bytes, the piece that starts at byte `n` is read, and nothing more. -/
def Takes (read : Nat) (act : Move Reading) (n : Nat) (piece : Piece) : Prop :=
  ∀ line, act ⟨n, n + read, line⟩ = .ok piece.reading
    ⟨n, n + (encode piece.text).length, line + Token.lineFeeds piece.text⟩

theorem length_encode_ascii (hc : c.toNat < 128) :
    (encode (c :: cs)).length = 1 + (encode cs).length := by
  rw [encode_cons, utf8EncodeChar_ascii hc]
  exact Nat.add_comm ..

/-- What is left after an ASCII character. -/
theorem ahead_tail (h : Ahead source n (c :: cs)) (hc : c.toNat < 128) :
    Ahead source (n + 1) cs := by
  have hsplit : Ahead source n ([c] ++ cs) := h
  have htail := hsplit.advance
  rwa [length_encode_ascii hc] at htail

theorem toNat_lt_of_isDigit (hc : c.isDigit) : c.toNat < 128 := by
  have hcode := isDigit_iff.mp hc
  omega

theorem ne_of_isDigit (hc : c.isDigit) : c ≠ '\n' := by
  rintro rfl
  exact absurd hc (by decide)

theorem toNat_lt_of_isWordPart (hc : Piece.isWordPart c) : c.toNat < 128 := by
  rw [Start.isWordPart_iff, Char.isAlphanum, Bool.or_eq_true, isAlpha_iff, isDigit_iff] at hc
  rcases hc with (hc | hc) | rfl
  · omega
  · omega
  · decide

theorem agrees_digit : Agrees (fun b => (Char.ofUInt8 b).isDigit) Char.isDigit :=
  .of_ascii fun _ => toNat_lt_of_isDigit

theorem agrees_wordPart : Agrees (fun b => Piece.isWordPart (Char.ofUInt8 b)) Piece.isWordPart :=
  .of_ascii fun _ => toNat_lt_of_isWordPart

theorem lineFeeds_eq_zero {text : List Char} (h : ∀ c ∈ text, c ≠ '\n') :
    Token.lineFeeds text = 0 :=
  List.count_eq_zero.mpr fun hmem => h _ hmem rfl

/-! ## Strings -/

theorem takes_string (h : Ahead source n ('"' :: cs)) :
    Takes 1 (string source) n (Piece.string cs) := by
  intro line
  have htail := ahead_tail h (by decide)
  have hquote := advanceToQuote_ahead htail n line
  by_cases hmem : '"' ∈ cs
  · obtain ⟨body, rest, rfl, hbody⟩ := List.eq_append_cons_of_mem hmem
    rw [takeWhile_append_stop (bne_of_notMem hbody) (bne_self_eq_false '"')] at hquote
    obtain ⟨b, -, hadvance⟩ := advance_ahead htail.advance
    -- the closing quote is read too, but the slice leaves out both quotes
    have hsize : n + (encode ('"' :: (body ++ ['"']))).length =
        n + 1 + (encode body).length + 1 := by
      have hone : (encode ['"']).length = 1 := rfl
      rw [length_encode_ascii (by decide), encode_append, List.length_append]
      omega
    have hfeeds : Token.lineFeeds ('"' :: (body ++ ['"'])) = Token.lineFeeds body := by
      simp [Token.lineFeeds]
    rw [Piece.string_closed hbody, string, bind_ok hquote, get_bind,
      if_neg (Nat.not_le.mpr htail.advance.lt), bind_ok (hadvance _ _), get_bind,
      Nat.add_sub_cancel, bind_ok (slice_ahead htail _), hsize, hfeeds]
    rfl
  · have hsize : n + (encode ('"' :: cs)).length = n + 1 + (encode cs).length := by
      rw [length_encode_ascii (by decide), Nat.add_assoc]
    have hfeeds : Token.lineFeeds ('"' :: cs) = Token.lineFeeds cs := by
      simp [Token.lineFeeds]
    rw [takeWhile_eq_self (bne_of_notMem hmem)] at hquote
    rw [Piece.string_open hmem, string, bind_ok hquote, get_bind,
      if_pos (Nat.le_of_eq htail.length_bytes), hsize, hfeeds]
    rfl

/-! ## Numbers -/

theorem digits_ahead {start : Nat} (h : Ahead source n cs) :
    digits source ⟨start, n, line⟩ =
      .ok () ⟨start, n + (encode (cs.takeWhile Char.isDigit)).length, line⟩ :=
  advanceWhile_ahead h agrees_digit rfl start line

theorem fraction_taken {d : Char} {rest : List Char} {start : Nat}
    (h : Ahead source n ('.' :: d :: rest)) (hd : d.isDigit) :
    fraction source ⟨start, n, line⟩ =
      .ok () ⟨start, n + (encode ('.' :: d :: rest.takeWhile Char.isDigit)).length, line⟩ := by
  have htail := ahead_tail h (by decide)
  have hpoint := h.test (agrees_ascii (d := '.') (by decide)) rfl
  have hdigit := htail.test agrees_digit rfl
  rw [List.head?_cons, Option.any_some, beq_self_eq_true, beq_iff_eq] at hpoint
  rw [List.head?_cons, Option.any_some, hd] at hdigit
  obtain ⟨b, -, hadvance⟩ := advance_ahead h
  rw [fraction, bind_ok (peek_eq 0), bind_ok (peek_eq 1), Nat.add_zero, if_pos ⟨hpoint, hdigit⟩,
    bind_ok (hadvance _ _), digits_ahead htail, List.takeWhile_cons_of_pos hd,
    length_encode_ascii (c := '.') (by decide), Nat.add_assoc]

theorem fraction_none {start : Nat} (h : Ahead source n cs)
    (hnone : ∀ d rest, cs = '.' :: d :: rest → ¬ d.isDigit) :
    fraction source ⟨start, n, line⟩ = .ok () ⟨start, n, line⟩ := by
  -- a point ahead and a digit behind it are what the hypothesis excludes
  have hcond : ¬ ((bytes source).getD n 0 = '.'.toUInt8 ∧
      (Char.ofUInt8 ((bytes source).getD (n + 1) 0)).isDigit) := by
    rintro ⟨hpoint, hdigit⟩
    have hhead := h.test (agrees_ascii (d := '.') (by decide)) rfl
    rw [hpoint, beq_self_eq_true] at hhead
    cases cs with
    | nil => cases hhead
    | cons c cs =>
      obtain rfl : c = '.' := beq_iff_eq.mp hhead.symm
      have hnext := (ahead_tail h (by decide)).test agrees_digit rfl
      rw [hdigit] at hnext
      cases cs with
      | nil => cases hnext
      | cons d cs => exact hnone d cs rfl hnext.symm
  rw [fraction, bind_ok (peek_eq 0), bind_ok (peek_eq 1), Nat.add_zero, if_neg hcond]
  rfl

/-- A number is read if the digits and the fraction of a lexeme are, and the lexeme denotes it. -/
theorem takes_lexeme {text rest : List Char} {x : Float} {m : Nat}
    (h : Ahead source n (text ++ rest))
    (hdigits : ∀ line, digits source ⟨n, n + 1, line⟩ = .ok () ⟨n, m, line⟩)
    (hfraction : ∀ line, fraction source ⟨n, m, line⟩ =
      .ok () ⟨n, n + (encode text).length, line⟩)
    (hx : Number.ofString? (String.ofList text) = some x) (hfeeds : Token.lineFeeds text = 0) :
    Takes 1 (number source) n ⟨.token (.number x), text, rest⟩ := by
  intro line
  rw [number, bind_ok (hdigits line), bind_ok (hfraction line), get_bind,
    bind_ok (slice_ahead h _), hx, hfeeds]
  rfl

theorem takes_fraction {before rest : List Char} {d : Char}
    (h : Ahead source n (c :: before ++ '.' :: d :: rest)) (hc : c.isDigit)
    (hbefore : ∀ d ∈ before, d.isDigit) (hd : d.isDigit) :
    Takes 1 (number source) n (Piece.number (c :: before ++ '.' :: d :: rest)) := by
  have hall : ∀ d ∈ c :: before, d.isDigit := List.forall_mem_cons.mpr ⟨hc, hbefore⟩
  have hafter : ∀ c ∈ d :: rest.takeWhile Char.isDigit, c.isDigit :=
    List.forall_mem_cons.mpr ⟨hd, fun _ => List.mem_takeWhile_imp⟩
  have htail : Ahead source (n + 1) (before ++ '.' :: d :: rest) :=
    ahead_tail h (toNat_lt_of_isDigit hc)
  have hsize : n + 1 + (encode before).length +
      (encode ('.' :: d :: rest.takeWhile Char.isDigit)).length =
      n + (encode (c :: before ++ '.' :: d :: rest.takeWhile Char.isDigit)).length := by
    rw [encode_append, List.length_append, length_encode_ascii (toNat_lt_of_isDigit hc)]
    omega
  rw [Piece.number_fraction hall hd]
  refine takes_lexeme (m := n + 1 + (encode before).length) ?_ (fun line => ?_) (fun line => ?_)
    (Number.ofString?_fraction hc hbefore hafter) (lineFeeds_eq_zero fun e he => ?_)
  · rwa [List.append_assoc, List.cons_append, List.cons_append, List.cons_append,
      List.takeWhile_append_dropWhile]
  · rw [digits_ahead htail, takeWhile_append_stop hbefore rfl]
  · rw [fraction_taken htail.advance hd, hsize]
  · rcases List.mem_append.mp he with he | he
    · exact ne_of_isDigit (hall e he)
    rcases List.mem_cons.mp he with rfl | he
    · decide
    · exact ne_of_isDigit (hafter e he)

theorem takes_integer (h : Ahead source n (c :: cs)) (hc : c.isDigit)
    (hnone : ∀ d rest, cs.dropWhile Char.isDigit = '.' :: d :: rest → ¬ d.isDigit) :
    Takes 1 (number source) n (Piece.number (c :: cs)) := by
  have hdrop : (c :: cs).dropWhile Char.isDigit = cs.dropWhile Char.isDigit :=
    List.dropWhile_cons_of_pos hc
  have htake : (c :: cs).takeWhile Char.isDigit = c :: cs.takeWhile Char.isDigit :=
    List.takeWhile_cons_of_pos hc
  have hdigits : ∀ d ∈ cs.takeWhile Char.isDigit, d.isDigit := fun _ => List.mem_takeWhile_imp
  have htail : Ahead source (n + 1) (cs.takeWhile Char.isDigit ++ cs.dropWhile Char.isDigit) := by
    rw [List.takeWhile_append_dropWhile]
    exact ahead_tail h (toNat_lt_of_isDigit hc)
  have hsize : n + 1 + (encode (cs.takeWhile Char.isDigit)).length =
      n + (encode (c :: cs.takeWhile Char.isDigit)).length := by
    rw [length_encode_ascii (toNat_lt_of_isDigit hc), Nat.add_assoc]
  rw [Piece.number_integer (by rwa [hdrop]), htake, hdrop]
  refine takes_lexeme (m := n + 1 + (encode (cs.takeWhile Char.isDigit)).length) ?_
    (fun line => ?_) (fun line => ?_) (Number.ofString?_integer hc hdigits)
    (lineFeeds_eq_zero fun e he => ?_)
  · rwa [List.cons_append, List.takeWhile_append_dropWhile]
  · exact digits_ahead (ahead_tail h (toNat_lt_of_isDigit hc))
  · rw [fraction_none htail.advance hnone, hsize]
  · rcases List.mem_cons.mp he with rfl | he
    · exact ne_of_isDigit hc
    · exact ne_of_isDigit (hdigits e he)

theorem takes_number (h : Ahead source n (c :: cs)) (hc : c.isDigit) :
    Takes 1 (number source) n (Piece.number (c :: cs)) := by
  by_cases hfrac : ∃ d rest, cs.dropWhile Char.isDigit = '.' :: d :: rest ∧ d.isDigit
  · obtain ⟨d, rest, hdrop, hd⟩ := hfrac
    have htext : c :: cs = c :: cs.takeWhile Char.isDigit ++ '.' :: d :: rest := by
      rw [← hdrop, List.cons_append, List.takeWhile_append_dropWhile]
    rw [htext] at h ⊢
    exact takes_fraction h hc (fun _ => List.mem_takeWhile_imp) hd
  · exact takes_integer h hc fun d rest hdrop hd => hfrac ⟨d, rest, hdrop, hd⟩

/-! ## Words -/

theorem wordKind_encode (text : List Char) : wordKind (encode text) = Piece.wordKind text := by
  have hsame (k : Keyword) : bytes k.spelling = encode text ↔ k.spelling = String.ofList text := by
    rw [← String.toList_ofList (l := text), ← bytes_eq_encode, String.toList_ofList]
    exact ⟨bytes_inj, fun h => h ▸ rfl⟩
  simp only [wordKind, hsame]
  rfl

theorem takes_word (h : Ahead source n (c :: cs)) (hc : Piece.isWordStart c) :
    Takes 1 (word source) n (Piece.word (c :: cs)) := by
  intro line
  have hpart := Piece.isWordPart_of_isWordStart hc
  have hascii := toNat_lt_of_isWordPart hpart
  have htake : (c :: cs).takeWhile Piece.isWordPart = c :: cs.takeWhile Piece.isWordPart :=
    List.takeWhile_cons_of_pos hpart
  have hword := advanceWhile_ahead (ahead_tail h hascii) agrees_wordPart rfl n line
  have hsize : n + 1 + (encode (cs.takeWhile Piece.isWordPart)).length =
      n + (encode (c :: cs.takeWhile Piece.isWordPart)).length := by
    rw [length_encode_ascii hascii, Nat.add_assoc]
  have htext : c :: cs = (c :: cs.takeWhile Piece.isWordPart) ++ cs.dropWhile Piece.isWordPart := by
    rw [List.cons_append, List.takeWhile_append_dropWhile]
  have hbytes : (encode (c :: cs)).take (encode (c :: cs.takeWhile Piece.isWordPart)).length =
      encode (c :: cs.takeWhile Piece.isWordPart) := by
    rw [htext, encode_append, List.take_left]
  have hle : n + (encode (c :: cs.takeWhile Piece.isWordPart)).length ≤ (bytes source).length := by
    rw [h.length_bytes, htext, encode_append, List.length_append]
    omega
  have hfeeds : Token.lineFeeds (c :: cs.takeWhile Piece.isWordPart) = 0 := by
    refine lineFeeds_eq_zero fun d hd => ?_
    rw [← htake] at hd
    rintro rfl
    exact absurd (List.mem_takeWhile_imp hd) (by decide)
  rw [hsize] at hword
  rw [word, bind_ok hword, get_bind, if_pos ⟨Nat.le_add_right .., hle⟩, h.drop_bytes,
    Nat.add_sub_cancel_left, hbytes, wordKind_encode, Piece.word, htake, hfeeds]
  rfl

/-! ## Characters that start nothing -/

theorem takes_unexpected (h : Ahead source n (c :: cs)) (hfeed : c ≠ '\n') :
    Takes 1 (unexpected source) n (Piece.cut (.error (.unexpected c)) 1 (c :: cs)) := by
  intro line
  have hall : Ahead source n (c :: cs ++ []) := by rwa [List.append_nil]
  have hslice := slice_ahead hall ⟨n, n + 1, line⟩
  have hsize : c.utf8Size = (encode [c]).length := by
    rw [encode_cons, List.length_append, String.length_utf8EncodeChar]
    rfl
  rw [unexpected, get_bind, h.length_bytes, bind_ok hslice, String.toList_ofList]
  show EStateM.Result.ok _ (⟨n, n + c.utf8Size, line⟩ : Cursor) = _
  rw [hsize]
  show _ = EStateM.Result.ok _ (⟨n, n + (encode [c]).length, line + Token.lineFeeds [c]⟩ : Cursor)
  rw [lineFeeds_eq_zero (by simpa using hfeed)]
  rfl

/-! ## One piece -/

/-- A piece that has been read is taken. -/
theorem takes_return {read : Nat} {reading : Reading} {piece : Piece}
    (hreading : piece.reading = reading) (hsize : (encode piece.text).length = read)
    (hfeeds : Token.lineFeeds piece.text = 0) : Takes read (return reading) n piece := by
  intro line
  rw [hreading, hsize, hfeeds]
  rfl

/-- The next character chooses how to go on. -/
theorem takes_accept {d : Char} {longer shorter : Move Reading} {piece : Piece}
    (h : Ahead source n (c :: cs)) (hc : c.toNat < 128) (hd : d.toNat < 128)
    (hzero : (0 == d.toUInt8) = false) (hlonger : cs.head? = some d → Takes 2 longer n piece)
    (hshorter : cs.head? ≠ some d → Takes 1 shorter n piece) :
    Takes 1 (do if ← accept source d then longer else shorter) n piece := by
  intro line
  have haccept := accept_ahead (ahead_tail h hc) hd hzero n line
  by_cases hhead : cs.head? = some d
  · rw [if_pos hhead] at haccept
    rw [bind_ok haccept]
    exact hlonger hhead line
  · rw [if_neg hhead] at haccept
    rw [bind_ok haccept]
    exact hshorter hhead line

theorem takes_equals {longer shorter : Reading} (h : Ahead source n (c :: cs))
    (hc : c.toNat < 128) (hfeed : c ≠ '\n')
    (hlonger : ∀ rest, Piece.first c ('=' :: rest) = Piece.cut longer 2 (c :: '=' :: rest))
    (hshorter : cs.head? ≠ some '=' → Piece.first c cs = Piece.cut shorter 1 (c :: cs)) :
    Takes 1 (do if ← accept source '=' then return longer else return shorter) n
      (Piece.first c cs) := by
  refine takes_accept h hc (by decide) rfl (fun hhead => ?_) (fun hhead => ?_)
  · obtain ⟨rest, rfl⟩ := List.head?_eq_some_iff.mp hhead
    rw [hlonger]
    refine takes_return rfl ?_ ?_
    · show (encode [c, '=']).length = 2
      rw [length_encode_ascii hc]
      rfl
    · exact lineFeeds_eq_zero (by simpa [Piece.cut] using hfeed)
  · rw [hshorter hhead]
    refine takes_return rfl ?_ ?_
    · show (encode [c]).length = 1
      rw [length_encode_ascii hc]
      rfl
    · exact lineFeeds_eq_zero (by simpa [Piece.cut] using hfeed)

theorem symbol?_alone (hhead : cs.head? ≠ some '=') :
    Piece.symbol? ('!' :: cs) = none ∧ Piece.symbol? ('=' :: cs) = some .equal ∧
      Piece.symbol? ('<' :: cs) = some .less ∧ Piece.symbol? ('>' :: cs) = some .greater := by
  have hne : ∀ rest, cs = '=' :: rest → False := by
    rintro rest rfl
    exact hhead rfl
  refine ⟨Piece.symbol?_eq_none fun s hpre => ?_, ?_, ?_, ?_⟩
  · cases s <;> simp [Symbol.spelling] at hpre
    obtain ⟨rest, rfl⟩ := hpre
    exact hhead rfl
  all_goals simp [Piece.symbol?]

theorem takes_slash (h : Ahead source n ('/' :: cs)) :
    Takes 1 (do
      if ← accept source '/' then
        comment source
        return .skipped
      else
        return .token (.symbol .slash)) n (Piece.first '/' cs) := by
  refine takes_accept h (by decide) (by decide) rfl (fun hhead line => ?_) (fun hhead => ?_)
  · obtain ⟨rest, rfl⟩ := List.head?_eq_some_iff.mp hhead
    have hcomment := comment_ahead
      (ahead_tail (ahead_tail h (by decide)) (by decide)) n line
    have hsize : (encode ('/' :: '/' :: rest.takeWhile (· != '\n'))).length =
        2 + (encode (rest.takeWhile (· != '\n'))).length := by
      rw [length_encode_ascii (by decide), length_encode_ascii (by decide), ← Nat.add_assoc]
    have hfeeds : Token.lineFeeds ('/' :: '/' :: rest.takeWhile (· != '\n')) = 0 := by
      refine lineFeeds_eq_zero fun d hd => ?_
      simp only [List.mem_cons] at hd
      rcases hd with rfl | rfl | hd
      · decide
      · decide
      · simpa using List.mem_takeWhile_imp hd
    rw [bind_ok hcomment]
    show EStateM.Result.ok _ _ = EStateM.Result.ok _
      (⟨n, n + (encode ('/' :: '/' :: rest.takeWhile (· != '\n'))).length,
        line + Token.lineFeeds ('/' :: '/' :: rest.takeWhile (· != '\n'))⟩ : Cursor)
    rw [hsize, hfeeds, ← Nat.add_assoc]
    rfl
  · have hfirst : Piece.first '/' cs = Piece.cut (.token (.symbol .slash)) 1 ('/' :: cs) := by
      rw [Piece.first_eq]
      exact if_neg fun hcomment => hhead hcomment.2
    rw [hfirst]
    exact takes_return rfl rfl rfl

/-- A mark that starts no comment and no symbol, and is not one of the characters of `!=`. -/
theorem first_unexpected (hmark : Start.of c = .mark) (hslash : c ≠ '/') (hbang : c ≠ '!')
    (hsymbol : Piece.symbol? (c :: cs) = none) :
    Piece.first c cs = Piece.cut (.error (.unexpected c)) 1 (c :: cs) := by
  rw [Piece.first_eq, hmark]
  show (if _ then _ else _) = _
  rw [if_neg fun hcomment => hslash hcomment.1, hsymbol]
  show Piece.cut (.error (if _ then _ else _)) 1 _ = _
  rw [if_neg hbang]

theorem takes_dispatch (h : Ahead source n (c :: cs)) (hc : c.toNat < 128) :
    Takes 1 (dispatch source c) n (Piece.first c cs) := by
  unfold dispatch
  split
  -- the symbols that are one character and begin no other
  case h_1 | h_2 | h_3 | h_4 | h_5 | h_6 | h_7 | h_8 | h_9 | h_10 => exact takes_return rfl rfl rfl
  -- the marks that an equals sign may follow: `!`, `=`, `<` and `>`
  case h_11 =>
    refine takes_equals h (by decide) (by decide) (fun _ => rfl) fun hhead => ?_
    rw [Piece.first_eq, (symbol?_alone hhead).1]
    rfl
  case h_12 =>
    refine takes_equals h (by decide) (by decide) (fun _ => rfl) fun hhead => ?_
    rw [Piece.first_eq, (symbol?_alone hhead).2.1]
    rfl
  case h_13 =>
    refine takes_equals h (by decide) (by decide) (fun _ => rfl) fun hhead => ?_
    rw [Piece.first_eq, (symbol?_alone hhead).2.2.1]
    rfl
  case h_14 =>
    refine takes_equals h (by decide) (by decide) (fun _ => rfl) fun hhead => ?_
    rw [Piece.first_eq, (symbol?_alone hhead).2.2.2]
    rfl
  -- white space, of which only the line feed counts
  case h_15 | h_16 | h_17 => exact takes_return rfl rfl rfl
  case h_18 =>
    intro line
    rfl
  case h_19 => exact takes_slash h
  case h_20 => exact takes_string h
  -- no character with an arm of its own
  case h_21 =>
    have hsymbol : Piece.symbol? (c :: cs) = none := by
      refine Piece.symbol?_eq_none fun s hpre => ?_
      obtain ⟨rest, hrest⟩ := hpre
      cases s <;> cases hrest <;> contradiction
    have hblank : ¬ Piece.isSeparator c := by
      simp_all [Piece.isSeparator]
    split
    · next hdigit =>
      rw [Piece.first_eq, Start.of_digit hdigit]
      exact takes_number h hdigit
    next hdigit =>
    split
    · next hword =>
      rw [Piece.first_eq, Start.of_letter hword]
      exact takes_word h hword
    next hword =>
    have hmark : Start.of c = .mark := by
      rw [Start.of, if_neg hblank, if_neg (by assumption), if_neg hdigit, if_neg hword]
    rw [first_unexpected hmark (by assumption) (by assumption) hsymbol]
    exact takes_unexpected h (by assumption)

/-- A character that is not ASCII starts no lexeme. -/
theorem first_high (hc : 128 ≤ c.toNat) :
    Piece.first c cs = Piece.cut (.error (.unexpected c)) 1 (c :: cs) := by
  have hne (d : Char) (hd : d.toNat < 128) : c ≠ d := by
    rintro rfl
    omega
  have hmark : Start.of c = .mark := by
    rw [Start.of, if_neg, if_neg (hne '"' (by decide)), if_neg, if_neg]
    · intro hword
      have := toNat_lt_of_isWordPart (Piece.isWordPart_of_isWordStart hword)
      omega
    · intro hdigit
      have := toNat_lt_of_isDigit hdigit
      omega
    · intro hblank
      have := Start.toNat_le_of_isSeparator hblank
      omega
  have hsymbol : Piece.symbol? (c :: cs) = none := by
    refine Piece.symbol?_eq_none fun s hpre => ?_
    obtain ⟨rest, hrest⟩ := hpre
    cases s <;> cases hrest <;> exact absurd hc (by decide)
  exact first_unexpected hmark (hne '/' (by decide)) (hne '!' (by decide)) hsymbol

theorem dispatch_high (hc : 128 ≤ c.toNat) : dispatch source c = unexpected source := by
  unfold dispatch
  split
  case h_21 =>
    rw [if_neg, if_neg]
    · intro hword
      have := toNat_lt_of_isWordPart (Piece.isWordPart_of_isWordStart hword)
      omega
    · intro hdigit
      have := toNat_lt_of_isDigit hdigit
      omega
  all_goals exact absurd hc (by decide)

end Cursor

/-- The item that a piece gives, if it gives one. -/
def Piece.item? (piece : Piece) (line : Nat) : Option Item :=
  match piece.reading with
  | .skipped => none
  | .token kind => some (.ok ⟨kind, String.ofList piece.text, line⟩)
  | .error cause => some (.error ⟨cause, line⟩)

namespace Ahead

variable {source : String} {n : Nat} {c : Char} {cs : List Char}

/-- The first byte of a character is enough to tell which piece comes first. -/
theorem dispatch {b : UInt8} (h : Ahead source n (c :: cs)) (hb : b ∈ String.utf8EncodeChar c) :
    Cursor.Takes 1 (Cursor.dispatch source (Char.ofUInt8 b)) n (Piece.first c cs) := by
  by_cases hc : c.toNat < 128
  · rw [utf8EncodeChar_ascii hc, List.mem_singleton] at hb
    rw [hb, ofUInt8_toUInt8 hc]
    exact Cursor.takes_dispatch h hc
  · have hhigh : 128 ≤ c.toNat := Nat.le_of_not_lt hc
    have hbyte : 128 ≤ (Char.ofUInt8 b).toNat := by
      rw [toNat_ofUInt8]
      exact le_of_mem_utf8EncodeChar hhigh hb
    rw [Cursor.dispatch_high hbyte, Cursor.first_high hhigh]
    exact Cursor.takes_unexpected h fun hfeed => absurd hhigh (by rw [hfeed]; decide)

/-- A turn between two characters takes the piece that is there. -/
theorem turn (h : Ahead source n (c :: cs)) (start line : Nat) :
    let piece := Piece.first c cs
    let after := line + Token.lineFeeds piece.text
    Cursor.turn source ⟨start, n, line⟩ =
      .ok (piece.item? after) ⟨n, n + (encode piece.text).length, after⟩ := by
  intro piece after
  obtain ⟨b, hb, hadvance⟩ := Cursor.advance_ahead h
  have htext : Ahead source n (piece.text ++ piece.rest) := by
    rwa [Piece.text_append_rest]
  rw [Cursor.turn, get_bind, if_neg (Nat.ne_of_lt h.lt), set_bind, bind_ok (hadvance n line),
    bind_ok (h.dispatch hb line), get_bind, Piece.item?]
  cases hreading : piece.reading with
  | skipped | error => rfl
  | token kind =>
    show (Cursor.slice source n (n + (encode piece.text).length) >>= _) _ = _
    rw [bind_ok (Cursor.slice_ahead htext _)]
    rfl

/-- A turn at the end of the text gives the token that ends it. -/
theorem turn_nil (h : Ahead source n []) (start line : Nat) :
    Cursor.turn source ⟨start, n, line⟩ =
      .ok (some (.ok ⟨.endOfText, "", line⟩)) ⟨start, n + 1, line⟩ := by
  rw [Cursor.turn, get_bind, if_pos (by rw [h.length_bytes]; rfl), set_bind]
  rfl

end Ahead

end DivisionScript
