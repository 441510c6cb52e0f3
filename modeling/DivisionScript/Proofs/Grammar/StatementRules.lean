import DivisionScript.Proofs.Grammar.Enclosed

/-!
# Grammar — StatementRules

When each rule of statements succeeds, in terms of the rules that it is made of, and how the
phrases of the grammar start, which is how the rules tell them apart.
-/

namespace DivisionScript.Grammar

/-! ## When the rules succeed -/

section rules

variable {levels line : Nat} {s : Stmt} {ts rest : List Token}

theorem reads_printStatement :
    Reads (printStatement levels line ts) s rest ↔
      ∃ e stop, Reads (expression levels ts) e (stop :: rest) ∧
        stop.shape = .symbol .semicolon ∧ .print line e = s := by
  simp only [printStatement, reads_bind, reads_next, reads_expectSymbol, reads_ok, value_give,
    rest_give]
  grind

theorem reads_assignment :
    Reads (assignment levels line ts) s rest ↔
      ∃ name equals mid e after tag stop, ts = name :: equals :: mid ∧
        name.shape = .identifier ∧ equals.shape = .symbol .equal ∧
        Reads (expression levels mid) e after ∧ Reads (typeTag after) tag (stop :: rest) ∧
        stop.shape = .symbol .semicolon ∧ .assign line name.lexeme e tag = s := by
  simp only [assignment, reads_bind, reads_next, reads_nextOptional, reads_expect,
    reads_expectSymbol, reads_ok, value_give, rest_give]
  grind

theorem reads_inputStatement :
    Reads (inputStatement line ts) s rest ↔
      ∃ name mid shown stop, ts = name :: mid ∧ name.shape = .identifier ∧
        Reads (prompt mid) shown (stop :: rest) ∧ stop.shape = .symbol .semicolon ∧
        .input line name.lexeme shown = s := by
  simp only [inputStatement, reads_bind, reads_next, reads_nextOptional, reads_expect,
    reads_expectSymbol, reads_ok, value_give, rest_give]
  grind

theorem reads_loopHeader {header : String × Expr × Expr} :
    Reads (loopHeader levels ts) header rest ↔
      ∃ name fromWord mid l toWord after r, ts = name :: fromWord :: mid ∧
        name.shape = .identifier ∧ fromWord.shape = .keyword .fromWord ∧
        Reads (expression levels mid) l (toWord :: after) ∧ toWord.shape = .keyword .toWord ∧
        Reads (expression levels after) r rest ∧ (name.lexeme, l, r) = header := by
  simp only [loopHeader, reads_bind, reads_next, reads_expect, reads_expectKeyword, reads_ok,
    value_give, rest_give]
  grind

theorem reads_randStatement :
    Reads (randStatement levels line ts) s rest ↔
      ∃ name fromWord mid l toWord after r stop, ts = name :: fromWord :: mid ∧
        name.shape = .identifier ∧ fromWord.shape = .keyword .fromWord ∧
        Reads (expression levels mid) l (toWord :: after) ∧ toWord.shape = .keyword .toWord ∧
        Reads (expression levels after) r (stop :: rest) ∧ stop.shape = .symbol .semicolon ∧
        .rand line name.lexeme l r = s := by
  simp only [randStatement, reads_bind, reads_next, reads_expect, reads_expectKeyword,
    reads_expectSymbol, reads_ok, value_give, rest_give]
  grind

/-- Parameters between parentheses, after the name of their function. -/
abbrev parameters (line : Nat) : Rule (List Token) :=
  parenthesized (expect .identifier "parameter name") (.tooManyParameters line)
    "'(' after function name" "')' after parameters"

/-- Arguments between parentheses. -/
abbrev arguments (levels : Nat) : Rule (List Expr) :=
  parenthesized (expression levels) .tooManyArguments "'(' after function name"
    "')' after arguments"

theorem reads_functionHeader {header : String × List String × String} :
    Reads (functionHeader ts) header rest ↔
      ∃ name mid params returns result, ts = name :: mid ∧ name.shape = .identifier ∧
        Reads (parameters name.line mid) params (returns :: result :: rest) ∧
        returns.shape = .keyword .returns ∧ result.shape = .identifier ∧
        (name.lexeme, params.map Token.lexeme, result.lexeme) = header := by
  simp only [functionHeader, reads_bind, reads_next, reads_expect, reads_expectKeyword, reads_ok,
    value_give, rest_give]
  grind

theorem reads_callStatement :
    Reads (callStatement levels line ts) s rest ↔
      ∃ name mid args stop, ts = name :: mid ∧ name.shape = .identifier ∧
        Reads (arguments levels mid) args (stop :: rest) ∧ stop.shape = .symbol .semicolon ∧
        .call line name.lexeme args = s := by
  simp only [callStatement, reads_bind, reads_next, reads_expect, reads_expectSymbol, reads_ok,
    value_give, rest_give]
  grind

variable {inner : TrackedRule Stmt} {log after : Array Milestone}

theorem tracks_block {place : String} {body : List Stmt} :
    Tracks (block inner place ts) log body rest after ↔
      ∃ opening mid closing, ts = opening :: mid ∧ opening.shape = .symbol .leftBrace ∧
        Tracks (statements inner mid) log body (closing :: rest) after ∧
        closing.shape = .symbol .rightBrace := by
  simp only [block, tracks_bind, tracks_tracked, tracks_nextOptional, tracks_pure, reads_next,
    reads_expectSymbol, value_give, rest_give]
  grind

theorem tracks_ifStatement :
    Tracks (ifStatement levels line inner ts) log s rest after ↔
      ∃ e mid body us between other, Reads (expression levels ts) e mid ∧
        Tracks (block inner "if condition" mid) log body us between ∧
        Tracks (elseBranch inner us) between other rest after ∧
        .branch line e body other = s := by
  simp only [ifStatement, tracks_bind, tracks_tracked, tracks_next, tracks_nextOptional,
    tracks_pure, value_give, rest_give]
  grind

theorem tracks_loopStatement :
    Tracks (loopStatement levels line inner ts) log s rest after ↔
      ∃ name l r mid body, Reads (loopHeader levels ts) (name, l, r) mid ∧
        Tracks (block inner "loop header" mid) log body rest after ∧
        .loop line name l r body = s := by
  simp only [loopStatement, tracks_bind, tracks_tracked, tracks_next, tracks_pure, value_give,
    rest_give, Prod.exists]
  grind

theorem tracks_defineStatement :
    Tracks (defineStatement line inner ts) log s rest after ↔
      ∃ name params result mid body, Reads (functionHeader ts) (name, params, result) mid ∧
        Tracks (block inner "function header" mid) log body rest after ∧
        .define line name params body result = s := by
  simp only [defineStatement, tracks_bind, tracks_tracked, tracks_next, tracks_pure, value_give,
    rest_give, Prod.exists]
  grind

/-- A list of statements is over at a closing brace or where no tokens are left. -/
def Closed : List Token → Prop
  | [] => True
  | t :: _ => t.shape = .symbol .rightBrace

theorem tracks_statements_closed {body : List Stmt} (h : Closed ts) :
    Tracks (statements inner ts) log body rest after ↔ [] = body ∧ ts = rest ∧ after = log := by
  cases ts with
  | nil =>
    rw [statements]
    exact tracks_pure
  | cons t us =>
    have ht : t.shape = .symbol .rightBrace := h
    rw [statements, if_pos ht]
    exact tracks_pure

theorem tracks_statements_cons {t : Token} {us : List Token} {body : List Stmt}
    (h : t.shape ≠ .symbol .rightBrace) :
    Tracks (statements inner (t :: us)) log body rest after ↔
      ∃ s mid between more, Tracks (inner (t :: us)) log s mid between ∧
        Tracks (statements inner mid) between more rest after ∧ s :: more = body := by
  rw [statements, if_neg h]
  simp only [tracks_bind, tracks_pure]
  constructor
  · intro h
    rcases h with ⟨s, mid, between, hs, more, end_, last, hmore, hbody, hrest, rfl⟩
    obtain rfl : end_ = rest := hrest
    exact ⟨s, mid, between, more, hs, hmore, hbody⟩
  · intro h
    rcases h with ⟨s, mid, between, more, hs, hmore, hbody⟩
    exact ⟨s, mid, between, hs, more, rest, after, hmore, hbody, rfl, rfl⟩

theorem tracks_elseBranch_absent {other : List Stmt}
    (h : nextIs (.keyword .elseWord) ts = false) :
    Tracks (elseBranch inner ts) log other rest after ↔
      [] = other ∧ ts = rest ∧ after = log := by
  cases ts with
  | nil => exact tracks_pure
  | cons t us =>
    rw [elseBranch, if_neg (by simpa [nextIs] using h)]
    exact tracks_pure

theorem tracks_elseBranch_present {word : Token} {other : List Stmt}
    (h : word.shape = .keyword .elseWord) :
    Tracks (elseBranch inner (word :: ts)) log other rest after ↔
      nextIs (.keyword .ifWord) ts = true ∧
          (∃ s, Tracks (inner ts) log s rest after ∧ [s] = other) ∨
        nextIs (.keyword .ifWord) ts = false ∧
          Tracks (block inner "'else'" ts) log other rest after := by
  rw [elseBranch, if_pos h]
  split
  · next hif =>
    simp only [hif, tracks_bind, tracks_pure, value_loosen, rest_loosen, value_behind,
      rest_behind, value_give, rest_give]
    grind
  · next hif =>
    simp only [hif, tracks_bind, tracks_pure, value_loosen, rest_loosen, value_behind,
      rest_behind]
    grind

theorem reads_prompt {shown : String} :
    Reads (prompt ts) shown rest ↔
      (∃ t, ts = t :: rest ∧ t.kind = .string shown) ∨
        (∀ t us text, ts = t :: us → t.kind ≠ .string text) ∧ shown = "" ∧ ts = rest := by
  cases ts with
  | nil => simp [prompt, eq_comm]
  | cons t us =>
    rw [prompt]
    split
    · next text ht =>
      simp only [reads_ok, value_loosen, rest_loosen, value_one, rest_one]
      grind
    · next ht =>
      simp only [reads_ok, value_nothing, rest_nothing]
      grind

theorem reads_typeTag_absent {tag : Option TypeTag} (h : nextIs (.keyword .as) ts = false) :
    Reads (typeTag ts) tag rest ↔ none = tag ∧ ts = rest := by
  cases ts with
  | nil => exact reads_ok
  | cons t us =>
    rw [typeTag, if_neg (by simpa [nextIs] using h)]
    exact reads_ok

theorem reads_tagName {tag : Option TypeTag} :
    Reads (tagName ts) tag rest ↔
      ∃ kind known, ts = kind :: rest ∧ kind.shape = .keyword (TypeTag.keyword known) ∧
        some known = tag := by
  constructor
  · intro h
    cases ts with
    | nil => exact absurd h (not_reads_reject)
    | cons t us =>
      rw [tagName] at h
      split at h
      · next ht =>
        obtain ⟨rfl, rfl⟩ := reads_ok.mp h
        exact ⟨t, .number, rfl, ht, rfl⟩
      · next ht =>
        obtain ⟨rfl, rfl⟩ := reads_ok.mp h
        exact ⟨t, .string, rfl, ht, rfl⟩
      · exact absurd h not_reads_reject
  · intro h
    rcases h with ⟨kind, known, rfl, ht, rfl⟩
    cases known <;> simp only [TypeTag.keyword] at ht <;> simp [tagName, ht]

theorem reads_typeTag_present {word : Token} {tag : Option TypeTag}
    (h : word.shape = .keyword .as) :
    Reads (typeTag (word :: ts)) tag rest ↔ Reads (tagName ts) tag rest := by
  rw [typeTag, if_pos h]
  simp

end rules

/-! ## How phrases start -/

section heads

variable {arity n : Nat} {e : Expr} {s : Stmt} {us : List Token}

/-- No expression starts with a closing parenthesis. -/
theorem Derives.nextIs_rightParen {c : Category} (h : Derives c n us e) :
    ∀ rest, nextIs (.symbol .rightParen) (us ++ rest) = false := by
  induction h with
  | expression _ ih | disjunctionOne _ ih | conjunctionOne _ ih | comparisonOne _ ih
  | sumOne _ ih | termOne _ ih | powerOne _ ih | exponent _ ih | unaryOne _ ih | operand _ ih =>
    exact ih
  | disjunction _ _ _ ih _ | conjunction _ _ _ ih _ | comparison _ _ _ _ ih _ | sum _ _ _ _ ih _
  | term _ _ _ _ ih _ | power _ _ _ ih _ =>
    intro rest
    rw [List.append_assoc]
    exact ih _
  | negate ht _ _ => intro rest; simp [nextIs, ht]
  | number ht | string ht => intro rest; simp [nextIs, Token.shape, ht, TokenKind.shape]
  | identifier ht => intro rest; simp [nextIs, ht]
  | group ht _ _ _ => intro rest; simp [nextIs, ht]

/-- The shapes of the first token of a statement. -/
def Opens : TokenKind.Shape → Prop
  | .identifier => True
  | .keyword k => k ∈ [.print, .input, .ifWord, .loop, .rand, .func, .call]
  | _ => False

theorem DerivesIf.head (h : DerivesIf arity n us s) :
    ∃ t vs, us = t :: vs ∧ t.shape = .keyword .ifWord := by
  cases h with
  | mk ht _ _ _ => exact ⟨_, _, rfl, ht⟩

theorem DerivesStatement.head (h : DerivesStatement arity n us s) :
    ∃ t vs, us = t :: vs ∧ Opens t.shape := by
  cases h with
  | assign ht _ _ _ _ => exact ⟨_, _, rfl, by rw [ht]; trivial⟩
  | branch hif =>
    obtain ⟨t, vs, rfl, ht⟩ := hif.head
    exact ⟨t, vs, rfl, by rw [ht]; simp [Opens]⟩
  | print ht _ _ | input ht _ _ _ | loop ht _ _ _ _ _ _ | rand ht _ _ _ _ _ _
  | define ht _ _ _ _ _ | call ht _ _ _ => exact ⟨_, _, rfl, by rw [ht]; simp [Opens]⟩

/-- No statement starts with a token that cannot open one. -/
theorem DerivesStatement.nextIs_eq_false {shape : TokenKind.Shape}
    (h : DerivesStatement arity n us s) (hshape : ¬ Opens shape) (rest : List Token) :
    nextIs shape (us ++ rest) = false := by
  obtain ⟨t, vs, rfl, ht⟩ := h.head
  simp only [nextIs, List.cons_append, decide_eq_false_iff_not]
  rintro rfl
  exact hshape ht

/-- A statement that starts with `if` is a conditional. -/
theorem DerivesStatement.conditional {rest : List Token} (h : DerivesStatement arity n us s)
    (hif : nextIs (.keyword .ifWord) (us ++ rest) = true) :
    ∃ m, n = m + 1 ∧ DerivesIf arity m us s := by
  cases h with
  | branch h => exact ⟨_, rfl, h⟩
  | assign ht _ _ _ _ | print ht _ _ | input ht _ _ _ | loop ht _ _ _ _ _ _ | rand ht _ _ _ _ _ _
  | define ht _ _ _ _ _ | call ht _ _ _ => simp [nextIs, ht] at hif

end heads

end DivisionScript.Grammar
