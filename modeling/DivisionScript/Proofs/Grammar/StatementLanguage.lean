import DivisionScript.Proofs.Grammar.Language

/-!
# Grammar — Statement language

The languages of statements, blocks and programs, without the limits of arity and levels. That a
phrase stays one under higher limits lets phrases with limits of their own be put together.
-/

namespace DivisionScript.Grammar

open TokenKind Computability

variable {α β : Type}

/-- The shapes of a phrase, whatever the limits. -/
def limitless (phrase : Nat → Nat → List Token → α → Prop) : Language Shape :=
  sentences fun ts a => ∃ arity n, phrase arity n ts a

theorem mem_limitless {phrase : Nat → Nat → List Token → α → Prop} {arity n : Nat}
    {ts : List Token} {a : α} (h : phrase arity n ts a) :
    ts.map Token.shape ∈ limitless phrase :=
  mem_sentences ⟨arity, n, h⟩

/-! ## Lists -/

section lists

variable {item other : List Token → α → Prop} {ts : List Token} {as : List α}

theorem Separated.imp (h : Separated item ts as) (himp : ∀ ts a, item ts a → other ts a) :
    Separated other ts as := by
  induction h with
  | one ha => exact .one (himp _ _ ha)
  | more ha ht _ ih => exact .more (himp _ _ ha) ht ih

/-- Items with limits of their own have a common limit. -/
theorem Separated.exists_limit (item : Nat → List Token → α → Prop)
    (hmono : ∀ {n m ts a}, item n ts a → n ≤ m → item m ts a)
    (h : Separated (fun ts a => ∃ n, item n ts a) ts as) : ∃ n, Separated (item n) ts as := by
  induction h with
  | one ha =>
    obtain ⟨n, ha⟩ := ha
    exact ⟨n, .one ha⟩
  | more ha ht _ ih =>
    obtain ⟨n, ha⟩ := ha
    obtain ⟨m, hmore⟩ := ih
    refine ⟨max n m, .more (hmono ha (Nat.le_max_left ..)) ht ?_⟩
    exact hmore.imp fun _ _ ha => hmono ha (Nat.le_max_right ..)

theorem Parenthesized.mono {arity arity' : Nat} (h : Parenthesized arity item ts as)
    (hle : arity ≤ arity') (himp : ∀ ts a, item ts a → other ts a) :
    Parenthesized arity' other ts as := by
  cases h with
  | empty ho hc => exact .empty ho hc
  | items ho has hlen hc => exact .items ho (has.imp himp) (Nat.le_trans hlen hle) hc

/-- The shapes of a list between parentheses, however long. -/
def enclosed (item : List Token → α → Prop) : Language Shape :=
  sentences fun ts as => ∃ arity, Parenthesized arity item ts as

theorem sentences_separated : sentences (Separated item) =
    sentences item * (1 + wants comma * sentences (Separated item)) := by
  rw [mul_add, mul_one]
  refine Language.ext fun w => ?_
  rw [Language.mem_add]
  constructor
  · rintro ⟨ts, as, h, rfl⟩
    cases h with
    | one ha => exact .inl (mem_sentences ha)
    | @more ts us a as t ha ht hmore =>
      rw [List.map_append, List.map_cons]
      refine .inr (Language.append_mem_mul (mem_sentences ha) (mem_wants_mul.mpr ?_))
      exact ⟨t.shape, (), comma_eq_some.mpr ht, _, mem_sentences hmore, rfl⟩
  · rintro (⟨ts, a, ha, rfl⟩ | h)
    · exact mem_sentences (.one ha)
    · obtain ⟨_, ⟨ts, a, ha, rfl⟩, _, hmore, rfl⟩ := Language.mem_mul.mp h
      obtain ⟨s, _, hs, _, ⟨us, as, has, rfl⟩, rfl⟩ := mem_wants_mul.mp hmore
      obtain ⟨t, rfl⟩ := exists_token s
      rw [← List.map_cons, ← List.map_append]
      exact mem_sentences (.more ha (comma_eq_some.mp hs) has)

theorem enclosed_eq : enclosed item = token (.symbol .leftParen) *
    ((1 + sentences (Separated item)) * token (.symbol .rightParen)) := by
  refine Language.ext fun w => ?_
  rw [mem_token_mul]
  constructor
  · rintro ⟨ts, as, ⟨arity, h⟩, rfl⟩
    cases h with
    | empty ho hc => exact ⟨_, Language.append_mem_mul (.inl rfl) rfl, by simp [ho, hc]⟩
    | items ho has _ hc =>
      exact ⟨_, Language.append_mem_mul (.inr (mem_sentences has)) rfl, by simp [ho, hc]⟩
  · rintro ⟨u, hu, rfl⟩
    obtain ⟨v, hv, _, rfl, rfl⟩ := Language.mem_mul.mp hu
    obtain ⟨opening, ho⟩ := exists_token (.symbol .leftParen)
    obtain ⟨closing, hc⟩ := exists_token (.symbol .rightParen)
    rcases hv with rfl | ⟨ts, as, has, rfl⟩
    · exact ⟨[opening, closing], [], ⟨0, .empty ho hc⟩, by simp [ho, hc]⟩
    · exact ⟨opening :: (ts ++ [closing]), as, ⟨as.length, .items ho has (Nat.le_refl _) hc⟩,
        by simp [ho, hc]⟩

/-- The arguments of a call have a common limit of levels. -/
theorem mem_enclosed_expressions {w : List Shape} :
    w ∈ enclosed (fun ts e => ∃ n, Derives .expression n ts e) ↔
      ∃ arity n ts args, Parenthesized arity (Derives .expression n) ts args ∧
        ts.map Token.shape = w := by
  constructor
  · rintro ⟨ts, as, ⟨arity, h⟩, rfl⟩
    cases h with
    | empty ho hc => exact ⟨arity, 0, _, _, .empty ho hc, rfl⟩
    | items ho has hlen hc =>
      obtain ⟨n, has⟩ := has.exists_limit (Derives .expression) Derives.mono
      exact ⟨arity, n, _, _, .items ho has hlen hc, rfl⟩
  · rintro ⟨arity, n, ts, args, h, rfl⟩
    exact ⟨ts, args, ⟨arity, h.mono (Nat.le_refl _) fun _ _ he => ⟨n, he⟩⟩, rfl⟩

end lists

/-! ## Higher limits -/

mutual

theorem DerivesStatement.mono {arity arity' n m : Nat} {ts : List Token} {s : Stmt}
    (ha : arity ≤ arity') (hn : n ≤ m) :
    DerivesStatement arity n ts s → DerivesStatement arity' m ts s
  | .assign hname hequals he htag hstop => by
    obtain ⟨m, rfl, hle⟩ := exists_succ_of_le hn
    exact .assign hname hequals (he.mono hle) htag hstop
  | .print hword he hstop => by
    obtain ⟨m, rfl, hle⟩ := exists_succ_of_le hn
    exact .print hword (he.mono hle) hstop
  | .input hword hname hprompt hstop => by
    obtain ⟨m, rfl, hle⟩ := exists_succ_of_le hn
    exact .input hword hname hprompt hstop
  | .branch h => by
    obtain ⟨m, rfl, hle⟩ := exists_succ_of_le hn
    exact .branch (h.mono ha hle)
  | .loop hword hname hfrom hl hto hr hbody => by
    obtain ⟨m, rfl, hle⟩ := exists_succ_of_le hn
    exact .loop hword hname hfrom (hl.mono hle) hto (hr.mono hle) (hbody.mono ha hle)
  | .rand hword hname hfrom hl hto hr hstop => by
    obtain ⟨m, rfl, hle⟩ := exists_succ_of_le hn
    exact .rand hword hname hfrom (hl.mono hle) hto (hr.mono hle) hstop
  | .define hword hname hparams hreturns hresult hbody => by
    obtain ⟨m, rfl, hle⟩ := exists_succ_of_le hn
    exact .define hword hname (hparams.mono ha fun _ _ h => h) hreturns hresult
      (hbody.mono ha hle)
  | .call hword hname hargs hstop => by
    obtain ⟨m, rfl, hle⟩ := exists_succ_of_le hn
    exact .call hword hname (hargs.mono ha fun _ _ he => he.mono hle) hstop

theorem DerivesIf.mono {arity arity' n m : Nat} {ts : List Token} {s : Stmt}
    (ha : arity ≤ arity') (hn : n ≤ m) : DerivesIf arity n ts s → DerivesIf arity' m ts s
  | .mk hword he hbody hother =>
    .mk hword (he.mono hn) (hbody.mono ha hn) (hother.mono ha hn)

theorem DerivesElse.mono {arity arity' n m : Nat} {ts : List Token} {body : List Stmt}
    (ha : arity ≤ arity') (hn : n ≤ m) : DerivesElse arity n ts body → DerivesElse arity' m ts body
  | .absent => .absent
  | .block hword hbody => .block hword (hbody.mono ha hn)
  | .chained hword h => by
    obtain ⟨m, rfl, hle⟩ := exists_succ_of_le hn
    exact .chained hword (h.mono ha hle)

theorem DerivesBlock.mono {arity arity' n m : Nat} {ts : List Token} {body : List Stmt}
    (ha : arity ≤ arity') (hn : n ≤ m) :
    DerivesBlock arity n ts body → DerivesBlock arity' m ts body
  | .mk hopening hbody hclosing => .mk hopening (hbody.mono ha hn) hclosing

theorem DerivesStatements.mono {arity arity' n m : Nat} {ts : List Token} {body : List Stmt}
    (ha : arity ≤ arity') (hn : n ≤ m) :
    DerivesStatements arity n ts body → DerivesStatements arity' m ts body
  | .nil => .nil
  | .cons hs hrest => .cons (hs.mono ha hn) (hrest.mono ha hn)

end

/-! ## Parts of statements -/

theorem sentences_identifier : sentences Identifier = token .identifier := by
  refine Language.ext fun w => ⟨?_, ?_⟩
  · rintro ⟨ts, a, ⟨ht⟩, rfl⟩
    rw [List.map_singleton, ht]
    rfl
  · rintro rfl
    have hname : Identifier [⟨.identifier, "", 0⟩] ⟨.identifier, "", 0⟩ := .mk rfl
    exact mem_sentences hname

theorem sentences_prompt : sentences DerivesPrompt = 1 + token .string := by
  refine Language.ext fun w => ⟨?_, ?_⟩
  · rintro ⟨ts, text, h, rfl⟩
    cases h with
    | absent => exact .inl rfl
    | @present text t ht =>
      have hshape : t.shape = .string := by rw [Token.shape, ht]; rfl
      rw [List.map_singleton, hshape]
      exact .inr rfl
  · rintro (rfl | rfl)
    · exact mem_sentences DerivesPrompt.absent
    · exact mem_sentences (DerivesPrompt.present (t := ⟨.string "", "", 0⟩) rfl)

theorem sentences_tag : sentences DerivesTag =
    1 + token (.keyword .as) * (token (.keyword .number) + token (.keyword .string)) := by
  refine Language.ext fun w => ⟨?_, ?_⟩
  · rintro ⟨ts, tag, h, rfl⟩
    cases h with
    | absent => exact .inl rfl
    | @present word kind tag hword hkind =>
      rw [List.map_cons, List.map_singleton, hword, hkind]
      refine .inr (cons_mem_token_mul ?_)
      cases tag with
      | number => exact .inl rfl
      | string => exact .inr rfl
  · rintro (rfl | h)
    · exact mem_sentences DerivesTag.absent
    · obtain ⟨u, hu, rfl⟩ := mem_token_mul.mp h
      obtain ⟨tag, rfl⟩ : ∃ tag : TypeTag, u = [.keyword tag.keyword] := by
        rcases hu with rfl | rfl
        · exact ⟨.number, rfl⟩
        · exact ⟨.string, rfl⟩
      have htag : DerivesTag [⟨.keyword .as, "", 0⟩, ⟨.keyword tag.keyword, "", 0⟩] (some tag) :=
        .present tag rfl rfl
      exact mem_sentences htag

/-! ## Statements -/

/-- What follows the first token of a statement. -/
def statementTail : Shape → Language Shape
  | .identifier => token (.symbol .equal) * (Category.expression.language *
      (sentences DerivesTag * token (.symbol .semicolon)))
  | .keyword .print => Category.expression.language * token (.symbol .semicolon)
  | .keyword .input => token .identifier *
      (sentences DerivesPrompt * token (.symbol .semicolon))
  | .keyword .ifWord => Category.expression.language *
      (limitless DerivesBlock * limitless DerivesElse)
  | .keyword .loop => token .identifier * (token (.keyword .fromWord) *
      (Category.expression.language * (token (.keyword .toWord) *
        (Category.expression.language * limitless DerivesBlock))))
  | .keyword .rand => token .identifier * (token (.keyword .fromWord) *
      (Category.expression.language * (token (.keyword .toWord) *
        (Category.expression.language * token (.symbol .semicolon)))))
  | .keyword .func => token .identifier * (enclosed Identifier * (token (.keyword .returns) *
      (token .identifier * limitless DerivesBlock)))
  | .keyword .call => token .identifier *
      (enclosed (fun ts e => ∃ n, Derives .expression n ts e) * token (.symbol .semicolon))
  | _ => 0

section statements

variable {arity n : Nat} {ts : List Token} {s : Stmt}

theorem DerivesIf.mem (h : DerivesIf arity n ts s) :
    ts.map Token.shape ∈ token (.keyword .ifWord) * statementTail (.keyword .ifWord) := by
  cases h with
  | mk hword he hbody hother =>
    rw [List.map_cons, List.map_append, List.map_append, hword]
    exact cons_mem_token_mul (Language.append_mem_mul (Category.mem_language he)
      (Language.append_mem_mul (mem_limitless hbody) (mem_limitless hother)))

theorem DerivesStatement.mem (h : DerivesStatement arity n ts s) :
    ts.map Token.shape ∈ led statementTail := by
  cases h with
  | assign hname hequals he htag hstop =>
    refine ⟨.identifier, _, cons_mem_token_mul (Language.append_mem_mul (Category.mem_language he)
      (Language.append_mem_mul (mem_sentences htag) rfl)), ?_⟩
    simp [hname, hequals, hstop]
  | print hword he hstop =>
    refine ⟨.keyword .print, _, Language.append_mem_mul (Category.mem_language he) rfl, ?_⟩
    simp [hword, hstop]
  | input hword hname hprompt hstop =>
    refine ⟨.keyword .input, _, cons_mem_token_mul
      (Language.append_mem_mul (mem_sentences hprompt) rfl), ?_⟩
    simp [hword, hname, hstop]
  | branch h =>
    obtain ⟨u, hu, hw⟩ := mem_token_mul.mp h.mem
    exact ⟨_, u, hu, hw⟩
  | loop hword hname hfrom hl hto hr hbody =>
    refine ⟨.keyword .loop, _, cons_mem_token_mul (cons_mem_token_mul (Language.append_mem_mul
      (Category.mem_language hl) (cons_mem_token_mul (Language.append_mem_mul
        (Category.mem_language hr) (mem_limitless hbody))))), ?_⟩
    simp [hword, hname, hfrom, hto]
  | rand hword hname hfrom hl hto hr hstop =>
    refine ⟨.keyword .rand, _, cons_mem_token_mul (cons_mem_token_mul (Language.append_mem_mul
      (Category.mem_language hl) (cons_mem_token_mul (Language.append_mem_mul
        (Category.mem_language hr) rfl)))), ?_⟩
    simp [hword, hname, hfrom, hto, hstop]
  | define hword hname hparams hreturns hresult hbody =>
    refine ⟨.keyword .func, _, cons_mem_token_mul (Language.append_mem_mul
      (mem_sentences ⟨_, hparams⟩) (cons_mem_token_mul (cons_mem_token_mul
        (mem_limitless hbody)))), ?_⟩
    simp [hword, hname, hreturns, hresult]
  | call hword hname hargs hstop =>
    refine ⟨.keyword .call, _, cons_mem_token_mul (Language.append_mem_mul
      (mem_enclosed_expressions.mpr ⟨_, _, _, _, hargs, rfl⟩) rfl), ?_⟩
    simp [hword, hname, hstop]

end statements

/-- A phrase and what comes after it. -/
theorem exists_of_mem_expression {L : Language Shape} {w : List Shape}
    (h : w ∈ Category.expression.language * L) :
    ∃ n ts e, Derives .expression n ts e ∧ ∃ u ∈ L, w = ts.map Token.shape ++ u := by
  obtain ⟨_, ⟨ts, e, ⟨n, he⟩, rfl⟩, u, hu, rfl⟩ := Language.mem_mul.mp h
  exact ⟨n, ts, e, he, u, hu, rfl⟩

theorem limitless_if :
    limitless DerivesIf = token (.keyword .ifWord) * statementTail (.keyword .ifWord) := by
  refine Language.ext fun w => ⟨?_, fun hw => ?_⟩
  · rintro ⟨ts, s, ⟨arity, n, h⟩, rfl⟩
    exact h.mem
  · obtain ⟨u, hu, rfl⟩ := mem_token_mul.mp hw
    obtain ⟨n, ts, e, he, v, hv, rfl⟩ := exists_of_mem_expression hu
    obtain ⟨_, ⟨us, body, ⟨arity, m, hbody⟩, rfl⟩, _, ⟨vs, other, ⟨arity', k, hother⟩, rfl⟩, rfl⟩ :=
      Language.mem_mul.mp hv
    obtain ⟨word, hword⟩ := exists_token (.keyword .ifWord)
    have hif : DerivesIf (arity + arity') (n + m + k) (word :: (ts ++ (us ++ vs))) _ :=
      .mk hword (he.mono (by omega)) (hbody.mono (by omega) (by omega))
        (hother.mono (by omega) (by omega))
    simpa [hword] using mem_limitless hif

/-- The words of the grammar are read back as statements, one production for each first token. -/
theorem exists_statement {s : Shape} {u : List Shape} (hu : u ∈ statementTail s) :
    s :: u ∈ limitless DerivesStatement := by
  obtain ⟨first, rfl⟩ := exists_token s
  obtain ⟨name, hname⟩ := exists_token .identifier
  obtain ⟨fromWord, hfrom⟩ := exists_token (.keyword .fromWord)
  obtain ⟨toWord, hto⟩ := exists_token (.keyword .toWord)
  obtain ⟨stop, hstop⟩ := exists_token (.symbol .semicolon)
  rw [statementTail.eq_def] at hu
  split at hu
  · next hfirst =>
    obtain ⟨v, hv, rfl⟩ := mem_token_mul.mp hu
    obtain ⟨n, ts, e, he, x, hx, rfl⟩ := exists_of_mem_expression hv
    obtain ⟨_, ⟨us, tag, htag, rfl⟩, _, rfl, rfl⟩ := Language.mem_mul.mp hx
    obtain ⟨equals, hequals⟩ := exists_token (.symbol .equal)
    have hs : DerivesStatement 0 (n + 1) _ _ := .assign hfirst hequals he htag hstop
    simpa [hequals, hstop] using mem_limitless hs
  · next hfirst =>
    obtain ⟨n, ts, e, he, _, rfl, rfl⟩ := exists_of_mem_expression hu
    have hs : DerivesStatement 0 (n + 1) _ _ := .print hfirst he hstop
    simpa [hstop] using mem_limitless hs
  · next hfirst =>
    obtain ⟨v, hv, rfl⟩ := mem_token_mul.mp hu
    obtain ⟨_, ⟨ts, text, hprompt, rfl⟩, _, rfl, rfl⟩ := Language.mem_mul.mp hv
    have hs : DerivesStatement 0 1 _ _ := .input hfirst hname hprompt hstop
    simpa [hname, hstop] using mem_limitless hs
  · next hfirst =>
    obtain ⟨ts, s, ⟨arity, n, hif⟩, hw⟩ : first.shape :: u ∈ limitless DerivesIf := by
      rw [limitless_if, hfirst]
      exact cons_mem_token_mul hu
    exact hw ▸ mem_limitless (.branch hif)
  · next hfirst =>
    obtain ⟨v, hv, rfl⟩ := mem_token_mul.mp hu
    obtain ⟨x, hx, rfl⟩ := mem_token_mul.mp hv
    obtain ⟨n, ts, l, hl, y, hy, rfl⟩ := exists_of_mem_expression hx
    obtain ⟨z, hz, rfl⟩ := mem_token_mul.mp hy
    obtain ⟨m, us, r, hr, _, ⟨vs, body, ⟨arity, k, hbody⟩, rfl⟩, rfl⟩ :=
      exists_of_mem_expression hz
    have hs : DerivesStatement arity (n + m + k + 1) _ _ :=
      .loop hfirst hname hfrom (hl.mono (by omega)) hto (hr.mono (by omega))
        (hbody.mono (Nat.le_refl _) (by omega))
    simpa [hname, hfrom, hto] using mem_limitless hs
  · next hfirst =>
    obtain ⟨v, hv, rfl⟩ := mem_token_mul.mp hu
    obtain ⟨x, hx, rfl⟩ := mem_token_mul.mp hv
    obtain ⟨n, ts, l, hl, y, hy, rfl⟩ := exists_of_mem_expression hx
    obtain ⟨z, hz, rfl⟩ := mem_token_mul.mp hy
    obtain ⟨m, us, r, hr, _, rfl, rfl⟩ := exists_of_mem_expression hz
    have hs : DerivesStatement 0 (n + m + 1) _ _ :=
      .rand hfirst hname hfrom (hl.mono (by omega)) hto (hr.mono (by omega)) hstop
    simpa [hname, hfrom, hto, hstop] using mem_limitless hs
  · next hfirst =>
    obtain ⟨v, hv, rfl⟩ := mem_token_mul.mp hu
    obtain ⟨_, ⟨ts, params, ⟨arity, hparams⟩, rfl⟩, x, hx, rfl⟩ := Language.mem_mul.mp hv
    obtain ⟨y, hy, rfl⟩ := mem_token_mul.mp hx
    obtain ⟨_, ⟨us, body, ⟨arity', n, hbody⟩, rfl⟩, rfl⟩ := mem_token_mul.mp hy
    obtain ⟨returns, hreturns⟩ := exists_token (.keyword .returns)
    have hs : DerivesStatement (arity + arity') (n + 1) _ _ :=
      .define hfirst hname (hparams.mono (by omega) fun _ _ h => h) hreturns hname
        (hbody.mono (by omega) (Nat.le_refl _))
    simpa [hname, hreturns] using mem_limitless hs
  · next hfirst =>
    obtain ⟨v, hv, rfl⟩ := mem_token_mul.mp hu
    obtain ⟨_, hlist, _, rfl, rfl⟩ := Language.mem_mul.mp hv
    obtain ⟨arity, n, ts, args, hargs, rfl⟩ := mem_enclosed_expressions.mp hlist
    have hs : DerivesStatement arity (n + 1) _ _ := .call hfirst hname hargs hstop
    simpa [hname, hstop] using mem_limitless hs
  · cases hu

theorem limitless_statement : limitless DerivesStatement = led statementTail := by
  refine Language.ext fun w => ⟨?_, ?_⟩
  · rintro ⟨ts, s, ⟨arity, n, h⟩, rfl⟩
    exact h.mem
  · rintro ⟨s, u, hu, rfl⟩
    exact exists_statement hu

/-! ## Blocks -/

theorem limitless_else : limitless DerivesElse =
    1 + token (.keyword .elseWord) * (limitless DerivesBlock + limitless DerivesIf) := by
  refine Language.ext fun w => ⟨?_, ?_⟩
  · rintro ⟨ts, body, ⟨arity, n, h⟩, rfl⟩
    cases h with
    | absent => exact .inl rfl
    | block hword hbody =>
      rw [List.map_cons, hword]
      exact .inr (cons_mem_token_mul (.inl (mem_limitless hbody)))
    | chained hword hif =>
      rw [List.map_cons, hword]
      exact .inr (cons_mem_token_mul (.inr (mem_limitless hif)))
  · obtain ⟨word, hword⟩ := exists_token (.keyword .elseWord)
    rintro (rfl | hw)
    · have habsent : DerivesElse 0 0 [] [] := .absent
      exact mem_limitless habsent
    · obtain ⟨_, ⟨ts, body, ⟨arity, n, hbody⟩, rfl⟩ | ⟨ts, s, ⟨arity, n, hif⟩, rfl⟩, rfl⟩ :=
        mem_token_mul.mp hw
      · simpa [hword] using mem_limitless (DerivesElse.block hword hbody)
      · simpa [hword] using mem_limitless (DerivesElse.chained hword hif)

theorem limitless_block : limitless DerivesBlock =
    token (.symbol .leftBrace) * (limitless DerivesStatements * token (.symbol .rightBrace)) := by
  refine Language.ext fun w => ⟨?_, fun hw => ?_⟩
  · rintro ⟨ts, body, ⟨arity, n, h⟩, rfl⟩
    cases h with
    | mk hopening hbody hclosing =>
      rw [List.map_cons, List.map_append, List.map_singleton, hopening, hclosing]
      exact cons_mem_token_mul (Language.append_mem_mul (mem_limitless hbody) rfl)
  · obtain ⟨u, hu, rfl⟩ := mem_token_mul.mp hw
    obtain ⟨_, ⟨ts, body, ⟨arity, n, hbody⟩, rfl⟩, _, rfl, rfl⟩ := Language.mem_mul.mp hu
    obtain ⟨opening, hopening⟩ := exists_token (.symbol .leftBrace)
    obtain ⟨closing, hclosing⟩ := exists_token (.symbol .rightBrace)
    simpa [hopening, hclosing] using mem_limitless (DerivesBlock.mk hopening hbody hclosing)

theorem nil_notMem_led (tail : Shape → Language Shape) : [] ∉ led tail := by
  rintro ⟨s, u, -, ⟨⟩⟩

/-- Phrases one after another, by Arden's lemma. Phrases with limits of their own have common
limits. -/
theorem limitless_list {item : Nat → Nat → List Token → α → Prop}
    {list : Nat → Nat → List Token → List α → Prop} (hfilled : [] ∉ limitless item)
    (hitem : ∀ {arity arity' n m ts a}, arity ≤ arity' → n ≤ m → item arity n ts a →
      item arity' m ts a)
    (hlist : ∀ {arity arity' n m ts as}, arity ≤ arity' → n ≤ m → list arity n ts as →
      list arity' m ts as)
    (hnil : list 0 0 [] [])
    (hcons : ∀ {arity n ts us a as}, item arity n ts a → list arity n us as →
      list arity n (ts ++ us) (a :: as))
    (hcases : ∀ {arity n ts as}, list arity n ts as → ts = [] ∨
      ∃ us vs a rest, ts = us ++ vs ∧ item arity n us a ∧ list arity n vs rest) :
    limitless list = (limitless item)∗ := by
  have hstep : limitless list = limitless item * limitless list + 1 := by
    refine Language.ext fun w => ⟨?_, ?_⟩
    · rintro ⟨ts, as, ⟨arity, n, h⟩, rfl⟩
      rcases hcases h with rfl | ⟨us, vs, a, rest, rfl, ha, hrest⟩
      · exact .inr rfl
      · rw [List.map_append]
        exact .inl (Language.append_mem_mul (mem_limitless ha) (mem_limitless hrest))
    · rintro (hw | rfl)
      · obtain ⟨_, ⟨ts, a, ⟨arity, n, ha⟩, rfl⟩, _, ⟨us, rest, ⟨arity', m, hrest⟩, rfl⟩, rfl⟩ :=
          Language.mem_mul.mp hw
        have hmore : list (arity + arity') (n + m) (ts ++ us) (a :: rest) :=
          hcons (hitem (by omega) (by omega) ha) (hlist (by omega) (by omega) hrest)
        rw [← List.map_append]
        exact mem_limitless hmore
      · exact mem_limitless hnil
  rw [(Language.self_eq_mul_add_iff hfilled).mp hstep, mul_one]

theorem limitless_statements :
    limitless DerivesStatements = (limitless DerivesStatement)∗ := by
  have hfilled : [] ∉ limitless DerivesStatement := limitless_statement ▸ nil_notMem_led _
  refine limitless_list hfilled DerivesStatement.mono DerivesStatements.mono .nil .cons fun h => ?_
  cases h with
  | nil => exact .inl rfl
  | cons hs hrest => exact .inr ⟨_, _, _, _, rfl, hs, hrest⟩

end DivisionScript.Grammar
