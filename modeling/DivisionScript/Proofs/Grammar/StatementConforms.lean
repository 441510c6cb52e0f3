import DivisionScript.Proofs.Grammar.ExpressionConforms
import DivisionScript.Proofs.Grammar.StatementLanguage
import DivisionScript.Proofs.Grammar.StatementRules

/-!
# Grammar — Statement, conforming

The rules of statements go along with the languages of statements, blocks and their parts, where
`else` does not come after. What stands inside a statement has one level less, so the induction is
on the number of levels again.
-/

namespace DivisionScript.Grammar

open TokenKind Computability

variable {α β : Type} {L M Y : Language Shape} {F : Shape → Prop}

theorem nextIs_iff {s : Shape} (hs : s ≠ .endOfText) {ts : List Token} :
    nextIs s ts = true ↔ ahead ts = s := by
  cases ts with
  | nil => simp [nextIs, ahead, hs.symm]
  | cons t us => simp [nextIs, ahead]

/-! ## Expressions inside statements -/

section expressions

theorem language_expression_mul : ∃ M, Nonvoid M ∧
    Category.expression.language = Category.unary.language * M := by
  rw [Category.language_expression, Category.language_disjunction, Category.language_conjunction,
    Category.language_comparison, Category.language_sum, Category.language_term,
    Category.language_power]
  simp only [mul_assoc]
  exact ⟨_, inferInstance, rfl⟩

instance : Nonvoid Category.expression.language := by
  obtain ⟨M, hM, heq⟩ := language_expression_mul
  rw [heq, Category.language_unary]
  infer_instance

/-- No expression starts with a closing parenthesis. -/
theorem startsIn_expression :
    StartsIn (· ≠ .symbol .rightParen) Category.expression.language := by
  obtain ⟨M, -, heq⟩ := language_expression_mul
  rw [heq, Category.language_unary, Category.language_primary]
  have hprimary : StartsIn (· ≠ .symbol .rightParen) (led Category.primaryTail) :=
    .led_ne fun _ hu => hu
  exact .mul (.add hprimary (.mul (.token (by decide)) _)) M

theorem expression_fits (n : Nat) : Fits (expression n) Category.expression.language (Weaker 1) :=
  Category.rule_fits n .expression

end expressions

/-! ## Lists -/

section lists

variable {item : Rule α} {phrase : List Token → α → Prop} {overflow : SyntaxCause}
variable {openPhrase closePhrase : String}

/-- The induction is on how many items there is room for. -/
theorem separated_conforms (hitem : Fits item (sentences phrase) F) (hcomma : F (.symbol .comma))
    (hclosing : F (.symbol .rightParen)) (hoverflow : overflow.isLimit)
    (hY : StartsIn (· = .symbol .rightParen) Y) (room : Nat) (ts : List Token) :
    Conforms (sentences (Separated phrase)) Y ts
      ((separated item overflow room ts).map Read.rest) := by
  induction room generalizing ts with
  | zero => exact .limit hoverflow
  | succ room ih =>
    have hfollows : StartsIn F ((1 + wants comma * sentences (Separated phrase)) * Y) := by
      refine .optional_mul (.mul (.wants fun hs => ?_) _) (hY.mono fun s hs => ?_)
      · rwa [comma_eq_some.mp hs]
      · rwa [hs]
    rw [sentences_separated, separated]
    refine .bind (hitem hfollows ts) fun first _ => ?_
    refine accept_conforms (fun hs => ?_) rfl hY (fun hno => ?_) fun b us h hyes => ?_
    · rw [comma_eq_some.mp hs]
      decide
    · rw [hno]
      rfl
    · rw [hyes]
      refine .done (p := Read.rest) ?_ fun _ => rfl
      exact (ih us).map fun _ => rfl

theorem parenthesized_conforms (hitem : Fits item (sentences phrase) F)
    (hcomma : F (.symbol .comma)) (hclosing : F (.symbol .rightParen))
    (hoverflow : overflow.isLimit)
    (hstarts : StartsIn (· ≠ .symbol .rightParen) (sentences phrase)) (ts : List Token) :
    Conforms (enclosed phrase) Y ts
      ((parenthesized item overflow openPhrase closePhrase ts).map Read.rest) := by
  have hlist : StartsIn (· ≠ .symbol .rightParen) (sentences (Separated phrase)) := by
    rw [sentences_separated]
    exact hstarts.mul _
  rw [enclosed_eq]
  refine .bind (.symbol ts) fun opening _ => ?_
  split
  · next hempty =>
    have hahead := (nextIs_iff (by decide)).mp hempty
    exact (Conforms.left_out hlist (not_not_intro hahead)).seq
      (.done (.next (.symbol opening.rest)) fun _ => rfl)
  · next hitems =>
    have hahead := fun h => hitems ((nextIs_iff (by decide)).mpr h)
    have hsome := separated_conforms hitem hcomma hclosing hoverflow (.opened _ Y) maxArity
      opening.rest
    exact .bind (.present (.next hsome) (.opened _ Y) hahead) fun items _ =>
      .done (.next (.symbol items.rest)) fun _ => rfl

instance : Nonvoid (enclosed phrase) :=
  enclosed_eq ▸ inferInstance

theorem parameters_conforms {line : Nat} (ts : List Token) :
    Conforms (enclosed Identifier) Y ts ((parameters line ts).map Read.rest) := by
  have hitem : Fits (expect .identifier "parameter name") (sentences Identifier) fun _ => True := by
    rw [sentences_identifier]
    exact fun _ _ ts => .identifier ts
  have hstarts : StartsIn (· ≠ .symbol .rightParen) (sentences Identifier) := by
    rw [sentences_identifier]
    exact .token (by decide)
  exact parenthesized_conforms hitem trivial trivial rfl hstarts ts

theorem arguments_conforms (n : Nat) (ts : List Token) :
    Conforms (enclosed fun ts e => ∃ n, Derives .expression n ts e) Y ts
      ((arguments n ts).map Read.rest) :=
  parenthesized_conforms (expression_fits n) (by decide) (by decide) rfl startsIn_expression ts

end lists

/-! ## Simple statements -/

section simple

variable {n line : Nat}

instance : Nonvoid (sentences DerivesTag) :=
  sentences_tag ▸ inferInstance

instance : Nonvoid (sentences DerivesPrompt) :=
  sentences_prompt ▸ inferInstance

theorem startsIn_tag (has : F (.keyword .as)) (hY : StartsIn F Y) :
    StartsIn F (sentences DerivesTag * Y) := by
  rw [sentences_tag]
  exact .optional_mul (.mul (.token has) _) hY

theorem tagName_conforms (ts : List Token) :
    Conforms (token (.keyword .number) + token (.keyword .string)) Y ts
      ((tagName ts).map Read.rest) := by
  have hstarts : StartsIn (fun s => s = .keyword .number ∨ s = .keyword .string)
      (token (.keyword .number) + token (.keyword .string)) :=
    .add (.token (.inl rfl)) (.token (.inr rfl))
  cases ts with
  | nil => exact .barred hstarts (by decide)
  | cons t us =>
    rw [tagName]
    split
    · next ht => exact (Conforms.token ht).or_else (.opened _ Y) (by simp [ahead, ht])
    · next ht =>
      rw [add_comm]
      exact (Conforms.token ht).or_else (.opened _ Y) (by simp [ahead, ht])
    · next hnumber hstring => exact .barred hstarts (not_or.mpr ⟨hnumber, hstring⟩)

theorem typeTag_conforms (hY : StartsIn (· = .symbol .semicolon) Y) (ts : List Token) :
    Conforms (sentences DerivesTag) Y ts ((typeTag ts).map Read.rest) := by
  rw [sentences_tag]
  cases ts with
  | nil => exact .left_out (.opened _ _) nofun
  | cons t us =>
    rw [typeTag]
    split
    · next ht =>
      refine .present (.behind ht (.done (tagName_conforms us) fun _ => rfl)) hY ?_
      simp [ahead, ht]
    · next ht => exact .left_out (.opened _ _) ht

theorem prompt_conforms (hY : StartsIn (· = .symbol .semicolon) Y) (ts : List Token) :
    Conforms (sentences DerivesPrompt) Y ts ((prompt ts).map Read.rest) := by
  have hstring : StartsIn (· = .string) (token .string) := .token rfl
  rw [sentences_prompt]
  cases ts with
  | nil => exact .left_out hstring nofun
  | cons t us =>
    have hshape : t.shape = t.kind.shape := rfl
    rw [prompt]
    cases hkind : t.kind with
    | string text =>
      rw [hkind] at hshape
      exact .present (.token hshape) hY (by simp [ahead, hshape, TokenKind.shape])
    | _ =>
      rw [hkind] at hshape
      exact .left_out hstring (by simp [ahead, hshape, TokenKind.shape])

theorem printStatement_conforms (ts : List Token) :
    Conforms (statementTail (.keyword .print)) Y ts
      ((printStatement n line ts).map Read.rest) :=
  .bind (expression_fits n (.mul (.token (by decide)) Y) ts) fun value _ =>
    .done (.next (.symbol value.rest)) fun _ => rfl

theorem assignment_conforms (ts : List Token) :
    Conforms (token .identifier * statementTail .identifier) Y ts
      ((assignment n line ts).map Read.rest) := by
  have hfollows : StartsIn (Weaker 1)
      (sentences DerivesTag * token (.symbol .semicolon) * Y) :=
    .mul (startsIn_tag (by decide) (.token (by decide))) Y
  rw [statementTail]
  exact .bind (.identifier ts) fun name _ => .bind (.next (.symbol name.rest)) fun equals _ =>
    .bind (.next (expression_fits n hfollows equals.rest)) fun value _ =>
      .bind (.nextOptional (typeTag_conforms (.opened _ Y) value.rest)) fun tag _ =>
        .done (.next (.symbol tag.rest)) fun _ => rfl

theorem inputStatement_conforms (ts : List Token) :
    Conforms (statementTail (.keyword .input)) Y ts ((inputStatement line ts).map Read.rest) :=
  .bind (.identifier ts) fun name _ =>
    .bind (.nextOptional (prompt_conforms (.opened _ Y) name.rest)) fun shown _ =>
      .done (.next (.symbol shown.rest)) fun _ => rfl

theorem randStatement_conforms (ts : List Token) :
    Conforms (statementTail (.keyword .rand)) Y ts ((randStatement n line ts).map Read.rest) := by
  have hleast (M : Language Shape) : StartsIn (Weaker 1) (token (.keyword .toWord) * M * Y) :=
    .mul (.mul (.token (by decide)) M) Y
  have hgreatest : StartsIn (Weaker 1) (token (.symbol .semicolon) * Y) :=
    .mul (.token (by decide)) Y
  exact .bind (.identifier ts) fun name _ => .bind (.next (.keyword name.rest)) fun fromWord _ =>
    .bind (.next (expression_fits n (hleast _) fromWord.rest)) fun least _ =>
      .bind (.next (.keyword least.rest)) fun toWord _ =>
        .bind (.next (expression_fits n hgreatest toWord.rest)) fun greatest _ =>
          .done (.next (.symbol greatest.rest)) fun _ => rfl

theorem callStatement_conforms (ts : List Token) :
    Conforms (statementTail (.keyword .call)) Y ts ((callStatement n line ts).map Read.rest) :=
  .bind (.identifier ts) fun name _ =>
    .bind (.next (arguments_conforms n name.rest)) fun args _ =>
      .done (.next (.symbol args.rest)) fun _ => rfl

theorem loopHeader_conforms (hY : StartsIn (Weaker 1) Y) (ts : List Token) :
    Conforms (token .identifier * (token (.keyword .fromWord) * (Category.expression.language *
      (token (.keyword .toWord) * Category.expression.language)))) Y ts
      ((loopHeader n ts).map Read.rest) := by
  have hstart (M : Language Shape) : StartsIn (Weaker 1) (token (.keyword .toWord) * M * Y) :=
    .mul (.mul (.token (by decide)) M) Y
  exact .bind (.identifier ts) fun name _ => .bind (.next (.keyword name.rest)) fun fromWord _ =>
    .bind (.next (expression_fits n (hstart _) fromWord.rest)) fun start _ =>
      .bind (.next (.keyword start.rest)) fun toWord _ =>
        .done (.next (expression_fits n hY toWord.rest)) fun _ => rfl

theorem functionHeader_conforms (ts : List Token) :
    Conforms (token .identifier * (enclosed Identifier * (token (.keyword .returns) *
      token .identifier))) Y ts ((functionHeader ts).map Read.rest) :=
  .bind (.identifier ts) fun name _ =>
    .bind (.next (parameters_conforms name.rest)) fun params _ =>
      .bind (.next (.keyword params.rest)) fun returns _ =>
        .done (.next (.identifier returns.rest)) fun _ => rfl

end simple

/-! ## Statements with blocks -/

/-- A rule with milestones goes along with a language where what comes after begins with one of some
shapes. -/
def TrackedFits {bound : List Token → Nat} (rule : (ts : List Token) → Tracked (Read α (bound ts)))
    (L : Language Shape) (F : Shape → Prop) : Prop :=
  ∀ ⦃Y⦄, StartsIn F Y → ∀ ts log, Conforms L Y ts (outcome Read.rest (rule ts log))

instance : Nonvoid (limitless DerivesBlock) := by
  rw [limitless_block, limitless_statements]
  infer_instance

instance : Nonvoid (limitless DerivesElse) :=
  limitless_else ▸ inferInstance

instance : Nonvoid (statementTail (.keyword .ifWord)) :=
  inferInstanceAs (Nonvoid (Category.expression.language *
    (limitless DerivesBlock * limitless DerivesElse)))

instance : Nonvoid (led statementTail) :=
  nonvoid_led (.keyword .ifWord)

theorem startsIn_block (M : Language Shape) :
    StartsIn (· = .symbol .leftBrace) (limitless DerivesBlock * M) := by
  rw [limitless_block]
  exact .mul (.opened _ _) M

theorem startsIn_statement {s : Shape} (hnone : ∀ u, u ∉ statementTail s) :
    StartsIn (· ≠ s) (limitless DerivesStatement) := by
  rw [limitless_statement]
  exact .led_ne hnone

/-- Where `else` does not come after statements, it does not come after the first one either. -/
theorem startsIn_statements (hY : StartsIn (· ≠ .keyword .elseWord) Y) :
    StartsIn (· ≠ .keyword .elseWord) ((limitless DerivesStatement)∗ * Y) :=
  .kstar_mul (startsIn_statement fun _ hu => hu) hY

section blocks

variable {n line : Nat} {place : String} {inner : TrackedRule Stmt} {log : Array Milestone}
variable (hinner : TrackedFits inner (limitless DerivesStatement) (· ≠ .keyword .elseWord))
include hinner

/-- The recursion is on how many tokens are left. -/
theorem statements_conforms (hY : StartsIn (· = .symbol .rightBrace) Y) (ts : List Token)
    (log : Array Milestone) : Conforms (limitless DerivesStatement)∗ Y ts
      (outcome Read.rest (statements inner ts log)) := by
  cases ts with
  | nil =>
    rw [statements]
    exact .none_left (startsIn_statement (s := .endOfText) fun _ hu => hu) (not_not_intro rfl)
  | cons t rest =>
    rw [statements]
    split
    · next ht =>
      exact .none_left (startsIn_statement (s := .symbol .rightBrace) fun _ hu => hu)
        (not_not_intro ht)
    · next ht =>
      have hnoElse : StartsIn (· ≠ .keyword .elseWord) Y := hY.mono (by rintro _ rfl; decide)
      refine .one_more ?_ hY ht
      have hfirst := hinner (startsIn_statements hnoElse) (t :: rest) log
      refine .bindTracked hfirst fun first log _ => ?_
      have hshorter : first.rest.length < (t :: rest).length := first.shorter
      exact (statements_conforms hY first.rest log).doneTracked fun _ => rfl
termination_by ts.length
decreasing_by exact hshorter

theorem block_conforms (ts : List Token) : Conforms (limitless DerivesBlock) Y ts
    (outcome Read.rest (block inner place ts log)) := by
  rw [limitless_block, limitless_statements]
  exact .bindTracked (.tracked (.symbol ts)) fun opening log _ =>
    .bindTracked (.nextOptionalTracked (statements_conforms hinner (.opened _ Y) opening.rest log))
      fun body _ _ => .doneTracked (.tracked (.next (.symbol body.rest))) fun _ => rfl

theorem elseBranch_conforms (hY : StartsIn (· ≠ .keyword .elseWord) Y) (ts : List Token) :
    Conforms (limitless DerivesElse) Y ts (outcome Read.rest (elseBranch inner ts log)) := by
  rw [limitless_else]
  cases ts with
  | nil => exact .left_out (.opened _ _) nofun
  | cons t rest =>
    rw [elseBranch]
    split
    · next ht =>
      refine .present (.behind ht ?_) hY (not_not_intro ht)
      split
      · next hif =>
        -- the rule reads any statement here, but one that starts with `if` is a conditional
        rw [nextIs_iff (by decide)] at hif
        have hchained := hinner hY rest log
        rw [limitless_statement] at hchained
        rw [add_comm, limitless_if]
        refine .or_else (.doneTracked (hchained.of_led hif) fun _ => rfl) (startsIn_block Y) ?_
        rw [hif]
        decide
      · next hif =>
        rw [nextIs_iff (by decide)] at hif
        rw [limitless_if]
        exact .or_else (.doneTracked (block_conforms hinner rest) fun _ => rfl)
          (.mul (.opened _ _) Y) hif
    · next ht => exact .left_out (.opened _ _) ht

theorem ifStatement_conforms (hY : StartsIn (· ≠ .keyword .elseWord) Y) (ts : List Token) :
    Conforms (statementTail (.keyword .ifWord)) Y ts
      (outcome Read.rest (ifStatement n line inner ts log)) := by
  have hblock (M : Language Shape) : StartsIn (Weaker 1) (limitless DerivesBlock * M * Y) := by
    refine .mul ((startsIn_block M).mono ?_) Y
    rintro _ rfl
    decide
  exact .bindTracked (.tracked (expression_fits n (hblock _) ts)) fun condition _ _ =>
    .bindTracked (.nextTracked (block_conforms hinner condition.rest)) fun thenBody _ _ =>
      .doneTracked (.nextOptionalTracked (elseBranch_conforms hinner hY thenBody.rest)) fun _ => rfl

theorem loopStatement_conforms (ts : List Token) :
    Conforms (statementTail (.keyword .loop)) Y ts
      (outcome Read.rest (loopStatement n line inner ts log)) := by
  have hblock : StartsIn (Weaker 1) (limitless DerivesBlock * Y) := by
    refine (startsIn_block Y).mono ?_
    rintro _ rfl
    decide
  have hparts : statementTail (.keyword .loop) =
      token .identifier * (token (.keyword .fromWord) * (Category.expression.language *
        (token (.keyword .toWord) * Category.expression.language))) * limitless DerivesBlock := by
    simp only [statementTail, mul_assoc]
  rw [hparts]
  exact .bindTracked (.tracked (loopHeader_conforms hblock ts)) fun header _ _ =>
    .doneTracked (.nextTracked (block_conforms hinner header.rest)) fun _ => rfl

theorem defineStatement_conforms (ts : List Token) :
    Conforms (statementTail (.keyword .func)) Y ts
      (outcome Read.rest (defineStatement line inner ts log)) := by
  have hparts : statementTail (.keyword .func) = token .identifier * (enclosed Identifier *
      (token (.keyword .returns) * token .identifier)) * limitless DerivesBlock := by
    simp only [statementTail, mul_assoc]
  rw [hparts]
  exact .bindTracked (.tracked (functionHeader_conforms ts)) fun header _ _ =>
    .doneTracked (.nextTracked (block_conforms hinner header.rest)) fun _ => rfl

theorem openedStatement_fits : TrackedFits (openedStatement n inner) (limitless DerivesStatement)
    (· ≠ .keyword .elseWord) := by
  intro Y hY ts log
  rw [limitless_statement]
  cases ts with
  | nil => exact .led_refused rfl fun _ hu => hu
  | cons t rest =>
    rw [openedStatement]
    refine .reached ?_
    cases ht : t.shape with
    | identifier => exact .to_led (.tracked (assignment_conforms (t :: rest))) ht
    | keyword k =>
      cases k with
      | print => exact .led ht (.mapTracked (.tracked (printStatement_conforms rest)) fun _ => rfl)
      | input => exact .led ht (.mapTracked (.tracked (inputStatement_conforms rest)) fun _ => rfl)
      | ifWord => exact .led ht (.mapTracked (ifStatement_conforms hinner hY rest) fun _ => rfl)
      | loop => exact .led ht (.mapTracked (loopStatement_conforms hinner rest) fun _ => rfl)
      | rand => exact .led ht (.mapTracked (.tracked (randStatement_conforms rest)) fun _ => rfl)
      | func => exact .led ht (.mapTracked (defineStatement_conforms hinner rest) fun _ => rfl)
      | call => exact .led ht (.mapTracked (.tracked (callStatement_conforms rest)) fun _ => rfl)
      | _ => exact .led_refused ht fun _ hu => hu
    | _ => exact .led_refused ht fun _ hu => hu

end blocks

/-- Statements with any number of levels go along with the language of statements. -/
theorem statement_fits (n : Nat) :
    TrackedFits (statement n) (limitless DerivesStatement) (· ≠ .keyword .elseWord) := by
  induction n with
  | zero => exact fun _ _ _ _ => .limit rfl
  | succ n ih => exact openedStatement_fits ih

end DivisionScript.Grammar
