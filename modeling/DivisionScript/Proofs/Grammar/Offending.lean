import DivisionScript.Proofs.Grammar.Program
import DivisionScript.Proofs.Grammar.ProgramLanguage
import DivisionScript.Proofs.Grammar.StatementConforms

/-!
# Grammar — Offending token

The rules of declarations, of programs and of lone expressions go along with their languages too.
Syntax errors are therefore reported at the first offending token: what comes before it begins some
program, and together with it no longer does. Only the limits of arity and levels are reported
elsewhere.
-/

namespace DivisionScript.Grammar

open TokenKind Computability

variable {n line : Nat} {L Y : Language Shape}

/-! ## Declarations -/

section declarations

theorem stringLiteral_conforms {phrase : String} (ts : List Token) :
    Conforms (token .string) Y ts ((stringLiteral phrase ts).map Read.rest) := by
  cases ts with
  | nil => exact .token_refused nofun
  | cons t us =>
    have hshape : t.shape = t.kind.shape := rfl
    rw [stringLiteral]
    cases hkind : t.kind with
    | string text =>
      rw [hkind] at hshape
      exact .token hshape
    | _ =>
      rw [hkind] at hshape
      exact .token_refused (by simp [ahead, hshape, TokenKind.shape])

theorem metadata_conforms {keyword : String} {make : String → Decl} (ts : List Token) :
    Conforms (token .string * token (.symbol .semicolon)) Y ts
      ((metadata keyword make ts).map Read.rest) :=
  .bind (stringLiteral_conforms ts) fun text _ => .done (.next (.symbol text.rest)) fun _ => rfl

theorem constant_conforms (ts : List Token) :
    Conforms (declarationTail (.keyword .const)) Y ts ((constant n line ts).map Read.rest) := by
  have hfollows : StartsIn (Weaker 1) (token (.symbol .semicolon) * Y) :=
    .mul (.token (by decide)) Y
  exact .bind (.identifier ts) fun name _ => .bind (.next (.symbol name.rest)) fun equals _ =>
    .bind (.next (expression_fits n hfollows equals.rest)) fun value _ =>
      .done (.next (.symbol value.rest)) fun _ => rfl

instance : Nonvoid (led declarationTail) :=
  have : Nonvoid (declarationTail (.keyword .program)) :=
    inferInstanceAs (Nonvoid (token .string * token (.symbol .semicolon)))
  nonvoid_led (.keyword .program)

theorem openedDeclaration_conforms (ts : List Token) :
    Conforms declarationLanguage Y ts ((openedDeclaration n ts).map Read.rest) := by
  rw [limitless_declaration]
  cases ts with
  | nil => exact .led_refused rfl fun _ hu => hu
  | cons t rest =>
    rw [openedDeclaration]
    cases ht : t.shape with
    | keyword k =>
      cases k with
      | program | author | date => exact .led ht (.map (metadata_conforms rest) fun _ => rfl)
      | const => exact .led ht (.map (constant_conforms rest) fun _ => rfl)
      | _ => exact .led_refused ht fun _ hu => hu
    | _ => exact .led_refused ht fun _ hu => hu

theorem startsIn_declaration {s : Shape} (hnone : ∀ u, u ∉ declarationTail s) :
    StartsIn (· ≠ s) declarationLanguage := by
  rw [limitless_declaration]
  exact .led_ne hnone

/-- The recursion is on how many tokens are left. -/
theorem declarations_conforms (hY : StartsIn (· = .keyword .dynamic) Y) (ts : List Token)
    (log : Array Milestone) :
    Conforms declarationLanguage∗ Y ts (outcome Read.rest (declarations n ts log)) := by
  cases ts with
  | nil =>
    rw [declarations]
    exact .none_left (startsIn_declaration (s := .endOfText) fun _ hu => hu) (not_not_intro rfl)
  | cons t rest =>
    rw [declarations]
    split
    · next ht =>
      exact .none_left (startsIn_declaration (s := .keyword .dynamic) fun _ hu => hu)
        (not_not_intro ht)
    · next ht =>
      refine .one_more ?_ hY ht
      refine .bindTracked (.reached (.tracked (openedDeclaration_conforms (t :: rest)))) ?_
      intro first log _
      have hshorter : first.rest.length < (t :: rest).length := first.shorter
      exact (declarations_conforms hY first.rest log).doneTracked fun _ => rfl
termination_by ts.length
decreasing_by exact hshorter

theorem staticDivision_conforms (hY : StartsIn (· = .keyword .dynamic) Y) (ts : List Token)
    (log : Array Milestone) :
    Conforms (limitless fun _ => DerivesStatic) Y ts
      (outcome Read.rest (staticDivision n ts log)) := by
  rw [limitless_static]
  cases ts with
  | nil => exact .left_out (.opened _ _) nofun
  | cons t rest =>
    rw [staticDivision]
    split
    · next ht =>
      refine .present (.behind ht (.bindTracked (.tracked (.keyword rest)) fun word log _ => ?_)) hY
        (by simp [ahead, ht])
      have hdecls := declarations_conforms (n := n) hY word.rest log
      exact .doneTracked (.nextOptionalTracked hdecls) fun _ => rfl
    · next ht => exact .left_out (.opened _ _) ht

end declarations

/-! ## Whole texts -/

section texts

/-- The end of the text is not among the tokens. The recursion is on how many are left. -/
theorem allStatements_conforms : (ts : List Token) → (∀ t ∈ ts, t.shape ≠ .endOfText) →
    (log : Array Milestone) → Conforms (limitless DerivesStatement)∗ (token .endOfText) ts
      (outcome (fun _ => []) (allStatements n ts log))
  | [], _, log => by
    rw [allStatements]
    exact .none_left (startsIn_statement (s := .endOfText) fun _ hu => hu) (not_not_intro rfl)
  | t :: rest, hts, log => by
    have hstop : StartsIn (· = .endOfText) (token .endOfText) := .token rfl
    have hfollows : StartsIn (· ≠ .keyword .elseWord)
        ((limitless DerivesStatement)∗ * token .endOfText) :=
      startsIn_statements (.token (by decide))
    rw [allStatements]
    refine .one_more ?_ hstop (hts t List.mem_cons_self)
    refine .bindTracked (statement_fits n hfollows (t :: rest) log) fun first log hsuffix => ?_
    have hshorter : first.rest.length < (t :: rest).length := first.shorter
    have hmore := allStatements_conforms first.rest (fun t ht => hts t (hsuffix.subset ht)) log
    exact hmore.doneTracked fun _ => rfl
termination_by ts => ts.length
decreasing_by exact hshorter

theorem program_conforms (ts : List Token) (hts : ∀ t ∈ ts, t.shape ≠ .endOfText)
    (log : Array Milestone) :
    Conforms ((limitless fun _ => DerivesStatic) * (token (.keyword .dynamic) *
        (token (.keyword .division) * (limitless DerivesStatement)∗))) (token .endOfText) ts
      (outcome (fun _ => []) (program n ts log)) := by
  have hdynamic (M : Language Shape) :
      StartsIn (· = .keyword .dynamic) (token (.keyword .dynamic) * M * token .endOfText) :=
    .mul (.opened _ M) _
  refine .bindTracked (staticDivision_conforms (hdynamic _) ts log) fun decls _ hdecls => ?_
  refine .bindTracked (.tracked (.next (.keyword decls.rest))) fun dynamicWord _ hword => ?_
  refine .bindTracked (.tracked (.next (.keyword dynamicWord.rest))) ?_
  intro division log hdivision
  have hrest : ∀ t ∈ division.rest, t.shape ≠ .endOfText := fun t ht =>
    hts t (((hdivision.trans hword).trans hdecls).subset ht)
  exact (allStatements_conforms division.rest hrest log).doneTracked fun _ => rfl

theorem loneExpression_conforms (ts : List Token) (hts : ∀ t ∈ ts, t.shape ≠ .endOfText) :
    Conforms Category.expression.language (token .endOfText) ts
      ((loneExpression n ts).map fun _ => []) := by
  have hstop : StartsIn (· = .endOfText) (token .endOfText) := .token rfl
  have hfollows : StartsIn (Weaker 1) (1 * token .endOfText) := by
    rw [one_mul]
    exact .token (by decide)
  rw [← mul_one Category.expression.language]
  refine .bind (expression_fits n hfollows ts) fun e hsuffix => ?_
  obtain ⟨value, rest, hshorter⟩ := e
  cases rest with
  | nil => exact .nothing
  | cons t rest => exact .surplus hstop (hts t (hsuffix.subset List.mem_cons_self))

/-- The line is that of the first token with which the tokens no longer begin any word of the
language. -/
def Blames (L : Language Shape) (ts : List Token) (line : Nat) : Prop :=
  ∃ j t, ts[j]? = some t ∧ line = t.line ∧ Viable L ((ts.take j).map Token.shape) ∧
    ¬ Viable L ((ts.take (j + 1)).map Token.shape)

/-- A rejection that is not about a limit becomes an error at the first offending token. -/
theorem Conforms.blames {body : List Token} {stop : Token} {r : Rejection}
    (h : Conforms L (Grammar.token .endOfText) body (.error r)) (hstop : stop.shape = .endOfText)
    (hlimit : ¬ r.cause.isLimit) :
    Blames (L * Grammar.token .endOfText) (body ++ [stop]) (r.toError stop).line := by
  cases h with
  | limit h => exact absurd h hlimit
  | @refused r vs hts hviable hbarred =>
    obtain ⟨t, more, hnext, ht, hahead⟩ : ∃ t more, r.rest ++ [stop] = t :: more ∧
        r.rest.headD stop = t ∧ t.shape = ahead r.rest := by
      cases r.rest with
      | nil => exact ⟨stop, [], rfl, rfl, hstop⟩
      | cons t rest => exact ⟨t, rest ++ [stop], rfl, rfl, rfl⟩
    have htokens : body ++ [stop] = vs ++ t :: more := by rw [hts, List.append_assoc, hnext]
    have htake : (vs ++ t :: more).take (vs.length + 1) = vs ++ [t] := by
      simp [List.take_append, List.take_of_length_le]
    refine ⟨vs.length, t, ?_, ?_, ?_, ?_⟩
    · simp [htokens]
    · obtain ⟨cause, rest⟩ := r
      cases cause with
      | tooManyParameters line => exact absurd rfl hlimit
      | _ => exact congrArg Token.line ht
    · obtain ⟨w, hw⟩ := hviable
      refine ⟨w ++ [.endOfText], ?_⟩
      rw [htokens, List.take_left, ← List.append_assoc]
      exact Language.append_mem_mul hw rfl
    · rw [htokens, htake, List.map_append, List.map_singleton, hahead]
      exact hbarred

end texts

end DivisionScript.Grammar

namespace DivisionScript

open Grammar

/-- A syntax error of a list that ends once, of a program as of a lone expression, is reported on
the line of the first token with which the list no longer begins any sentence of the grammar,
unless the error is that a limit is exceeded. -/
theorem errors_blame_first_offending_token {ts : List Token} (h : EndsOnce ts) :
    (∀ e, (Program.ofTokens ts).1 = .error e → ¬ e.cause.isLimit →
        Blames (limitless DerivesProgram) ts e.line) ∧
      ∀ e, Expr.ofTokens ts = .error e → ¬ e.cause.isLimit → Blames loneLanguage ts e.line := by
  obtain ⟨body, stop, rfl, hstop, hbody⟩ := h
  constructor
  · intro e he hlimit
    have hread := program_conforms (n := maxNesting) body hbody #[]
    rw [Program.ofTokens, terminated_eq_ok hstop hbody] at he
    dsimp only at he
    cases hprogram : program maxNesting body #[] with
    | ok p trail => simp [hprogram] at he
    | error r trail =>
      rw [hprogram] at he hread
      obtain rfl := Except.error.inj he
      have hblames := hread.blames hstop hlimit
      rw [limitless_program]
      simpa only [mul_assoc] using hblames
  · intro e he hlimit
    have hread := loneExpression_conforms (n := maxNesting) body hbody
    rw [Expr.ofTokens, terminated_eq_ok hstop hbody] at he
    dsimp only at he
    cases hexpr : loneExpression maxNesting body with
    | ok a =>
      rw [hexpr] at he
      cases he
    | error r =>
      rw [hexpr] at he hread
      obtain rfl := Except.error.inj he
      rw [loneLanguage_eq]
      exact hread.blames hstop hlimit

/-- A statement cannot stand for the second word of `dynamic division`, nor a semicolon for an
operand. -/
theorem print_offends_after_dynamic :
    Blames (limitless DerivesProgram)
        [⟨.keyword .dynamic, "dynamic", 1⟩, ⟨.keyword .print, "print", 2⟩, ⟨.endOfText, "", 3⟩] 2 ∧
      Blames loneLanguage
        [⟨.symbol .minus, "-", 1⟩, ⟨.symbol .semicolon, ";", 2⟩, ⟨.endOfText, "", 3⟩] 2 := by
  have hends {t u : Token} (ht : t.shape ≠ .endOfText) (hu : u.shape ≠ .endOfText) :
      EndsOnce [t, u, ⟨.endOfText, "", 3⟩] :=
    ⟨[t, u], _, rfl, rfl, by simp [ht, hu]⟩
  constructor
  · exact (errors_blame_first_offending_token (hends (by decide) (by decide))).1
      ⟨.expected "'division' after 'dynamic'", "print", 2⟩ rfl nofun
  · exact (errors_blame_first_offending_token (hends (by decide) (by decide))).2
      ⟨.expected "expression", ";", 2⟩ rfl nofun

end DivisionScript
