import DivisionScript.Proofs.Grammar.Conforms

/-!
# Grammar — Expression, conforming

The rules of expressions go along with the languages of their categories, where no operator comes
after that binds as tightly as the category. The induction is on the number of levels, as for
soundness.
-/

namespace DivisionScript.Grammar

open TokenKind Computability

variable {α β : Type} {L M Y : Language Shape} {F : Shape → Prop}

/-- The shape binds less tightly than `k`. -/
abbrev Weaker (k : Nat) (s : Shape) : Prop :=
  binding s < k

/-- A rule goes along with a language where what comes after begins with one of some shapes. -/
def Fits {bound : List Token → Nat}
    (rule : (ts : List Token) → Except Rejection (Read α (bound ts))) (L : Language Shape)
    (F : Shape → Prop) : Prop :=
  ∀ ⦃Y⦄, StartsIn F Y → ∀ ts, Conforms L Y ts ((rule ts).map Read.rest)

/-! ## Operators -/

section operators

variable {wanted : Shape → Option β} {k : Nat} {ts : List Token}

theorem startsIn_wants (hbinding : ∀ {s b}, wanted s = some b → binding s = k) :
    StartsIn (Weaker (k + 1)) (wants wanted) :=
  .wants fun hs => Nat.lt_succ_of_le (Nat.le_of_eq (hbinding hs))

theorem isSome_ahead_of_declines (hend : wanted .endOfText = none) (h : Declines wanted ts) :
    ¬ (wanted (ahead ts)).isSome := by
  cases ts with
  | nil => simp [ahead, hend]
  | cons t us => simp [ahead, show wanted t.shape = none from h]

end operators

section accept

variable {wanted : Shape → Option β} {k bound : Nat} {γ : Type}

theorem startsIn_accept (hbinding : ∀ {s b}, wanted s = some b → binding s = k)
    (hY : StartsIn (Weaker k) Y) :
    StartsIn (Weaker (k + 1)) ((1 + wants wanted * M) * Y) :=
  .optional_mul (.mul (startsIn_wants hbinding) M) (hY.mono fun _ => Nat.lt_succ_of_lt)

theorem not_weaker {s : Shape} (h : binding s = k) : ¬ Weaker k s :=
  Nat.not_lt.mpr (Nat.le_of_eq h.symm)

/-- An operator and what it wants are read where the operator is ahead, and left out elsewhere. -/
theorem accept_conforms {left : Read α bound} {x : Except Rejection γ} {p : γ → List Token}
    (hstops : ∀ {s b}, wanted s = some b → ¬ F s) (hend : wanted .endOfText = none)
    (hY : StartsIn F Y) (hnone : left.accept? wanted = none → x.map p = .ok left.rest)
    (hsome : ∀ b us h, left.accept? wanted = some ⟨b, us, h⟩ → Conforms M Y us (x.map p)) :
    Conforms (1 + wants wanted * M) Y left.rest (x.map p) := by
  rcases declines_or_wants wanted left.rest with hno | ⟨t, us, b, hrest, ht⟩
  · rw [hnone (accept?_eq_none hno)]
    exact .left_out (F := fun s => (wanted s).isSome) (.mul (.wants fun hs => by simp [hs]) M)
      (isSome_ahead_of_declines hend hno)
  · obtain ⟨value, rest, hshorter⟩ := left
    subst hrest
    exact .present ((Conforms.wanted ht).seq (hsome b us _ (accept?_cons ht))) hY (hstops ht)

end accept

section chain

variable {operand : Rule Expr} {operator : Shape → Option (Expr → Expr → Expr)} {k : Nat}

theorem startsIn_chain (hbinding : ∀ {s f}, operator s = some f → binding s = k)
    (hY : StartsIn (Weaker k) Y) : StartsIn (Weaker (k + 1)) ((wants operator * L)∗ * Y) :=
  .kstar_mul (.mul (startsIn_wants hbinding) L) (hY.mono fun _ => Nat.lt_succ_of_lt)

/-- The recursion is on how many tokens are left. -/
theorem chainFrom_conforms (hoperand : Fits operand L (Weaker (k + 1)))
    (hbinding : ∀ {s f}, operator s = some f → binding s = k) (hend : operator .endOfText = none)
    (hY : StartsIn (Weaker k) Y) (left : Expr) (ts : List Token) :
    Conforms (wants operator * L)∗ Y ts ((chainFrom operand operator left ts).map Read.rest) := by
  have hdone {ts : List Token} (h : Declines operator ts) :
      Conforms (wants operator * L)∗ Y ts (.ok ts) :=
    .none_left (F := fun s => (operator s).isSome) (.mul (.wants fun hs => by simp [hs]) L)
      (isSome_ahead_of_declines hend h)
  cases ts with
  | nil =>
    rw [chainFrom]
    exact hdone trivial
  | cons t rest =>
    rw [chainFrom]
    cases ht : operator t.shape with
    | none => exact hdone ht
    | some combine =>
      refine .one_more ?_ hY (not_weaker (hbinding ht))
      rw [mul_assoc]
      refine (Conforms.wanted ht).seq (.bind (hoperand (startsIn_chain hbinding hY) rest)
        fun right _ => ?_)
      have hshorter : right.rest.length < (t :: rest).length := Nat.lt_succ_of_lt right.shorter
      have hmore := chainFrom_conforms hoperand hbinding hend hY (combine left right.value)
        right.rest
      exact hmore.done fun _ => rfl
termination_by ts.length
decreasing_by exact hshorter

theorem chain_fits (hoperand : Fits operand L (Weaker (k + 1)))
    (hbinding : ∀ {s f}, operator s = some f → binding s = k) (hend : operator .endOfText = none) :
    Fits (chain operand operator) (L * (wants operator * L)∗) (Weaker k) := by
  intro Y hY ts
  exact .bind (hoperand (startsIn_chain hbinding hY) ts) fun first _ =>
    .nextOptional (chainFrom_conforms hoperand hbinding hend hY first.value first.rest)

end chain

/-! ## The rules -/

namespace Category

instance : Nonvoid primary.language :=
  ⟨_, mem_language (.identifier (n := 0) (t := ⟨.identifier, "", 0⟩) rfl)⟩

instance : Nonvoid (Grammar.led primaryTail) :=
  language_primary ▸ inferInstance

section rules

variable {expr exponent operand : Rule Expr}

theorem primary_fits (hexpr : Fits expr expression.language (Weaker 1)) :
    Fits (Grammar.primary expr) primary.language (Weaker 7) := by
  intro Y hY ts
  rw [language_primary]
  cases ts with
  | nil => exact .led_refused rfl fun _ hu => hu
  | cons t rest =>
    rw [Grammar.primary]
    cases hkind : t.kind with
    | number | string | identifier => exact .led (congrArg TokenKind.shape hkind) .nothing
    | keyword | endOfText =>
      exact .led_refused (congrArg TokenKind.shape hkind) fun _ hu => hu
    | symbol s =>
      cases s with
      | leftParen =>
        have hfollows : StartsIn (Weaker 1) (token (.symbol .rightParen) * Y) :=
          .mul (.token (by decide)) Y
        refine .led (congrArg TokenKind.shape hkind) ?_
        exact .bind (hexpr hfollows rest) fun inner _ => .done (.next (.symbol inner.rest))
          fun _ => rfl
      | _ => exact .led_refused (congrArg TokenKind.shape hkind) fun _ hu => hu

theorem startsIn_primary : StartsIn (· ≠ .symbol .minus) primary.language := by
  rw [language_primary]
  exact .led_ne fun _ hu => hu

theorem unary_fits (hexpr : Fits expr expression.language (Weaker 1))
    (hoperand : Fits operand Category.operand.language (Weaker 7)) :
    Fits (Grammar.unary expr operand) unary.language (Weaker 7) := by
  intro Y hY ts
  have hprimary (hahead : ahead ts ≠ .symbol .minus) :
      Conforms unary.language Y ts ((Grammar.primary expr ts).map Read.rest) := by
    rw [language_unary]
    exact (primary_fits hexpr hY ts).or_else (.mul (.opened _ _) Y) hahead
  cases ts with
  | nil => exact hprimary nofun
  | cons t rest =>
    rw [Grammar.unary]
    split
    · next ht =>
      have hnegated := (Conforms.behind ht (hoperand hY rest)).or_else (startsIn_primary.mul Y)
        (not_not_intro ht)
      rw [language_unary, add_comm]
      exact hnegated.done fun _ => rfl
    · next ht => exact hprimary ht

theorem power_fits (hexpr : Fits expr expression.language (Weaker 1))
    (hexponent : Fits exponent Category.exponent.language (Weaker 6))
    (hoperand : Fits operand Category.operand.language (Weaker 7)) :
    Fits (Grammar.power expr exponent operand) power.language (Weaker 6) := by
  intro Y hY ts
  have hbinding {s : Shape} {b : Unit} (hs : caret s = some b) : binding s = 6 := by
    rw [caret_eq_some.mp hs]
    rfl
  have hstops {s : Shape} {b : Unit} (hs : caret s = some b) := not_weaker (hbinding hs)
  rw [language_power]
  refine .bind (unary_fits hexpr hoperand (startsIn_accept hbinding hY) ts) fun base _ => ?_
  refine accept_conforms hstops rfl hY (fun hno => ?_) fun b us h hyes => ?_
  · rw [hno]
    rfl
  · rw [hyes]
    refine .done (p := Read.rest) ?_ fun _ => rfl
    exact (hexponent hY us).map fun _ => rfl

theorem comparison_fits
    (hsum : Fits (Grammar.sum expr exponent operand) sum.language (Weaker 4)) :
    Fits (Grammar.comparison expr exponent operand) comparison.language (Weaker 3) := by
  intro Y hY ts
  have hbinding {s : Shape} {op : Comparison} (hs : comparisonOperator s = some op) :
      binding s = 3 := by
    rw [comparisonOperator_eq_some.mp hs]
    exact Comparison.binding_symbol op
  have hstops {s : Shape} {op : Comparison} (hs : comparisonOperator s = some op) :=
    not_weaker (hbinding hs)
  rw [language_comparison]
  refine .bind (hsum (startsIn_accept hbinding hY) ts) fun left _ => ?_
  refine accept_conforms hstops rfl hY (fun hno => ?_) fun op us h hyes => ?_
  · rw [hno]
    rfl
  · rw [hyes]
    refine .done (p := Read.rest) ?_ fun _ => rfl
    exact (hsum (hY.mono fun _ => Nat.lt_succ_of_lt) us).map fun _ => rfl

end rules

variable {n : Nat}

/-- Below the rules that open a level, every rule fits if those that open one fit. -/
theorem rule_fits_of_opening (hexpr : Fits (Grammar.expression n) expression.language (Weaker 1))
    (hexponent : Fits (Grammar.exponent n) exponent.language (Weaker 6))
    (hoperand : Fits (Grammar.operand n) operand.language (Weaker 7)) :
    ∀ c : Category, Fits (c.rule n) c.language (Weaker c.strength) := by
  have hunary := unary_fits hexpr hoperand
  have hpower : Fits (power.rule n) power.language (Weaker 6) :=
    power_fits hexpr hexponent hoperand
  have hterm : Fits (term.rule n) term.language (Weaker 5) := by
    rw [language_term]
    refine chain_fits hpower (fun hs => ?_) rfl
    obtain ⟨op, rfl, -⟩ := termOperator_eq_some.mp hs
    exact TermOp.binding_symbol op
  have hsum : Fits (sum.rule n) sum.language (Weaker 4) := by
    rw [language_sum]
    refine chain_fits hterm (fun hs => ?_) rfl
    obtain ⟨op, rfl, -⟩ := sumOperator_eq_some.mp hs
    exact SumOp.binding_symbol op
  have hcomparison : Fits (comparison.rule n) comparison.language (Weaker 3) :=
    comparison_fits hsum
  have hconjunction : Fits (conjunction.rule n) conjunction.language (Weaker 2) := by
    rw [language_conjunction]
    refine chain_fits hcomparison (fun hs => ?_) rfl
    rw [(conjunctionOperator_eq_some.mp hs).1]
    rfl
  have hdisjunction : Fits (disjunction.rule n) disjunction.language (Weaker 1) := by
    rw [language_disjunction]
    refine chain_fits hconjunction (fun hs => ?_) rfl
    rw [(disjunctionOperator_eq_some.mp hs).1]
    rfl
  intro c
  cases c with
  | expression => exact hexpr
  | disjunction => exact hdisjunction
  | conjunction => exact hconjunction
  | comparison => exact hcomparison
  | sum => exact hsum
  | term => exact hterm
  | power => exact hpower
  | exponent => exact hexponent
  | unary => exact hunary
  | operand => exact hoperand
  | primary => exact primary_fits hexpr

/-- A rule without a level left only says that the limit is exceeded. -/
theorem tooDeep_fits (L : Language Shape) (F : Shape → Prop) :
    Fits (fun ts => reject .tooDeep ts : Rule Expr) L F :=
  fun _ _ _ => .limit rfl

/-- Every rule goes along with the language of its category. -/
theorem rule_fits (n : Nat) : ∀ c : Category, Fits (c.rule n) c.language (Weaker c.strength) := by
  induction n with
  | zero =>
    exact rule_fits_of_opening (tooDeep_fits _ _) (tooDeep_fits _ _) (tooDeep_fits _ _)
  | succ n ih =>
    refine rule_fits_of_opening ?_ ?_ ?_
    · rw [language_expression]
      exact ih .disjunction
    · rw [language_exponent]
      exact ih .power
    · rw [language_operand]
      exact ih .unary

end Category

end DivisionScript.Grammar
