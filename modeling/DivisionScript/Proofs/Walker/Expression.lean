import DivisionScript.Proofs.Grammar.Expression
import DivisionScript.Proofs.Walker.Follows

/-!
# Walker — Expression

The walks of expressions follow the rules of the grammar. From any place before the first end each
of them does what the rule says that may open as many levels as are left. The induction is on the
levels that are left; at a repetition it is on the tokens ahead.
-/

namespace DivisionScript

open Grammar

namespace Walker

section follows

variable {stream : TokenStream} {depth : Nat}

section repetition

variable {again : Rules → Expr → Attempt Expr} {operandWalk : Rules → Attempt Expr}
  {operand : Rule Expr} {signs : List (TokenKind.Shape × (Expr → Expr → Expr))}
  {operator : TokenKind.Shape → Option (Expr → Expr → Expr)}
  (hagain : ∀ rules left, again (rules.unfold stream.tokens) left =
    chainFrom stream.tokens (again rules) (operandWalk rules) signs left)
  (hsigns : ∀ shape, signs.lookup shape = operator shape)
  (hoperand : ∀ ts, Follows stream depth ts operandWalk (tracked (operand ts)))
include hagain hsigns hoperand

/-- The induction is on a bound of the tokens ahead, since an operand takes any number of them. -/
theorem follows_chainFrom (left : Expr) {ts : List Token} {size : Nat} (hsize : ts.length ≤ size) :
    Follows stream depth ts (again · left)
      (tracked (Grammar.chainFrom operand operator left ts)) := by
  induction size generalizing left ts with
  | zero =>
    rw [List.eq_nil_of_length_eq_zero (Nat.le_zero.mp hsize), Grammar.chainFrom]
    refine .unfold (hagain · left) ?_
    exact .acceptFirst (fun _ _ _ h => by cases h) fun _ => .done rfl
  | succ size ih =>
    refine .unfold (hagain · left) ?_
    refine .acceptFirst (fun t rest combine hts hsign => ?_) fun hdeclines => ?_
    · subst hts
      rw [hsigns] at hsign
      rw [Grammar.chainFrom, hsign]
      refine .read (hoperand rest) fun right _ _ => ?_
      have hright : right.rest.length ≤ size :=
        Nat.le_trans (Nat.le_of_lt right.shorter) (Nat.le_of_succ_le_succ hsize)
      exact .readMap (ih _ hright) fun _ => ⟨rfl, rfl⟩
    · have hnone : Grammar.chainFrom operand operator left ts = .ok (.nothing left ts) := by
        cases ts with
        | nil => rw [Grammar.chainFrom]
        | cons t rest =>
          have ht : operator t.shape = none := (hsigns t.shape).symm.trans hdeclines
          rw [Grammar.chainFrom, ht]
      rw [hnone]
      exact .done rfl

theorem follows_chain (ts : List Token) :
    Follows stream depth ts (fun rules => do again rules (← operandWalk rules))
      (tracked (chain operand operator ts)) :=
  .read (hoperand ts) fun _ _ _ =>
    .nextOptional (follows_chainFrom hagain hsigns hoperand _ (Nat.le_refl _))

end repetition

theorem declines_of_nextIs {α : Type} {wanted : TokenKind.Shape → Option α}
    {shape : TokenKind.Shape} {ts : List Token} (h : nextIs shape ts = false)
    (hwanted : ∀ other, other ≠ shape → wanted other = none) : Declines wanted ts := by
  cases ts with
  | nil => trivial
  | cons t rest => exact hwanted _ (nextIs_cons_false.mp h)

section layers

variable {E X O : Rule Expr}
  (hexpression : ∀ ts, Follows stream depth ts Rules.expression (tracked (E ts)))
  (hexponent : ∀ ts,
    Follows stream depth ts (fun rules => nested stream.tokens rules.power) (tracked (X ts)))
  (hoperand : ∀ ts,
    Follows stream depth ts (fun rules => nested stream.tokens rules.unary) (tracked (O ts)))
include hexpression

theorem follows_primary (ts : List Token) :
    Follows stream depth ts (primary stream.tokens) (tracked (Grammar.primary E ts)) := by
  refine .peek ?_
  split
  · next x hkind =>
    obtain ⟨t, rest, rfl, ht⟩ := TokenStream.exists_ahead hkind (by simp)
    rw [Grammar.primary, ht]
    exact .advance (.done rfl)
  · next text hkind =>
    obtain ⟨t, rest, rfl, ht⟩ := TokenStream.exists_ahead hkind (by simp)
    rw [Grammar.primary, ht]
    exact .advance (.done rfl)
  next hnumber hstring =>
  refine .accept (fun t rest hsuffix hts ht => ?_) fun hname => ?_
  · subst hts
    rw [Grammar.primary, kind_eq_identifier.mpr ht]
    exact .move (fun _ => moves_previous hsuffix) (List.suffix_refl _) (.done rfl)
  refine .accept (fun t rest _ hts ht => ?_) fun hparen => ?_
  · subst hts
    rw [Grammar.primary, kind_eq_symbol.mpr ht]
    refine .read (hexpression rest) fun inner _ _ => ?_
    exact .read (.next (follows_consume _ _)) fun _ _ _ => .done rfl
  have hreject : Grammar.primary E ts = reject (.expected "expression") ts := by
    cases ts with
    | nil => rfl
    | cons t rest =>
      rw [Grammar.primary]
      split
      · next x ht => exact absurd ht (hnumber x)
      · next text ht => exact absurd ht (hstring text)
      · next ht => simp [nextIs, kind_eq_identifier.mp ht] at hname
      · next ht => simp [nextIs, kind_eq_symbol.mp ht] at hparen
      · rfl
  rw [hreject]
  exact follows_refuse rfl

include hoperand

theorem follows_unary (ts : List Token) :
    Follows stream depth ts (unary stream.tokens) (tracked (Grammar.unary E O ts)) := by
  refine .accept (fun t rest _ hts ht => ?_) fun hno => ?_
  · subst hts
    rw [Grammar.unary, if_pos ht]
    exact .read (hoperand rest) fun _ _ _ => .done rfl
  · have hprimary : Grammar.unary E O ts = Grammar.primary E ts := by
      cases ts with
      | nil => rfl
      | cons t rest => exact if_neg (nextIs_cons_false.mp hno)
    rw [hprimary]
    exact follows_primary hexpression ts

include hexponent

theorem follows_power (ts : List Token) :
    Follows stream depth ts (power stream.tokens) (tracked (Grammar.power E X O ts)) := by
  refine .read (follows_unary hexpression hoperand ts) fun base _ _ => ?_
  obtain ⟨e, ts, hshorter⟩ := base
  refine .accept (fun t rest _ hts ht => ?_) fun hno => ?_
  · subst hts
    rw [accept?_cons (b := ()) (by rw [ht]; rfl)]
    exact .read (.next (r := ⟨(), rest, _⟩) (hexponent rest)) fun _ _ _ => .done rfl
  · have hcaret (other : TokenKind.Shape) (hother : other ≠ .symbol .caret) :
        caret other = none := by
      rw [caret]
      exact hother
    rw [accept?_eq_none (declines_of_nextIs hno hcaret)]
    exact .done rfl

theorem follows_term (ts : List Token) :
    Follows stream depth ts (term stream.tokens) (tracked (Grammar.term E X O ts)) :=
  follows_chain (fun _ _ => rfl) lookup_termSigns
    (follows_power hexpression hexponent hoperand) ts

theorem follows_sum (ts : List Token) :
    Follows stream depth ts (sum stream.tokens) (tracked (Grammar.sum E X O ts)) :=
  follows_chain (fun _ _ => rfl) lookup_sumSigns
    (follows_term hexpression hexponent hoperand) ts

theorem follows_comparison (ts : List Token) :
    Follows stream depth ts (comparison stream.tokens) (tracked (Grammar.comparison E X O ts)) := by
  refine .read (follows_sum hexpression hexponent hoperand ts) fun left _ _ => .peek ?_
  obtain ⟨e, ts, hshorter⟩ := left
  rcases declines_or_wants comparisonOperator ts with hno | ⟨t, rest, op, rfl, ht⟩
  · rw [accept?_eq_none hno]
    have hnone : comparisonOperator (ts.headD stream.stop).shape = none := by
      cases ts with
      | nil => rw [List.headD_nil, stream.shape_stop]; rfl
      | cons t rest => exact hno
    rw [hnone]
    exact .done rfl
  · rw [List.headD_cons, ht, accept?_cons ht]
    have hright := follows_sum hexpression hexponent hoperand rest
    exact .advance (.read (.next (r := ⟨op, rest, _⟩) hright) fun _ _ _ => .done rfl)

theorem follows_conjunction (ts : List Token) :
    Follows stream depth ts (conjunction stream.tokens)
      (tracked (Grammar.conjunction E X O ts)) :=
  follows_chain (fun _ _ => rfl) lookup_conjunctionSigns
    (follows_comparison hexpression hexponent hoperand) ts

theorem follows_disjunction (ts : List Token) :
    Follows stream depth ts (disjunction stream.tokens)
      (tracked (Grammar.disjunction E X O ts)) :=
  follows_chain (fun _ _ => rfl) lookup_disjunctionSigns
    (follows_conjunction hexpression hexponent hoperand) ts

end layers

/-- The rules that can contain themselves follow their rules of the grammar, with so many levels
left. -/
structure FollowsLevels (stream : TokenStream) (depth levels : Nat) : Prop where
  expression (ts : List Token) :
    Follows stream depth ts Rules.expression (tracked (Grammar.expression levels ts))
  exponent (ts : List Token) :
    Follows stream depth ts (fun rules => nested stream.tokens rules.power)
      (tracked (Grammar.exponent levels ts))
  operand (ts : List Token) :
    Follows stream depth ts (fun rules => nested stream.tokens rules.unary)
      (tracked (Grammar.operand levels ts))

/-- The levels that are left and the rules that are open make up the limit. -/
theorem followsLevels {levels : Nat} (hlevels : maxNesting - depth = levels) :
    FollowsLevels stream depth levels := by
  induction levels generalizing depth with
  | zero =>
    have hfull : maxNesting ≤ depth := Nat.le_of_sub_eq_zero hlevels
    refine ⟨fun ts => .unfold (fun _ => rfl) ?_, fun ts => ?_, fun ts => ?_⟩
    · exact follows_nested_full hfull
    · exact follows_nested_full hfull
    · exact follows_nested_full hfull
  | succ levels ih =>
    have hdepth : depth < maxNesting := by omega
    have hmore : maxNesting - (depth + 1) = levels := by omega
    obtain ⟨hexpression, hexponent, hoperand⟩ := ih hmore
    refine ⟨fun ts => .unfold (fun _ => rfl) ?_, fun ts => .nested hdepth ?_,
      fun ts => .nested hdepth ?_⟩
    · exact .nested hdepth (follows_disjunction hexpression hexponent hoperand ts)
    · exact .unfold (fun _ => rfl) (follows_power hexpression hexponent hoperand ts)
    · exact .unfold (fun _ => rfl) (follows_unary hexpression hoperand ts)

theorem follows_expression (ts : List Token) :
    Follows stream depth ts Rules.expression
      (tracked (Grammar.expression (maxNesting - depth) ts)) :=
  (followsLevels rfl).expression ts

end follows

end Walker

end DivisionScript
