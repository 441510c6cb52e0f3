import DivisionScript.Proofs.Grammar.Reads

/-!
# Grammar — Expression, proved

The rules of expressions read exactly the phrases of the grammar. Soundness goes by the number of
levels. Completeness goes by the derivation of a phrase, and has to say what may follow it: no
operator that binds as tightly as the phrase itself.
-/

namespace DivisionScript.Grammar

/-- The rule of a category, with `n` levels left. -/
def Category.rule : Category → Nat → Rule Expr
  | .expression, n => Grammar.expression n
  | .disjunction, n =>
    Grammar.disjunction (Grammar.expression n) (Grammar.exponent n) (Grammar.operand n)
  | .conjunction, n =>
    Grammar.conjunction (Grammar.expression n) (Grammar.exponent n) (Grammar.operand n)
  | .comparison, n =>
    Grammar.comparison (Grammar.expression n) (Grammar.exponent n) (Grammar.operand n)
  | .sum, n => Grammar.sum (Grammar.expression n) (Grammar.exponent n) (Grammar.operand n)
  | .term, n => Grammar.term (Grammar.expression n) (Grammar.exponent n) (Grammar.operand n)
  | .power, n => Grammar.power (Grammar.expression n) (Grammar.exponent n) (Grammar.operand n)
  | .exponent, n => Grammar.exponent n
  | .unary, n => Grammar.unary (Grammar.expression n) (Grammar.operand n)
  | .operand, n => Grammar.operand n
  | .primary, n => Grammar.primary (Grammar.expression n)

/-! ## The operators -/

/-- How tightly an operator binds; zero for every token that is none. -/
def binding : TokenKind.Shape → Nat
  | .keyword .or => 1
  | .keyword .and => 2
  | .symbol .equalEqual | .symbol .bangEqual | .symbol .less | .symbol .greater
  | .symbol .lessEqual | .symbol .greaterEqual => 3
  | .symbol .plus | .symbol .minus => 4
  | .symbol .star | .symbol .slash => 5
  | .symbol .caret => 6
  | _ => 0

/-- How tightly a phrase of the category holds together: it goes on at an operator that binds at
least as tightly. -/
def Category.strength : Category → Nat
  | .expression | .disjunction => 1
  | .conjunction => 2
  | .comparison => 3
  | .sum => 4
  | .term => 5
  | .power | .exponent => 6
  | .unary | .operand | .primary => 7

/-- No operator of strength `k` or more comes next. -/
def Ends (k : Nat) : List Token → Prop
  | [] => True
  | t :: _ => binding t.shape < k

/-- Where no operator of strength `k` comes next, a rule that wants only such operators stops. -/
theorem Ends.declines {β : Type} {wanted : TokenKind.Shape → Option β} {k : Nat}
    {ts : List Token} (h : Ends k ts) (hk : ∀ {s b}, wanted s = some b → binding s = k) :
    Declines wanted ts := by
  cases ts with
  | nil => trivial
  | cons t us =>
    show wanted t.shape = none
    cases hw : wanted t.shape with
    | none => rfl
    | some b => exact absurd h (Nat.not_lt.mpr (Nat.le_of_eq (hk hw).symm))

theorem Ends.mono {k l : Nat} {ts : List Token} (h : Ends k ts) (hkl : k ≤ l) : Ends l ts := by
  cases ts with
  | nil => trivial
  | cons t us => exact Nat.lt_of_lt_of_le h hkl

theorem binding_lt_seven (s : TokenKind.Shape) : binding s < 7 := by
  cases s with
  | symbol s => cases s <;> decide
  | keyword k => cases k <;> decide
  | _ => decide

theorem ends_seven (ts : List Token) : Ends 7 ts := by
  cases ts with
  | nil => trivial
  | cons t us => exact binding_lt_seven t.shape

theorem disjunctionOperator_eq_some {s : TokenKind.Shape} {f : Expr → Expr → Expr} :
    disjunctionOperator s = some f ↔ s = .keyword .or ∧ f = .disjunction := by
  cases s with
  | keyword k => cases k <;> simp [disjunctionOperator, eq_comm]
  | _ => simp [disjunctionOperator]

theorem conjunctionOperator_eq_some {s : TokenKind.Shape} {f : Expr → Expr → Expr} :
    conjunctionOperator s = some f ↔ s = .keyword .and ∧ f = .conjunction := by
  cases s with
  | keyword k => cases k <;> simp [conjunctionOperator, eq_comm]
  | _ => simp [conjunctionOperator]

theorem comparisonOperator_eq_some {s : TokenKind.Shape} {op : Comparison} :
    comparisonOperator s = some op ↔ s = .symbol op.symbol := by
  cases s with
  | symbol s => cases s <;> cases op <;> simp [comparisonOperator, Comparison.symbol]
  | _ => simp [comparisonOperator]

theorem sumOperator_eq_some {s : TokenKind.Shape} {f : Expr → Expr → Expr} :
    sumOperator s = some f ↔ ∃ op : SumOp, s = .symbol op.symbol ∧ f = (.sum · op ·) := by
  constructor
  · intro h
    cases s with
    | symbol s =>
      cases s <;> simp only [sumOperator, Option.some.injEq, reduceCtorEq] at h
      · exact ⟨.sub, rfl, h.symm⟩
      · exact ⟨.add, rfl, h.symm⟩
    | _ => simp [sumOperator] at h
  · intro h
    rcases h with ⟨op, rfl, rfl⟩
    cases op <;> rfl

theorem termOperator_eq_some {s : TokenKind.Shape} {f : Expr → Expr → Expr} :
    termOperator s = some f ↔ ∃ op : TermOp, s = .symbol op.symbol ∧ f = (.term · op ·) := by
  constructor
  · intro h
    cases s with
    | symbol s =>
      cases s <;> simp only [termOperator, Option.some.injEq, reduceCtorEq] at h
      · exact ⟨.div, rfl, h.symm⟩
      · exact ⟨.mul, rfl, h.symm⟩
    | _ => simp [termOperator] at h
  · intro h
    rcases h with ⟨op, rfl, rfl⟩
    cases op <;> rfl

theorem caret_eq_some {s : TokenKind.Shape} {u : Unit} :
    caret s = some u ↔ s = .symbol .caret := by
  cases s with
  | symbol s => cases s <;> simp [caret]
  | _ => simp [caret]

theorem Comparison.binding_symbol (op : Comparison) : binding (.symbol op.symbol) = 3 := by
  cases op <;> rfl

theorem SumOp.binding_symbol (op : SumOp) : binding (.symbol op.symbol) = 4 := by
  cases op <;> rfl

theorem TermOp.binding_symbol (op : TermOp) : binding (.symbol op.symbol) = 5 := by
  cases op <;> rfl

/-! ## Chains -/

/-- Whatever a rule reads is a phrase. -/
def Sound {α : Type} (rule : Rule α) (phrase : List Token → α → Prop) : Prop :=
  ∀ ⦃ts a rest⦄, Reads (rule ts) a rest → ∃ us, us ++ rest = ts ∧ phrase us a

section chain

variable {operand : Rule Expr} {operator : TokenKind.Shape → Option (Expr → Expr → Expr)}
variable {left e : Expr} {t : Token} {ts us rest : List Token}

theorem reads_chainFrom_done (h : Declines operator ts) :
    Reads (chainFrom operand operator left ts) e rest ↔ left = e ∧ ts = rest := by
  cases ts with
  | nil =>
    rw [chainFrom]
    exact reads_ok
  | cons t us =>
    have ht : operator t.shape = none := h
    rw [chainFrom, ht]
    exact reads_ok

theorem reads_chainFrom_some {combine : Expr → Expr → Expr}
    (h : operator t.shape = some combine) :
    Reads (chainFrom operand operator left (t :: us)) e rest ↔
      ∃ right mid, Reads (operand us) right mid ∧
        Reads (chainFrom operand operator (combine left right) mid) e rest := by
  rw [chainFrom, h]
  simp [reads_bind, reads_ok]

theorem reads_chain :
    Reads (chain operand operator ts) e rest ↔
      ∃ first mid, Reads (operand ts) first mid ∧
        Reads (chainFrom operand operator first mid) e rest := by
  simp [chain, reads_bind, reads_nextOptional]

/-- A phrase that is extended to the left stays a phrase. The induction is on how many tokens are
left; `us` are those already read. -/
theorem chainFrom_sound {phrase tighter : List Token → Expr → Prop}
    (hop : Sound operand tighter)
    (hmore : ∀ {ts us l r t combine}, phrase ts l → operator t.shape = some combine →
      tighter us r → phrase (ts ++ t :: us) (combine l r)) :
    ∀ {size : Nat} {ts us : List Token} {left e : Expr} {rest : List Token},
      ts.length ≤ size → phrase us left → Reads (chainFrom operand operator left ts) e rest →
      ∃ vs, vs ++ rest = us ++ ts ∧ phrase vs e := by
  intro size
  induction size with
  | zero =>
    intro ts us left e rest hsize hleft h
    obtain rfl : ts = [] := List.length_eq_zero_iff.mp (Nat.le_zero.mp hsize)
    have hno : Declines operator [] := trivial
    obtain ⟨rfl, rfl⟩ := (reads_chainFrom_done hno).mp h
    exact ⟨us, rfl, hleft⟩
  | succ size ih =>
    intro ts us left e rest hsize hleft h
    rcases declines_or_wants operator ts with hno | ⟨t, ts, combine, rfl, hc⟩
    · obtain ⟨rfl, rfl⟩ := (reads_chainFrom_done hno).mp h
      exact ⟨us, rfl, hleft⟩
    · obtain ⟨right, mid, hright, hloop⟩ := (reads_chainFrom_some hc).mp h
      obtain ⟨vs, rfl, hvs⟩ := hop hright
      have hlen : mid.length ≤ size := by
        have := hright.shorter
        simp only [List.length_cons] at hsize
        omega
      obtain ⟨ws, hws, hphrase⟩ := ih hlen (hmore hleft hc hvs) hloop
      exact ⟨ws, by simp [hws], hphrase⟩

theorem chain_sound {phrase tighter : List Token → Expr → Prop} (hop : Sound operand tighter)
    (hone : ∀ {ts e}, tighter ts e → phrase ts e)
    (hmore : ∀ {ts us l r t combine}, phrase ts l → operator t.shape = some combine →
      tighter us r → phrase (ts ++ t :: us) (combine l r)) :
    Sound (chain operand operator) phrase := by
  intro ts e rest h
  obtain ⟨first, mid, hfirst, hloop⟩ := reads_chain.mp h
  obtain ⟨us, rfl, hus⟩ := hop hfirst
  exact chainFrom_sound hop hmore (Nat.le_refl _) (hone hus) hloop

/-- A chain that starts with `us` goes on from its tree `e`: what it makes of `e` and the tokens
that follow is what it makes of the whole. -/
def Resumes (operand : Rule Expr) (operator : TokenKind.Shape → Option (Expr → Expr → Expr))
    (k : Nat) (us : List Token) (e : Expr) : Prop :=
  ∀ ⦃rest e' rest'⦄, Ends (k + 1) rest → Reads (chainFrom operand operator e rest) e' rest' →
    Reads (chain operand operator (us ++ rest)) e' rest'

variable {k : Nat}

theorem Resumes.one (h : ∀ ⦃rest⦄, Ends (k + 1) rest → Reads (operand (us ++ rest)) e rest) :
    Resumes operand operator k us e := by
  intro rest e' rest' hrest hmore
  exact reads_chain.mpr ⟨e, rest, h hrest, hmore⟩

theorem Resumes.more {r : Expr} {combine : Expr → Expr → Expr}
    (hl : Resumes operand operator k ts left) (hc : operator t.shape = some combine)
    (hk : binding t.shape ≤ k)
    (hr : ∀ ⦃rest⦄, Ends (k + 1) rest → Reads (operand (us ++ rest)) r rest) :
    Resumes operand operator k (ts ++ t :: us) (combine left r) := by
  intro rest e' rest' hrest hmore
  have hloop : Reads (chainFrom operand operator left (t :: (us ++ rest))) e' rest' :=
    (reads_chainFrom_some hc).mpr ⟨r, rest, hr hrest, hmore⟩
  have hnext : Ends (k + 1) (t :: (us ++ rest)) := Nat.lt_succ_of_le hk
  rw [List.append_assoc]
  exact hl hnext hloop

/-- A chain ends where no operator of its own follows. -/
theorem Resumes.reads (h : Resumes operand operator k us e) (hrest : Ends (k + 1) rest)
    (hno : Declines operator rest) : Reads (chain operand operator (us ++ rest)) e rest :=
  h hrest ((reads_chainFrom_done hno).mpr ⟨rfl, rfl⟩)

end chain

/-! ## When the other rules succeed -/

section rules

variable {expr exponent operand : Rule Expr} {e : Expr} {t : Token} {ts us rest : List Token}

theorem kind_eq_identifier : t.kind = .identifier ↔ t.shape = .identifier := by
  rw [Token.shape]
  cases t.kind <;> simp [TokenKind.shape]

theorem kind_eq_symbol {s : Symbol} : t.kind = .symbol s ↔ t.shape = .symbol s := by
  rw [Token.shape]
  cases t.kind <;> simp [TokenKind.shape]

theorem reads_group (h : t.shape = .symbol .leftParen) :
    Reads (primary expr (t :: us)) e rest ↔
      ∃ inner closing, Reads (expr us) inner (closing :: rest) ∧
        closing.shape = .symbol .rightParen ∧ .group inner = e := by
  simp only [primary, kind_eq_symbol.mpr h, reads_bind, reads_next, reads_expectSymbol, reads_ok,
    value_behind, rest_behind, value_give, rest_give]
  grind

theorem reads_negate (h : t.shape = .symbol .minus) :
    Reads (unary expr operand (t :: us)) e rest ↔
      ∃ inner, Reads (operand us) inner rest ∧ .negate inner = e := by
  rw [unary, if_pos h]
  simp [and_comm]

/-- A primary is a unary: it does not start with a minus sign. -/
theorem reads_unary_of_primary (h : Reads (primary expr ts) e rest) :
    Reads (unary expr operand ts) e rest := by
  cases ts with
  | nil => exact h
  | cons t us =>
    by_cases ht : t.shape = .symbol .minus
    · simp [primary, kind_eq_symbol.mpr ht] at h
    · rw [unary, if_neg ht]
      exact h

theorem reads_power :
    Reads (power expr exponent operand ts) e rest ↔
      ∃ base mid, Reads (unary expr operand ts) base mid ∧
        (Declines caret mid ∧ base = e ∧ mid = rest ∨
          ∃ t us raised, mid = t :: us ∧ t.shape = .symbol .caret ∧
            Reads (exponent us) raised rest ∧ .power base raised = e) := by
  simp only [power, reads_bind]
  constructor
  · intro h
    rcases h with ⟨base, mid, hbase, h⟩
    refine ⟨base, mid, hbase, ?_⟩
    rcases declines_or_wants caret mid with hno | ⟨t, us, b, rfl, ht⟩
    · rw [accept?_eq_none hno] at h
      exact .inl ⟨hno, reads_ok.mp h⟩
    · rw [accept?_cons ht] at h
      obtain ⟨raised, after, hraised, h⟩ := reads_bind.mp h
      obtain ⟨rfl, rfl⟩ := reads_ok.mp h
      exact .inr ⟨t, us, raised, rfl, caret_eq_some.mp ht, reads_next.mp hraised, rfl⟩
  · intro h
    rcases h with ⟨base, mid, hbase, ⟨hno, rfl, rfl⟩ | ⟨t, us, raised, rfl, ht, hraised, rfl⟩⟩
    · refine ⟨base, mid, hbase, ?_⟩
      rw [accept?_eq_none hno]
      exact reads_ok.mpr ⟨rfl, rfl⟩
    · refine ⟨base, t :: us, hbase, ?_⟩
      rw [accept?_cons (caret_eq_some.mpr ht : caret t.shape = some ())]
      exact reads_bind.mpr ⟨raised, rest, reads_next.mpr hraised, reads_ok.mpr ⟨rfl, rfl⟩⟩

theorem reads_comparison :
    Reads (comparison expr exponent operand ts) e rest ↔
      ∃ left mid, Reads (sum expr exponent operand ts) left mid ∧
        (Declines comparisonOperator mid ∧ left = e ∧ mid = rest ∨
          ∃ t us op right, mid = t :: us ∧ t.shape = .symbol op.symbol ∧
            Reads (sum expr exponent operand us) right rest ∧ .comparison left op right = e) := by
  simp only [comparison, reads_bind]
  constructor
  · intro h
    rcases h with ⟨left, mid, hleft, h⟩
    refine ⟨left, mid, hleft, ?_⟩
    rcases declines_or_wants comparisonOperator mid with hno | ⟨t, us, op, rfl, ht⟩
    · rw [accept?_eq_none hno] at h
      exact .inl ⟨hno, reads_ok.mp h⟩
    · rw [accept?_cons ht] at h
      obtain ⟨right, after, hright, h⟩ := reads_bind.mp h
      obtain ⟨rfl, rfl⟩ := reads_ok.mp h
      exact .inr ⟨t, us, op, right, rfl, comparisonOperator_eq_some.mp ht,
        reads_next.mp hright, rfl⟩
  · intro h
    rcases h with ⟨left, mid, hleft, ⟨hno, rfl, rfl⟩ | ⟨t, us, op, right, rfl, ht, hright, rfl⟩⟩
    · refine ⟨left, mid, hleft, ?_⟩
      rw [accept?_eq_none hno]
      exact reads_ok.mpr ⟨rfl, rfl⟩
    · refine ⟨left, t :: us, hleft, ?_⟩
      rw [accept?_cons (comparisonOperator_eq_some.mpr ht)]
      exact reads_bind.mpr ⟨right, rest, reads_next.mpr hright, reads_ok.mpr ⟨rfl, rfl⟩⟩

end rules

/-! ## Soundness -/

section sound

variable {n : Nat}

theorem primary_sound (hexpr : Sound (expression n) (Derives .expression n)) :
    Sound (Category.rule .primary n) (Derives .primary n) := by
  intro ts e rest h
  cases ts with
  | nil => exact absurd h not_reads_reject
  | cons t us =>
    by_cases ht : t.shape = .symbol .leftParen
    · obtain ⟨inner, closing, hinner, hclosing, rfl⟩ := (reads_group ht).mp h
      obtain ⟨vs, rfl, hvs⟩ := hexpr hinner
      exact ⟨t :: (vs ++ [closing]), by simp, .group ht hvs hclosing⟩
    · rw [Category.rule, primary] at h
      split at h
      · next x hx =>
        obtain ⟨rfl, rfl⟩ := reads_ok.mp h
        exact ⟨[t], rfl, .number hx⟩
      · next text htext =>
        obtain ⟨rfl, rfl⟩ := reads_ok.mp h
        exact ⟨[t], rfl, .string htext⟩
      · next hname =>
        obtain ⟨rfl, rfl⟩ := reads_ok.mp h
        exact ⟨[t], rfl, .identifier (kind_eq_identifier.mp hname)⟩
      · next hparen => exact absurd (kind_eq_symbol.mp hparen) ht
      · exact absurd h not_reads_reject

theorem unary_sound (hexpr : Sound (expression n) (Derives .expression n))
    (hoperand : Sound (operand n) (Derives .operand n)) :
    Sound (Category.rule .unary n) (Derives .unary n) := by
  intro ts e rest h
  cases ts with
  | nil => exact absurd h not_reads_reject
  | cons t us =>
    by_cases ht : t.shape = .symbol .minus
    · obtain ⟨inner, hinner, rfl⟩ := (reads_negate ht).mp h
      obtain ⟨vs, rfl, hvs⟩ := hoperand hinner
      exact ⟨t :: vs, rfl, .negate ht hvs⟩
    · rw [Category.rule, unary, if_neg ht] at h
      obtain ⟨vs, hvs, hphrase⟩ := primary_sound hexpr h
      exact ⟨vs, hvs, .unaryOne hphrase⟩

theorem power_sound (hexpr : Sound (expression n) (Derives .expression n))
    (hexponent : Sound (exponent n) (Derives .exponent n))
    (hoperand : Sound (operand n) (Derives .operand n)) :
    Sound (Category.rule .power n) (Derives .power n) := by
  intro ts e rest h
  obtain ⟨base, mid, hbase, hmore⟩ := reads_power.mp h
  obtain ⟨us, rfl, hus⟩ := unary_sound hexpr hoperand hbase
  rcases hmore with ⟨-, rfl, rfl⟩ | ⟨t, vs, raised, rfl, ht, hraised, rfl⟩
  · exact ⟨us, rfl, .powerOne hus⟩
  · obtain ⟨ws, rfl, hws⟩ := hexponent hraised
    exact ⟨us ++ t :: ws, by simp, .power hus ht hws⟩

theorem comparison_sound (hsum : Sound (Category.rule .sum n) (Derives .sum n)) :
    Sound (Category.rule .comparison n) (Derives .comparison n) := by
  intro ts e rest h
  obtain ⟨left, mid, hleft, hmore⟩ := reads_comparison.mp h
  obtain ⟨us, rfl, hus⟩ := hsum hleft
  rcases hmore with ⟨-, rfl, rfl⟩ | ⟨t, vs, op, right, rfl, ht, hright, rfl⟩
  · exact ⟨us, rfl, .comparisonOne hus⟩
  · obtain ⟨ws, rfl, hws⟩ := hsum hright
    exact ⟨us ++ t :: ws, by simp, .comparison op hus ht hws⟩

/-- With the three rules that open a level, every rule is sound. -/
theorem rule_sound_of_opening (hexpr : Sound (expression n) (Derives .expression n))
    (hexponent : Sound (exponent n) (Derives .exponent n))
    (hoperand : Sound (operand n) (Derives .operand n)) (c : Category) :
    Sound (c.rule n) (Derives c n) := by
  have hpower := power_sound hexpr hexponent hoperand
  have hterm : Sound (Category.rule .term n) (Derives .term n) := by
    refine chain_sound hpower .termOne fun hl hc hr => ?_
    obtain ⟨op, ht, rfl⟩ := termOperator_eq_some.mp hc
    exact .term op hl ht hr
  have hsum : Sound (Category.rule .sum n) (Derives .sum n) := by
    refine chain_sound hterm .sumOne fun hl hc hr => ?_
    obtain ⟨op, ht, rfl⟩ := sumOperator_eq_some.mp hc
    exact .sum op hl ht hr
  have hcomparison := comparison_sound hsum
  have hconjunction : Sound (Category.rule .conjunction n) (Derives .conjunction n) := by
    refine chain_sound hcomparison .conjunctionOne fun hl hc hr => ?_
    obtain ⟨ht, rfl⟩ := conjunctionOperator_eq_some.mp hc
    exact .conjunction hl ht hr
  have hdisjunction : Sound (Category.rule .disjunction n) (Derives .disjunction n) := by
    refine chain_sound hconjunction .disjunctionOne fun hl hc hr => ?_
    obtain ⟨ht, rfl⟩ := disjunctionOperator_eq_some.mp hc
    exact .disjunction hl ht hr
  cases c with
  | expression => exact hexpr
  | disjunction => exact hdisjunction
  | conjunction => exact hconjunction
  | comparison => exact hcomparison
  | sum => exact hsum
  | term => exact hterm
  | power => exact hpower
  | exponent => exact hexponent
  | unary => exact unary_sound hexpr hoperand
  | operand => exact hoperand
  | primary => exact primary_sound hexpr

/-- Whatever the rule of a category reads is a phrase of it. -/
theorem rule_sound (n : Nat) : ∀ c : Category, Sound (c.rule n) (Derives c n) := by
  induction n with
  | zero =>
    -- no level is left, so the three rules that open one refuse everything
    refine rule_sound_of_opening ?_ ?_ ?_ <;>
      exact fun ts e rest h => absurd h not_reads_reject
  | succ n ih =>
    refine rule_sound_of_opening ?_ ?_ ?_ <;> intro ts e rest h
    · obtain ⟨us, hus, hphrase⟩ := ih .disjunction h
      exact ⟨us, hus, .expression hphrase⟩
    · obtain ⟨us, hus, hphrase⟩ := ih .power h
      exact ⟨us, hus, .exponent hphrase⟩
    · obtain ⟨us, hus, hphrase⟩ := ih .unary h
      exact ⟨us, hus, .operand hphrase⟩

end sound

/-! ## Completeness -/

section complete

variable {c : Category} {n : Nat} {e : Expr} {us rest : List Token}

/-- What completeness says of a phrase of a category. Phrases that are chains are kept open at
their right end, since they may be the first part of a longer chain. -/
def Category.Takes : Category → Nat → List Token → Expr → Prop
  | .disjunction, n, us, e => Resumes (rule .conjunction n) disjunctionOperator 1 us e
  | .conjunction, n, us, e => Resumes (rule .comparison n) conjunctionOperator 2 us e
  | .sum, n, us, e => Resumes (rule .term n) sumOperator 4 us e
  | .term, n, us, e => Resumes (rule .power n) termOperator 5 us e
  | c, n, us, e => ∀ ⦃rest⦄, Ends c.strength rest → Reads (c.rule n (us ++ rest)) e rest

theorem disjunction_declines (h : Ends 1 rest) : Declines disjunctionOperator rest := by
  refine h.declines fun hs => ?_
  obtain ⟨rfl, rfl⟩ := disjunctionOperator_eq_some.mp hs
  rfl

theorem conjunction_declines (h : Ends 2 rest) : Declines conjunctionOperator rest := by
  refine h.declines fun hs => ?_
  obtain ⟨rfl, rfl⟩ := conjunctionOperator_eq_some.mp hs
  rfl

theorem comparison_declines (h : Ends 3 rest) : Declines comparisonOperator rest := by
  refine h.declines fun hs => ?_
  rw [comparisonOperator_eq_some.mp hs]
  exact Comparison.binding_symbol _

theorem sum_declines (h : Ends 4 rest) : Declines sumOperator rest := by
  refine h.declines fun hs => ?_
  obtain ⟨op, rfl, rfl⟩ := sumOperator_eq_some.mp hs
  exact SumOp.binding_symbol op

theorem term_declines (h : Ends 5 rest) : Declines termOperator rest := by
  refine h.declines fun hs => ?_
  obtain ⟨op, rfl, rfl⟩ := termOperator_eq_some.mp hs
  exact TermOp.binding_symbol op

theorem caret_declines (h : Ends 6 rest) : Declines caret rest := by
  refine h.declines fun hs => ?_
  rw [caret_eq_some.mp hs]
  rfl

theorem Category.Takes.reads (h : c.Takes n us e) (hrest : Ends c.strength rest) :
    Reads (c.rule n (us ++ rest)) e rest := by
  cases c with
  | disjunction => exact Resumes.reads h (hrest.mono (by decide)) (disjunction_declines hrest)
  | conjunction => exact Resumes.reads h (hrest.mono (by decide)) (conjunction_declines hrest)
  | sum => exact Resumes.reads h (hrest.mono (by decide)) (sum_declines hrest)
  | term => exact Resumes.reads h (hrest.mono (by decide)) (term_declines hrest)
  | _ => exact h hrest

theorem Derives.takes (h : Derives c n us e) : c.Takes n us e := by
  induction h with
  | expression _ ih =>
    intro rest hrest
    exact ih.reads hrest
  | disjunctionOne _ ih => exact .one fun rest hrest => ih.reads hrest
  | disjunction _ ht _ ihl ihr =>
    exact .more ihl (disjunctionOperator_eq_some.mpr ⟨ht, rfl⟩) (by rw [ht]; decide)
      fun rest hrest => ihr.reads hrest
  | conjunctionOne _ ih => exact .one fun rest hrest => ih.reads hrest
  | conjunction _ ht _ ihl ihr =>
    exact .more ihl (conjunctionOperator_eq_some.mpr ⟨ht, rfl⟩) (by rw [ht]; decide)
      fun rest hrest => ihr.reads hrest
  | comparisonOne _ ih =>
    intro rest hrest
    exact reads_comparison.mpr ⟨_, rest, ih.reads (hrest.mono (by decide)),
      .inl ⟨comparison_declines hrest, rfl, rfl⟩⟩
  | @comparison n ts us l r t op _ ht _ ihl ihr =>
    intro rest hrest
    -- comparisons do not chain, so the left part ends at the operator itself
    have hnext : Ends 4 (t :: (us ++ rest)) := by
      show binding t.shape < 4
      rw [ht, Comparison.binding_symbol]
      decide
    rw [List.append_assoc]
    exact reads_comparison.mpr ⟨l, t :: (us ++ rest), ihl.reads hnext,
      .inr ⟨t, us ++ rest, op, r, rfl, ht, ihr.reads (hrest.mono (by decide)), rfl⟩⟩
  | sumOne _ ih => exact .one fun rest hrest => ih.reads hrest
  | sum op _ ht _ ihl ihr =>
    exact .more ihl (sumOperator_eq_some.mpr ⟨op, ht, rfl⟩)
      (Nat.le_of_eq ((congrArg binding ht).trans (SumOp.binding_symbol op)))
      fun rest hrest => ihr.reads hrest
  | termOne _ ih => exact .one fun rest hrest => ih.reads hrest
  | term op _ ht _ ihl ihr =>
    exact .more ihl (termOperator_eq_some.mpr ⟨op, ht, rfl⟩)
      (Nat.le_of_eq ((congrArg binding ht).trans (TermOp.binding_symbol op)))
      fun rest hrest => ihr.reads hrest
  | powerOne _ ih =>
    intro rest hrest
    exact reads_power.mpr ⟨_, rest, ih.reads (ends_seven rest),
      .inl ⟨caret_declines hrest, rfl, rfl⟩⟩
  | @power n ts us b e t _ ht _ ihb ihe =>
    intro rest hrest
    -- a base is never extended, whatever follows it
    rw [List.append_assoc]
    exact reads_power.mpr ⟨b, t :: (us ++ rest), ihb.reads (ends_seven _),
      .inr ⟨t, us ++ rest, e, rfl, ht, ihe.reads hrest, rfl⟩⟩
  | exponent _ ih =>
    intro rest hrest
    exact ih.reads hrest
  | unaryOne _ ih =>
    intro rest hrest
    exact reads_unary_of_primary (ih.reads hrest)
  | negate ht _ ih =>
    intro rest hrest
    exact (reads_negate ht).mpr ⟨_, ih.reads hrest, rfl⟩
  | operand _ ih =>
    intro rest hrest
    exact ih.reads hrest
  | number ht =>
    intro rest _
    simp [Category.rule, primary, ht]
  | string ht =>
    intro rest _
    simp [Category.rule, primary, ht]
  | identifier ht =>
    intro rest _
    simp [Category.rule, primary, kind_eq_identifier.mpr ht]
  | @group n ts e opening closing hopening _ hclosing ih =>
    intro rest _
    have hinner : Ends 1 (closing :: rest) := by
      show binding closing.shape < 1
      rw [hclosing]
      decide
    refine (reads_group hopening).mpr ⟨e, closing, ?_, hclosing, rfl⟩
    show Reads (Grammar.expression n (ts ++ [closing] ++ rest)) e (closing :: rest)
    rw [List.append_assoc]
    exact ih.reads hinner

/-- A phrase is read where no operator follows that it goes on at. -/
theorem Derives.reads (h : Derives c n us e) (hrest : Ends c.strength rest) :
    Reads (c.rule n (us ++ rest)) e rest :=
  h.takes.reads hrest

end complete

end DivisionScript.Grammar
