import Mathlib.Computability.Language
import DivisionScript.Proofs.Grammar.Enclosed

/-!
# Grammar — Language

The grammar as languages over the shapes of tokens. `sentences` makes a language of a phrase; each
category of expressions has one, without any limit of levels. The productions become equations
between these languages: a choice is a sum, a sequence a product, and the left-recursive chains of
operators are solved by Arden's lemma.
-/

namespace DivisionScript.Grammar

open TokenKind Computability

variable {α β : Type}

/-- The shapes of the tokens of a phrase. -/
def sentences (phrase : List Token → α → Prop) : Language Shape :=
  {w | ∃ ts a, phrase ts a ∧ ts.map Token.shape = w}

/-- The language of a single token. -/
def token (s : Shape) : Language Shape :=
  {[s]}

/-- The language of the single tokens that are wanted. -/
def wants (wanted : Shape → Option β) : Language Shape :=
  {w | ∃ s b, wanted s = some b ∧ w = [s]}

/-- A word begins with a shape that decides what may follow it. -/
def led (tail : Shape → Language Shape) : Language Shape :=
  {w | ∃ s, ∃ u ∈ tail s, w = s :: u}

theorem mem_sentences {phrase : List Token → α → Prop} {ts : List Token} {a : α}
    (h : phrase ts a) : ts.map Token.shape ∈ sentences phrase :=
  ⟨ts, a, h, rfl⟩

theorem mem_token_mul {s : Shape} {L : Language Shape} {w : List Shape} :
    w ∈ token s * L ↔ ∃ u ∈ L, w = s :: u := by
  rw [Language.mem_mul]
  constructor
  · rintro ⟨_, rfl, u, hu, rfl⟩
    exact ⟨u, hu, rfl⟩
  · rintro ⟨u, hu, rfl⟩
    exact ⟨[s], rfl, u, hu, rfl⟩

theorem cons_mem_token_mul {s : Shape} {L : Language Shape} {u : List Shape} (hu : u ∈ L) :
    s :: u ∈ token s * L :=
  mem_token_mul.mpr ⟨u, hu, rfl⟩

theorem mem_wants_mul {wanted : Shape → Option β} {L : Language Shape} {w : List Shape} :
    w ∈ wants wanted * L ↔ ∃ s b, wanted s = some b ∧ ∃ u ∈ L, w = s :: u := by
  rw [Language.mem_mul]
  constructor
  · rintro ⟨_, ⟨s, b, hs, rfl⟩, u, hu, rfl⟩
    exact ⟨s, b, hs, u, hu, rfl⟩
  · rintro ⟨s, b, hs, u, hu, rfl⟩
    exact ⟨[s], ⟨s, b, hs, rfl⟩, u, hu, rfl⟩

/-- Every shape is that of some token. -/
theorem exists_token (s : Shape) : ∃ t : Token, t.shape = s := by
  cases s with
  | symbol s => exact ⟨⟨.symbol s, "", 0⟩, rfl⟩
  | keyword k => exact ⟨⟨.keyword k, "", 0⟩, rfl⟩
  | identifier => exact ⟨⟨.identifier, "", 0⟩, rfl⟩
  | string => exact ⟨⟨.string "", "", 0⟩, rfl⟩
  | number => exact ⟨⟨.number 0, "", 0⟩, rfl⟩
  | endOfText => exact ⟨⟨.endOfText, "", 0⟩, rfl⟩

/-- Arden's lemma for languages that recur on the left. -/
theorem eq_mul_kstar {L M N : Language Shape} (hM : [] ∉ M) (h : L = L * M + N) : L = N * M∗ := by
  have hreverse : L.reverse = M.reverse * L.reverse + N.reverse := by
    rw [← Language.reverse_mul, ← Language.reverse_add, ← h]
  have hsolved := (Language.self_eq_mul_add_iff (by simpa using hM)).mp hreverse
  rw [← Language.reverse_kstar, ← Language.reverse_mul] at hsolved
  exact Language.reverse_injective hsolved

/-! ## Expressions -/

/-- A limit that is not below a positive one is positive itself. -/
theorem exists_succ_of_le {n m : Nat} (h : n + 1 ≤ m) : ∃ k, m = k + 1 ∧ n ≤ k :=
  ⟨m - 1, by omega, by omega⟩

theorem Derives.mono {c : Category} {n m : Nat} {ts : List Token} {e : Expr} (h : Derives c n ts e)
    (hle : n ≤ m) : Derives c m ts e := by
  induction h generalizing m with
  | expression _ ih =>
    obtain ⟨m, rfl, hlower⟩ := exists_succ_of_le hle
    exact .expression (ih hlower)
  | exponent _ ih =>
    obtain ⟨m, rfl, hlower⟩ := exists_succ_of_le hle
    exact .exponent (ih hlower)
  | operand _ ih =>
    obtain ⟨m, rfl, hlower⟩ := exists_succ_of_le hle
    exact .operand (ih hlower)
  | disjunctionOne _ ih => exact .disjunctionOne (ih hle)
  | disjunction _ ht _ ihl ihr => exact .disjunction (ihl hle) ht (ihr hle)
  | conjunctionOne _ ih => exact .conjunctionOne (ih hle)
  | conjunction _ ht _ ihl ihr => exact .conjunction (ihl hle) ht (ihr hle)
  | comparisonOne _ ih => exact .comparisonOne (ih hle)
  | comparison op _ ht _ ihl ihr => exact .comparison op (ihl hle) ht (ihr hle)
  | sumOne _ ih => exact .sumOne (ih hle)
  | sum op _ ht _ ihl ihr => exact .sum op (ihl hle) ht (ihr hle)
  | termOne _ ih => exact .termOne (ih hle)
  | term op _ ht _ ihl ihr => exact .term op (ihl hle) ht (ihr hle)
  | powerOne _ ih => exact .powerOne (ih hle)
  | power _ ht _ ihl ihr => exact .power (ihl hle) ht (ihr hle)
  | unaryOne _ ih => exact .unaryOne (ih hle)
  | negate ht _ ih => exact .negate ht (ih hle)
  | number ht => exact .number ht
  | string ht => exact .string ht
  | identifier ht => exact .identifier ht
  | group ho _ hc ih => exact .group ho (ih hle) hc

namespace Category

/-- The shapes of the phrases of a category. -/
def language (c : Category) : Language Shape :=
  sentences fun ts e => ∃ n, Derives c n ts e

variable {c d : Category} {n : Nat} {ts us : List Token} {e l r : Expr} {t : Token}

theorem mem_language (h : Derives c n ts e) : ts.map Token.shape ∈ c.language :=
  mem_sentences ⟨n, h⟩

/-- A phrase between two parts. -/
theorem mem_language_wants {wanted : Shape → Option β} {b : β} (hl : Derives c n ts l)
    (ht : wanted t.shape = some b) (hr : Derives d n us r) :
    (ts ++ t :: us).map Token.shape ∈ c.language * (wants wanted * d.language) := by
  rw [List.map_append, List.map_cons]
  exact Language.append_mem_mul (mem_language hl)
    (mem_wants_mul.mpr ⟨t.shape, b, ht, _, mem_language hr, rfl⟩)

/-- Two phrases have a common limit of levels, and a token stands between them. -/
theorem exists_of_mem_wants {wanted : Shape → Option β} {w : List Shape}
    (h : w ∈ c.language * (wants wanted * d.language)) :
    ∃ n ts us l r, ∃ t : Token, ∃ b, Derives c n ts l ∧ wanted t.shape = some b ∧
      Derives d n us r ∧ (ts ++ t :: us).map Token.shape = w := by
  obtain ⟨_, ⟨ts, l, ⟨n, hl⟩, rfl⟩, _, hmore, rfl⟩ := Language.mem_mul.mp h
  obtain ⟨s, b, hs, _, ⟨us, r, ⟨m, hr⟩, rfl⟩, rfl⟩ := mem_wants_mul.mp hmore
  obtain ⟨t, rfl⟩ := exists_token s
  refine ⟨max n m, ts, us, l, r, t, b, hl.mono (Nat.le_max_left ..), hs,
    hr.mono (Nat.le_max_right ..), ?_⟩
  rw [List.map_append, List.map_cons]

/-- A category whose phrases are those of `base`, or two phrases with an operator between them. -/
theorem language_joined {c left right base : Category} {wanted : Shape → Option β}
    (hone : ∀ {n ts e}, Derives base n ts e → Derives c n ts e)
    (hmore : ∀ {n ts us l r b} {t : Token}, Derives left n ts l → wanted t.shape = some b →
      Derives right n us r → ∃ e, Derives c n (ts ++ t :: us) e)
    (hcases : ∀ {n ts e}, Derives c n ts e → Derives base n ts e ∨
      ∃ us vs l r b, ∃ t : Token, ts = us ++ t :: vs ∧ Derives left n us l ∧
        wanted t.shape = some b ∧ Derives right n vs r) :
    c.language = left.language * (wants wanted * right.language) + base.language := by
  refine Language.ext fun w => ?_
  rw [Language.mem_add]
  constructor
  · rintro ⟨ts, e, ⟨n, h⟩, rfl⟩
    rcases hcases h with h | ⟨us, vs, l, r, b, t, rfl, hl, ht, hr⟩
    · exact .inr (mem_language h)
    · exact .inl (mem_language_wants hl ht hr)
  · rintro (h | ⟨ts, e, ⟨n, h⟩, rfl⟩)
    · obtain ⟨n, ts, us, l, r, t, b, hl, ht, hr, rfl⟩ := exists_of_mem_wants h
      obtain ⟨e, he⟩ := hmore hl ht hr
      exact mem_language he
    · exact mem_language (hone h)

/-- A chain of operators is one operand and any number of operators with operands. -/
theorem language_chain {wanted : Shape → Option β}
    (h : c.language = c.language * (wants wanted * d.language) + d.language) :
    c.language = d.language * (wants wanted * d.language)∗ := by
  refine eq_mul_kstar ?_ h
  rw [mem_wants_mul]
  rintro ⟨s, b, -, u, -, ⟨⟩⟩

theorem language_disjunction : disjunction.language =
    conjunction.language * (wants disjunctionOperator * conjunction.language)∗ := by
  refine language_chain (language_joined .disjunctionOne (fun hl ht hr => ?_) fun h => ?_)
  · exact ⟨_, .disjunction hl (disjunctionOperator_eq_some.mp ht).1 hr⟩
  · cases h with
    | disjunctionOne h => exact .inl h
    | disjunction hl ht hr =>
      exact .inr ⟨_, _, _, _, _, _, rfl, hl, disjunctionOperator_eq_some.mpr ⟨ht, rfl⟩, hr⟩

theorem language_conjunction : conjunction.language =
    comparison.language * (wants conjunctionOperator * comparison.language)∗ := by
  refine language_chain (language_joined .conjunctionOne (fun hl ht hr => ?_) fun h => ?_)
  · exact ⟨_, .conjunction hl (conjunctionOperator_eq_some.mp ht).1 hr⟩
  · cases h with
    | conjunctionOne h => exact .inl h
    | conjunction hl ht hr =>
      exact .inr ⟨_, _, _, _, _, _, rfl, hl, conjunctionOperator_eq_some.mpr ⟨ht, rfl⟩, hr⟩

theorem language_comparison : comparison.language =
    sum.language * (1 + wants comparisonOperator * sum.language) := by
  rw [mul_add, mul_one, add_comm]
  refine language_joined .comparisonOne (fun hl ht hr => ?_) fun h => ?_
  · exact ⟨_, .comparison _ hl (comparisonOperator_eq_some.mp ht) hr⟩
  · cases h with
    | comparisonOne h => exact .inl h
    | comparison op hl ht hr =>
      exact .inr ⟨_, _, _, _, _, _, rfl, hl, comparisonOperator_eq_some.mpr ht, hr⟩

theorem language_sum : sum.language =
    term.language * (wants sumOperator * term.language)∗ := by
  refine language_chain (language_joined .sumOne (fun hl ht hr => ?_) fun h => ?_)
  · obtain ⟨op, ht, -⟩ := sumOperator_eq_some.mp ht
    exact ⟨_, .sum op hl ht hr⟩
  · cases h with
    | sumOne h => exact .inl h
    | sum op hl ht hr =>
      exact .inr ⟨_, _, _, _, _, _, rfl, hl, sumOperator_eq_some.mpr ⟨op, ht, rfl⟩, hr⟩

theorem language_term : term.language =
    power.language * (wants termOperator * power.language)∗ := by
  refine language_chain (language_joined .termOne (fun hl ht hr => ?_) fun h => ?_)
  · obtain ⟨op, ht, -⟩ := termOperator_eq_some.mp ht
    exact ⟨_, .term op hl ht hr⟩
  · cases h with
    | termOne h => exact .inl h
    | term op hl ht hr =>
      exact .inr ⟨_, _, _, _, _, _, rfl, hl, termOperator_eq_some.mpr ⟨op, ht, rfl⟩, hr⟩

theorem language_power : power.language =
    unary.language * (1 + wants caret * exponent.language) := by
  rw [mul_add, mul_one, add_comm]
  refine language_joined .powerOne (fun hl ht hr => ?_) fun h => ?_
  · exact ⟨_, .power hl (caret_eq_some.mp ht) hr⟩
  · cases h with
    | powerOne h => exact .inl h
    | power hl ht hr => exact .inr ⟨_, _, _, _, (), _, rfl, hl, caret_eq_some.mpr ht, hr⟩

/-- A category that only opens a level. -/
theorem language_opening
    (hopens : ∀ {n ts e}, Derives c n ts e ↔ ∃ m, n = m + 1 ∧ Derives d m ts e) :
    c.language = d.language := by
  refine Language.ext fun w => ⟨?_, ?_⟩
  · rintro ⟨ts, e, ⟨n, h⟩, rfl⟩
    obtain ⟨m, -, h⟩ := hopens.mp h
    exact mem_language h
  · rintro ⟨ts, e, ⟨n, h⟩, rfl⟩
    exact mem_language (hopens.mpr ⟨n, rfl, h⟩)

theorem language_expression : expression.language = disjunction.language := by
  refine language_opening ⟨fun h => ?_, ?_⟩
  · cases h with
    | expression h => exact ⟨_, rfl, h⟩
  · rintro ⟨m, rfl, h⟩
    exact .expression h

theorem language_exponent : exponent.language = power.language := by
  refine language_opening ⟨fun h => ?_, ?_⟩
  · cases h with
    | exponent h => exact ⟨_, rfl, h⟩
  · rintro ⟨m, rfl, h⟩
    exact .exponent h

theorem language_operand : operand.language = unary.language := by
  refine language_opening ⟨fun h => ?_, ?_⟩
  · cases h with
    | operand h => exact ⟨_, rfl, h⟩
  · rintro ⟨m, rfl, h⟩
    exact .operand h

/-- What follows the first token of a primary. -/
def primaryTail : Shape → Language Shape
  | .number | .string | .identifier => 1
  | .symbol .leftParen => expression.language * token (.symbol .rightParen)
  | _ => 0

theorem language_primary : primary.language = led primaryTail := by
  refine Language.ext fun w => ⟨?_, ?_⟩
  · rintro ⟨ts, e, ⟨n, h⟩, rfl⟩
    cases h with
    | @number n x t ht => exact ⟨.number, [], rfl, by simp [Token.shape, ht, TokenKind.shape]⟩
    | @string n text t ht => exact ⟨.string, [], rfl, by simp [Token.shape, ht, TokenKind.shape]⟩
    | identifier ht => exact ⟨.identifier, [], rfl, by simp [ht]⟩
    | @group n ts e opening closing ho h hc =>
      refine ⟨.symbol .leftParen, ts.map Token.shape ++ [closing.shape], ?_, by simp [ho]⟩
      exact Language.append_mem_mul (mem_language h) (by rw [hc]; rfl)
  · rintro ⟨s, u, hu, rfl⟩
    cases s with
    | keyword | endOfText => cases hu
    | number => exact hu ▸ mem_language (.number (n := 0) (t := ⟨.number 0, "", 0⟩) rfl)
    | string => exact hu ▸ mem_language (.string (n := 0) (t := ⟨.string "", "", 0⟩) rfl)
    | identifier => exact hu ▸ mem_language (.identifier (n := 0) (t := ⟨.identifier, "", 0⟩) rfl)
    | symbol s =>
      cases s with
      | leftParen =>
        obtain ⟨_, ⟨ts, e, ⟨n, h⟩, rfl⟩, _, rfl, rfl⟩ := Language.mem_mul.mp hu
        have hgroup : Derives .primary n
            (⟨.symbol .leftParen, "", 0⟩ :: (ts ++ [⟨.symbol .rightParen, "", 0⟩])) (.group e) :=
          .group rfl h rfl
        simpa [Token.shape, TokenKind.shape] using mem_language hgroup
      | _ => cases hu

theorem language_unary :
    unary.language = primary.language + token (.symbol .minus) * operand.language := by
  refine Language.ext fun w => ?_
  rw [Language.mem_add, mem_token_mul]
  constructor
  · rintro ⟨ts, e, ⟨n, h⟩, rfl⟩
    cases h with
    | unaryOne h => exact .inl (mem_language h)
    | negate ht h => exact .inr ⟨_, mem_language h, by rw [List.map_cons, ht]⟩
  · rintro (⟨ts, e, ⟨n, h⟩, rfl⟩ | ⟨_, ⟨ts, e, ⟨n, h⟩, rfl⟩, rfl⟩)
    · exact mem_language (.unaryOne h)
    · exact mem_language (.negate (t := ⟨.symbol .minus, "", 0⟩) rfl h)

end Category

end DivisionScript.Grammar
