import DivisionScript.Proofs.Grammar.Expression

/-!
# Grammar — Enclosed, proved

Lists between parentheses, for any kind of item: the parameters of a function and the arguments of
a call. What an item reads has to be a phrase, and a phrase has to be read where a comma or a
closing parenthesis follows.
-/

namespace DivisionScript.Grammar

variable {α : Type} {item : Rule α} {phrase : List Token → α → Prop} {overflow : SyntaxCause}
variable {a : α} {as : List α} {t : Token} {ts us rest : List Token}

theorem comma_eq_some {s : TokenKind.Shape} {u : Unit} :
    comma s = some u ↔ s = .symbol .comma := by
  cases s with
  | symbol s => cases s <;> simp [comma]
  | _ => simp [comma]

/-- A token of a known shape that is no operator ends every phrase. -/
theorem ends_cons {k : Nat} {s : TokenKind.Shape} (ht : t.shape = s) (hs : binding s < k) :
    Ends k (t :: us) := by
  show binding t.shape < k
  rw [ht]
  exact hs

theorem reads_separated_succ {room : Nat} :
    Reads (separated item overflow (room + 1) ts) as rest ↔
      ∃ first mid, Reads (item ts) first mid ∧
        (Declines comma mid ∧ [first] = as ∧ mid = rest ∨
          ∃ t us more, mid = t :: us ∧ t.shape = .symbol .comma ∧
            Reads (separated item overflow room us) more rest ∧ first :: more = as) := by
  simp only [separated, reads_bind]
  constructor
  · intro h
    rcases h with ⟨first, mid, hfirst, h⟩
    refine ⟨first, mid, hfirst, ?_⟩
    rcases declines_or_wants comma mid with hno | ⟨t, us, b, rfl, ht⟩
    · rw [accept?_eq_none hno] at h
      exact .inl ⟨hno, reads_ok.mp h⟩
    · rw [accept?_cons ht] at h
      obtain ⟨more, after, hmore, h⟩ := reads_bind.mp h
      obtain ⟨rfl, rfl⟩ := reads_ok.mp h
      exact .inr ⟨t, us, more, rfl, comma_eq_some.mp ht, reads_next.mp hmore, rfl⟩
  · intro h
    rcases h with ⟨first, mid, hfirst, ⟨hno, rfl, rfl⟩ | ⟨t, us, more, rfl, ht, hmore, rfl⟩⟩
    · refine ⟨first, mid, hfirst, ?_⟩
      rw [accept?_eq_none hno]
      exact reads_ok.mpr ⟨rfl, rfl⟩
    · refine ⟨first, t :: us, hfirst, ?_⟩
      rw [accept?_cons (comma_eq_some.mpr ht : comma t.shape = some ())]
      exact reads_bind.mpr ⟨more, rest, reads_next.mpr hmore, reads_ok.mpr ⟨rfl, rfl⟩⟩

theorem separated_sound (hitem : Sound item phrase) {room : Nat} :
    ∀ {ts as rest}, Reads (separated item overflow room ts) as rest →
      ∃ us, us ++ rest = ts ∧ Separated phrase us as ∧ as.length ≤ room := by
  induction room with
  | zero =>
    intro ts as rest h
    exact absurd h not_reads_reject
  | succ room ih =>
    intro ts as rest h
    obtain ⟨first, mid, hfirst, hmore⟩ := reads_separated_succ.mp h
    obtain ⟨us, rfl, hus⟩ := hitem hfirst
    rcases hmore with ⟨-, rfl, rfl⟩ | ⟨t, vs, more, rfl, ht, hmore, rfl⟩
    · exact ⟨us, rfl, .one hus, by simp⟩
    · obtain ⟨ws, rfl, hws, hlen⟩ := ih hmore
      exact ⟨us ++ t :: ws, by simp, .more hus ht hws, Nat.succ_le_succ hlen⟩

/-- The list is read to its end where neither a comma nor anything that an item could go on with
follows. -/
theorem Separated.reads
    (hitem : ∀ ⦃us a rest⦄, phrase us a → Ends 1 rest → Reads (item (us ++ rest)) a rest)
    (h : Separated phrase us as) :
    ∀ {room rest}, as.length ≤ room → Ends 1 rest → Declines comma rest →
      Reads (separated item overflow room (us ++ rest)) as rest := by
  induction h with
  | one ha =>
    intro room rest hroom hrest hno
    obtain ⟨room, rfl⟩ : ∃ k, room = k + 1 := ⟨room - 1, by simp at hroom; omega⟩
    exact reads_separated_succ.mpr ⟨_, rest, hitem ha hrest, .inl ⟨hno, rfl, rfl⟩⟩
  | @more ts us a as t ha ht _ ih =>
    intro room rest hroom hrest hno
    obtain ⟨room, rfl⟩ : ∃ k, room = k + 1 := ⟨room - 1, by simp at hroom; omega⟩
    have hfirst : Reads (item (ts ++ t :: (us ++ rest))) a (t :: (us ++ rest)) :=
      hitem ha (ends_cons ht (by decide))
    rw [List.append_assoc]
    exact reads_separated_succ.mpr ⟨a, t :: (us ++ rest), hfirst,
      .inr ⟨t, us ++ rest, as, rfl, ht, ih (Nat.le_of_succ_le_succ hroom) hrest hno, rfl⟩⟩

section parenthesized

variable {openPhrase closePhrase : String}

theorem reads_parenthesized :
    Reads (parenthesized item overflow openPhrase closePhrase ts) as rest ↔
      ∃ opening us, ts = opening :: us ∧ opening.shape = .symbol .leftParen ∧
        (nextIs (.symbol .rightParen) us = true ∧ [] = as ∧ (∃ closing, us = closing :: rest) ∨
          nextIs (.symbol .rightParen) us = false ∧
            ∃ closing, Reads (separated item overflow maxArity us) as (closing :: rest) ∧
              closing.shape = .symbol .rightParen) := by
  simp only [parenthesized, reads_bind, reads_expectSymbol]
  constructor
  · intro h
    rcases h with ⟨opening, us, ⟨rfl, hopening⟩, h⟩
    refine ⟨opening, us, rfl, hopening, ?_⟩
    split at h
    · next hnext =>
      simp only [reads_bind, reads_next, reads_expectSymbol, reads_ok, value_give, rest_give] at h
      obtain ⟨closing, mid, ⟨rfl, -⟩, rfl, rfl⟩ := h
      exact .inl ⟨hnext, rfl, closing, rfl⟩
    · next hnext =>
      simp only [reads_bind, reads_next, reads_expectSymbol, reads_ok, value_give, rest_give] at h
      obtain ⟨items, mid, hitems, closing, after, ⟨rfl, hclosing⟩, rfl, rfl⟩ := h
      exact .inr ⟨by simpa using hnext, closing, hitems, hclosing⟩
  · intro h
    rcases h with ⟨opening, us, rfl, hopening, h⟩
    refine ⟨opening, us, ⟨rfl, hopening⟩, ?_⟩
    rcases h with ⟨hnext, rfl, closing, rfl⟩ | ⟨hnext, closing, hitems, hclosing⟩
    · have hclosing : closing.shape = .symbol .rightParen := by simpa [nextIs] using hnext
      rw [if_pos hnext]
      simp only [reads_bind, reads_next, reads_expectSymbol, reads_ok, value_give, rest_give]
      exact ⟨closing, rest, ⟨rfl, hclosing⟩, trivial, rfl⟩
    · rw [if_neg (by simp [hnext])]
      simp only [reads_bind, reads_next, reads_expectSymbol, reads_ok, value_give, rest_give]
      exact ⟨as, closing :: rest, hitems, closing, rest, ⟨rfl, hclosing⟩, rfl, rfl⟩

theorem parenthesized_sound (hitem : Sound item phrase) :
    Sound (parenthesized item overflow openPhrase closePhrase)
      (Parenthesized maxArity phrase) := by
  intro ts as rest h
  obtain ⟨opening, us, rfl, hopening, h⟩ := reads_parenthesized.mp h
  rcases h with ⟨hnext, rfl, closing, rfl⟩ | ⟨-, closing, hitems, hclosing⟩
  · have hclosing : closing.shape = .symbol .rightParen := by simpa [nextIs] using hnext
    exact ⟨[opening, closing], rfl, .empty hopening hclosing⟩
  · obtain ⟨vs, rfl, hvs, hlen⟩ := separated_sound hitem hitems
    exact ⟨opening :: (vs ++ [closing]), by simp, .items hopening hvs hlen hclosing⟩

theorem Separated.nextIs_eq_false {s : TokenKind.Shape}
    (hhead : ∀ ⦃us a⦄, phrase us a → ∀ rest, nextIs s (us ++ rest) = false)
    (h : Separated phrase us as) (rest : List Token) : nextIs s (us ++ rest) = false := by
  cases h with
  | one ha => exact hhead ha rest
  | more ha _ _ =>
    rw [List.append_assoc]
    exact hhead ha _

theorem Parenthesized.reads
    (hhead : ∀ ⦃us a⦄, phrase us a → ∀ rest, nextIs (.symbol .rightParen) (us ++ rest) = false)
    (hitem : ∀ ⦃us a rest⦄, phrase us a → Ends 1 rest → Reads (item (us ++ rest)) a rest)
    (h : Parenthesized maxArity phrase us as) (rest : List Token) :
    Reads (parenthesized item overflow openPhrase closePhrase (us ++ rest)) as rest := by
  cases h with
  | empty hopening hclosing =>
    exact reads_parenthesized.mpr ⟨_, _, rfl, hopening,
      .inl ⟨by simpa [nextIs] using hclosing, rfl, _, rfl⟩⟩
  | @items ts _ opening closing hopening hitems hlen hclosing =>
    have hend : Ends 1 (closing :: rest) := ends_cons hclosing (by decide)
    have hno : Declines comma (closing :: rest) := by
      show comma closing.shape = none
      rw [hclosing]
      rfl
    refine reads_parenthesized.mpr ⟨opening, ts ++ closing :: rest, by simp, hopening, .inr ?_⟩
    exact ⟨hitems.nextIs_eq_false hhead _, closing, hitems.reads hitem hlen hend hno, hclosing⟩

end parenthesized

end DivisionScript.Grammar
