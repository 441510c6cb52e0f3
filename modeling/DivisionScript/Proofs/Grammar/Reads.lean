import DivisionScript.Proofs.Grammar.Derivation
import DivisionScript.Proofs.State

/-!
# Grammar — Reads

What it means that a rule succeeds: `Reads x a rest` says that `x` yields `a` and leaves the tokens
`rest`; `Tracks` says the same of a computation that records milestones. One lemma for each way of
building rules turns success of the whole into success of the parts, so that no later proof looks
at bounds or at the order of the computation.
-/

namespace DivisionScript.Grammar

variable {α β γ : Type} {bound size : Nat}

/-- `x` succeeds with the value `a` and leaves `rest`. -/
def Reads (x : Except Rejection (Read α bound)) (a : α) (rest : List Token) : Prop :=
  ∃ h, x = .ok ⟨a, rest, h⟩

theorem Reads.shorter {x : Except Rejection (Read α bound)} {a : α} {rest : List Token}
    (h : Reads x a rest) : rest.length < bound :=
  h.1

@[simp] theorem reads_ok {r : Read α bound} {a : α} {rest : List Token} :
    Reads (.ok r) a rest ↔ r.value = a ∧ r.rest = rest := by
  obtain ⟨b, ts, hb⟩ := r
  constructor
  · intro h
    rcases h with ⟨h, e⟩
    cases e
    exact ⟨rfl, rfl⟩
  · intro h
    rcases h with ⟨rfl, rfl⟩
    exact ⟨hb, rfl⟩

theorem not_reads_error {r : Rejection} {a : α} {rest : List Token} :
    ¬ Reads (.error r : Except Rejection (Read α bound)) a rest := by
  intro h
  rcases h with ⟨h, e⟩
  cases e

@[simp] theorem not_reads_reject {cause : SyntaxCause} {ts : List Token} {a : α}
    {rest : List Token} :
    ¬ Reads (reject cause ts : Except Rejection (Read α bound)) a rest :=
  not_reads_error

/-- A computation that goes on succeeds if its first part does and what follows it does. -/
@[simp] theorem reads_bind {x : Except Rejection (Read α bound)}
    {f : Read α bound → Except Rejection (Read β size)} {b : β} {rest : List Token} :
    Reads (x >>= f) b rest ↔
      ∃ a mid, ∃ h : Reads x a mid, Reads (f ⟨a, mid, h.shorter⟩) b rest := by
  cases x with
  | error e =>
    constructor
    · intro h
      rcases h with ⟨h, e⟩
      cases e
    · intro h
      rcases h with ⟨a, mid, ⟨h, e⟩, -⟩
      cases e
  | ok r =>
    constructor
    · intro h
      exact ⟨r.value, r.rest, ⟨r.shorter, rfl⟩, h⟩
    · intro h
      rcases h with ⟨a, mid, ⟨h, e⟩, hf⟩
      cases e
      exact hf

/-- Changing nothing but the bound of a reading changes nothing. -/
theorem reads_map {f : Read α size → Read α bound} {x : Except Rejection (Read α size)} {a : α}
    {rest : List Token} (hf : ∀ r, (f r).value = r.value ∧ (f r).rest = r.rest) :
    Reads (f <$> x) a rest ↔ Reads x a rest := by
  cases x with
  | error r => exact iff_of_false not_reads_error not_reads_error
  | ok r =>
    obtain ⟨hvalue, hrest⟩ := hf r
    show Reads (.ok (f r)) a rest ↔ _
    rw [reads_ok, reads_ok, hvalue, hrest]

@[simp] theorem reads_next {r : Read α bound} {rule : Rule β} {b : β} {rest : List Token} :
    Reads (r.next rule) b rest ↔ Reads (rule r.rest) b rest :=
  reads_map fun _ => ⟨rfl, rfl⟩

@[simp] theorem reads_nextOptional {r : Read α bound} {rule : OptionalRule β} {b : β}
    {rest : List Token} :
    Reads (r.nextOptional rule) b rest ↔ Reads (rule r.rest) b rest :=
  reads_map fun _ => ⟨rfl, rfl⟩

@[simp] theorem reads_behind {ts : List Token} {t : Token} {x : Except Rejection (Read α ts.length)}
    {a : α} {rest : List Token} :
    Reads (Read.behind t <$> x) a rest ↔ Reads x a rest :=
  reads_map fun _ => ⟨rfl, rfl⟩

@[simp] theorem reads_expect {shape : TokenKind.Shape} {phrase : String} {ts : List Token}
    {t : Token} {rest : List Token} :
    Reads (expect shape phrase ts) t rest ↔ ts = t :: rest ∧ t.shape = shape := by
  cases ts with
  | nil => simp [expect, not_reads_reject]
  | cons u us =>
    rw [expect]
    split
    · next hu =>
      rw [reads_ok]
      constructor
      · intro h
        rcases h with ⟨rfl, rfl⟩
        exact ⟨rfl, hu⟩
      · intro h
        rcases h with ⟨e, -⟩
        cases e
        exact ⟨rfl, rfl⟩
    · next hu =>
      refine iff_of_false not_reads_reject ?_
      intro h
      rcases h with ⟨e, ht⟩
      cases e
      exact hu ht

@[simp] theorem reads_expectSymbol {s : Symbol} {phrase : String} {ts : List Token}
    {t : Token} {rest : List Token} :
    Reads (expectSymbol s phrase ts) t rest ↔ ts = t :: rest ∧ t.shape = .symbol s :=
  reads_expect

@[simp] theorem reads_expectKeyword {k : Keyword} {phrase : String} {ts : List Token}
    {t : Token} {rest : List Token} :
    Reads (expectKeyword k phrase ts) t rest ↔ ts = t :: rest ∧ t.shape = .keyword k :=
  reads_expect

theorem reads_stringLiteral {phrase : String} {ts : List Token} {text : String}
    {rest : List Token} :
    Reads (stringLiteral phrase ts) text rest ↔
      ∃ t, ts = t :: rest ∧ t.kind = .string text := by
  cases ts with
  | nil => simp [stringLiteral, not_reads_reject]
  | cons u us =>
    rw [stringLiteral]
    split
    · next shown hu =>
      rw [reads_ok]
      constructor
      · intro h
        rcases h with ⟨rfl, rfl⟩
        exact ⟨u, rfl, hu⟩
      · intro h
        rcases h with ⟨t, e, ht⟩
        cases e
        rw [hu] at ht
        cases ht
        exact ⟨rfl, rfl⟩
    · next hu =>
      refine iff_of_false not_reads_reject ?_
      intro h
      rcases h with ⟨t, e, ht⟩
      cases e
      exact hu _ ht

/-- The next token, if there is one, is not wanted. -/
def Declines {β : Type} (wanted : TokenKind.Shape → Option β) : List Token → Prop
  | [] => True
  | t :: _ => wanted t.shape = none

theorem accept?_eq_none {r : Read α bound} {wanted : TokenKind.Shape → Option β}
    (h : Declines wanted r.rest) : r.accept? wanted = none := by
  obtain ⟨a, ts, hb⟩ := r
  cases ts with
  | nil => rfl
  | cons t us =>
    have ht : wanted t.shape = none := h
    show (wanted t.shape).map _ = none
    rw [ht, Option.map_none]

theorem accept?_cons {a : α} {t : Token} {us : List Token} {h : (t :: us).length < bound}
    {wanted : TokenKind.Shape → Option β} {b : β} (ht : wanted t.shape = some b) :
    (⟨a, t :: us, h⟩ : Read α bound).accept? wanted =
      some ⟨b, us, Nat.lt_trans (Nat.lt_succ_self us.length) h⟩ := by
  show (wanted t.shape).map _ = _
  rw [ht, Option.map_some]

theorem declines_or_wants (wanted : TokenKind.Shape → Option β) (ts : List Token) :
    Declines wanted ts ∨ ∃ t us b, ts = t :: us ∧ wanted t.shape = some b := by
  cases ts with
  | nil => exact .inl trivial
  | cons t us =>
    cases h : wanted t.shape with
    | none => exact .inl h
    | some b => exact .inr ⟨t, us, b, rfl, h⟩

/-! ## Parts of a reading -/

@[simp] theorem value_give (r : Read α bound) (b : β) : (r.give b).value = b := rfl

@[simp] theorem rest_give (r : Read α bound) (b : β) : (r.give b).rest = r.rest := rfl

@[simp] theorem value_behind {ts : List Token} (t : Token) (r : Read α ts.length) :
    (r.behind t).value = r.value := rfl

@[simp] theorem rest_behind {ts : List Token} (t : Token) (r : Read α ts.length) :
    (r.behind t).rest = r.rest := rfl

@[simp] theorem value_loosen (r : Read α bound) : r.loosen.value = r.value := rfl

@[simp] theorem rest_loosen (r : Read α bound) : r.loosen.rest = r.rest := rfl

@[simp] theorem value_afterOptional (r : Read α bound) (q : Read β (r.rest.length + 1)) :
    (r.afterOptional q).value = q.value := rfl

@[simp] theorem rest_afterOptional (r : Read α bound) (q : Read β (r.rest.length + 1)) :
    (r.afterOptional q).rest = q.rest := rfl

@[simp] theorem value_nothing (a : α) (ts : List Token) : (Read.nothing a ts).value = a := rfl

@[simp] theorem rest_nothing (a : α) (ts : List Token) : (Read.nothing a ts).rest = ts := rfl

@[simp] theorem value_one (a : α) (t : Token) (ts : List Token) :
    (Read.one a t ts).value = a := rfl

@[simp] theorem rest_one (a : α) (t : Token) (ts : List Token) : (Read.one a t ts).rest = ts := rfl

/-! ## Computations with milestones -/

/-- `x` succeeds with the value `a` and leaves `rest`; the milestones grow from `log` to `after`. -/
def Tracks (x : Tracked (Read α bound)) (log : Array Milestone) (a : α) (rest : List Token)
    (after : Array Milestone) : Prop :=
  ∃ h, x log = .ok ⟨a, rest, h⟩ after

variable {log after : Array Milestone}

theorem Tracks.shorter {x : Tracked (Read α bound)} {a : α} {rest : List Token}
    (h : Tracks x log a rest after) : rest.length < bound :=
  h.1

theorem tracks_of_ok {x : Tracked (Read α bound)} {r : Read α bound} {log' : Array Milestone}
    {a : α} {rest : List Token} (hx : x log = .ok r log') :
    Tracks x log a rest after ↔ r.value = a ∧ r.rest = rest ∧ after = log' := by
  obtain ⟨b, ts, hb⟩ := r
  rw [Tracks, hx]
  constructor
  · intro h
    rcases h with ⟨h, e⟩
    cases e
    exact ⟨rfl, rfl, rfl⟩
  · intro h
    rcases h with ⟨rfl, rfl, rfl⟩
    exact ⟨hb, rfl⟩

theorem not_tracks_of_error {x : Tracked (Read α bound)} {r : Rejection} {log' : Array Milestone}
    {a : α} {rest : List Token} (hx : x log = .error r log') : ¬ Tracks x log a rest after := by
  intro h
  rcases h with ⟨h, e⟩
  rw [hx] at e
  cases e

@[simp] theorem tracks_pure {r : Read α bound} {a : α} {rest : List Token} :
    Tracks (pure r) log a rest after ↔ r.value = a ∧ r.rest = rest ∧ after = log :=
  tracks_of_ok rfl

@[simp] theorem not_tracks_throw {r : Rejection} {a : α} {rest : List Token} :
    ¬ Tracks (throw r : Tracked (Read α bound)) log a rest after :=
  not_tracks_of_error rfl

@[simp] theorem tracks_tracked {x : Except Rejection (Read α bound)} {a : α} {rest : List Token} :
    Tracks (tracked x) log a rest after ↔ Reads x a rest ∧ after = log := by
  cases x with
  | error r =>
    refine iff_of_false not_tracks_throw ?_
    intro h
    rcases h with ⟨⟨h, e⟩, -⟩
    cases e
  | ok r =>
    rw [reads_ok, and_assoc]
    exact tracks_pure

/-- What follows a reading may be a computation of any kind. -/
theorem read_bind_eq_ok {x : Tracked (Read α bound)} {f : Read α bound → Tracked β} {b : β} :
    (x >>= f) log = .ok b after ↔
      ∃ a mid between, ∃ h : Tracks x log a mid between,
        f ⟨a, mid, h.shorter⟩ between = .ok b after := by
  rw [bind_eq_ok]
  constructor
  · intro h
    rcases h with ⟨r, between, hx, hf⟩
    exact ⟨r.value, r.rest, between, ⟨r.shorter, hx⟩, hf⟩
  · intro h
    rcases h with ⟨a, mid, between, ⟨h, hx⟩, hf⟩
    exact ⟨_, between, hx, hf⟩

@[simp] theorem tracks_bind {x : Tracked (Read α bound)} {f : Read α bound → Tracked (Read β size)}
    {b : β} {rest : List Token} :
    Tracks (x >>= f) log b rest after ↔
      ∃ a mid between, ∃ h : Tracks x log a mid between,
        Tracks (f ⟨a, mid, h.shorter⟩) between b rest after := by
  constructor
  · intro h
    rcases h with ⟨h, e⟩
    obtain ⟨a, mid, between, hx, hf⟩ := read_bind_eq_ok.mp e
    exact ⟨a, mid, between, hx, h, hf⟩
  · intro h
    rcases h with ⟨a, mid, between, hx, h, hf⟩
    exact ⟨h, read_bind_eq_ok.mpr ⟨a, mid, between, hx, hf⟩⟩

@[simp] theorem tracks_reach {m : Milestone} {x : Tracked (Read α bound)} {a : α}
    {rest : List Token} :
    Tracks (do reach m; x) log a rest after ↔ Tracks x (log.push m) a rest after :=
  Iff.rfl

/-- Changing nothing but the bound of a reading changes nothing. -/
theorem tracks_map {f : Read α size → Read α bound} {x : Tracked (Read α size)} {a : α}
    {rest : List Token} (hf : ∀ r, (f r).value = r.value ∧ (f r).rest = r.rest) :
    Tracks (f <$> x) log a rest after ↔ Tracks x log a rest after := by
  cases hx : x log with
  | error r log' =>
    have hmap : (f <$> x) log = .error r log' := by
      show EStateM.map f x log = _
      rw [EStateM.map, hx]
    exact iff_of_false (not_tracks_of_error hmap) (not_tracks_of_error hx)
  | ok r log' =>
    obtain ⟨hvalue, hrest⟩ := hf r
    have hmap : (f <$> x) log = .ok (f r) log' := by
      show EStateM.map f x log = _
      rw [EStateM.map, hx]
    rw [tracks_of_ok hmap, tracks_of_ok hx, hvalue, hrest]

@[simp] theorem tracks_behind {ts : List Token} {t : Token} {x : Tracked (Read α ts.length)} {a : α}
    {rest : List Token} :
    Tracks (Read.behind t <$> x) log a rest after ↔ Tracks x log a rest after :=
  tracks_map fun _ => ⟨rfl, rfl⟩

@[simp] theorem tracks_next {r : Read α bound} {rule : TrackedRule β} {b : β} {rest : List Token} :
    Tracks (r.next rule) log b rest after ↔ Tracks (rule r.rest) log b rest after :=
  tracks_map fun _ => ⟨rfl, rfl⟩

@[simp] theorem tracks_nextOptional {r : Read α bound} {rule : OptionalTrackedRule β} {b : β}
    {rest : List Token} :
    Tracks (r.nextOptional rule) log b rest after ↔ Tracks (rule r.rest) log b rest after :=
  tracks_map fun _ => ⟨rfl, rfl⟩

end DivisionScript.Grammar
