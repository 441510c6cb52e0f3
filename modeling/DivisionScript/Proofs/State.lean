/-!
# State

How computations with a state that may fail go on: rules, evaluations and runs are all built this
way. Where only their results count, the reason of a failure is left out.
-/

namespace DivisionScript

variable {ε σ α β : Type} {x : EStateM ε σ α} {f : α → EStateM ε σ β} {s s' : σ}

/-- Where the first part succeeds, what follows decides. -/
theorem bind_ok {a : α} (h : x s = .ok a s') : (x >>= f) s = f a s' := by
  show EStateM.bind x f s = _
  rw [EStateM.bind, h]

/-- Where the first part fails, the whole does. -/
theorem bind_error {e : ε} (h : x s = .error e s') : (x >>= f) s = .error e s' := by
  show EStateM.bind x f s = _
  rw [EStateM.bind, h]

theorem get_bind {f : σ → EStateM ε σ β} : (get >>= f) s = f s s :=
  rfl

theorem set_bind {f : PUnit → EStateM ε σ β} : (set s' >>= f) s = f ⟨⟩ s' :=
  rfl

theorem bind_eq_ok {b : β} :
    (x >>= f) s = .ok b s' ↔ ∃ a mid, x s = .ok a mid ∧ f a mid = .ok b s' := by
  cases hx : x s with
  | ok a mid =>
    rw [bind_ok hx]
    constructor
    · exact fun h => ⟨a, mid, rfl, h⟩
    · intro h
      rcases h with ⟨a, mid, e, h⟩
      cases e
      exact h
  | error e mid =>
    rw [bind_error hx]
    constructor
    · rintro ⟨⟩
    · intro h
      rcases h with ⟨a, mid, ⟨⟩, -⟩

theorem bind_eq_error {e : ε} :
    (x >>= f) s = .error e s' ↔
      x s = .error e s' ∨ ∃ a mid, x s = .ok a mid ∧ f a mid = .error e s' := by
  cases hx : x s with
  | ok a mid =>
    rw [bind_ok hx]
    constructor
    · exact fun h => .inr ⟨a, mid, rfl, h⟩
    · rintro (⟨⟨⟩⟩ | ⟨a, mid, h, hf⟩)
      cases h
      exact hf
  | error e' mid =>
    rw [bind_error hx]
    constructor
    · rintro ⟨⟩
      exact .inl rfl
    · rintro (⟨⟨⟩⟩ | ⟨a, mid, ⟨⟩, -⟩)
      rfl

/-- What follows counts only where the first part leads. -/
theorem bind_congr_ok {y : EStateM ε σ α} {g : α → EStateM ε σ β} (hxy : x s = y s)
    (h : ∀ a mid, y s = .ok a mid → f a mid = g a mid) : (x >>= f) s = (y >>= g) s := by
  cases hy : y s with
  | ok a mid => rw [bind_ok hy, bind_ok (hxy.trans hy), h a mid hy]
  | error e mid => rw [bind_error hy, bind_error (hxy.trans hy)]

/-- Where a list of computations fails, those before some place have succeeded, and the one at that
place has failed. -/
theorem forM_eq_error {act : α → EStateM ε σ PUnit} {xs : List α} {e : ε} :
    xs.forM act s = .error e s' ↔
      ∃ before x after, xs = before ++ x :: after ∧ ∃ mid, before.forM act s = .ok ⟨⟩ mid ∧
        act x mid = .error e s' := by
  induction xs generalizing s with
  | nil =>
    constructor
    · rintro ⟨⟩
    · rintro ⟨before, x, after, hxs, -⟩
      cases (List.append_eq_nil_iff.mp hxs.symm).2
  | cons first rest ih =>
    rw [List.forM, bind_eq_error]
    constructor
    · rintro (h | ⟨_, mid, hfirst, h⟩)
      · exact ⟨[], first, rest, rfl, s, rfl, h⟩
      · obtain ⟨before, x, after, rfl, mid', hbefore, h⟩ := ih.mp h
        exact ⟨first :: before, x, after, rfl, mid', (bind_ok hfirst).trans hbefore, h⟩
    · rintro ⟨before, x, after, hxs, mid, hbefore, h⟩
      cases before with
      | nil =>
        cases hxs
        cases hbefore
        exact .inl h
      | cons _ before =>
        cases hxs
        obtain ⟨_, mid', hfirst, hrest⟩ := bind_eq_ok.mp hbefore
        exact .inr ⟨_, mid', hfirst, ih.mpr ⟨before, x, after, rfl, mid, hrest, h⟩⟩

/-! ## Which failures there are -/

/-- The failure of a result, if there is one. -/
def failure? : EStateM.Result ε σ α → Option ε
  | .ok _ _ => none
  | .error e _ => some e

theorem failure?_eq_some {result : EStateM.Result ε σ α} {e : ε} :
    failure? result = some e ↔ ∃ s, result = .error e s := by
  cases result <;> simp [failure?]

theorem failure?_eq_none {result : EStateM.Result ε σ α} :
    failure? result = none ↔ ∃ a s, result = .ok a s := by
  cases result <;> simp [failure?]

/-- All failures of a computation have a property. -/
def Raises (P : ε → Prop) (x : EStateM ε σ α) : Prop :=
  ∀ ⦃s e s'⦄, x s = .error e s' → P e

namespace Raises

variable {P Q : ε → Prop}

theorem mono (h : Raises P x) (hPQ : ∀ e, P e → Q e) : Raises Q x :=
  fun _ e _ hx => hPQ e (h hx)

theorem pure (a : α) : Raises P (pure a : EStateM ε σ α) :=
  fun _ _ _ => nofun

theorem bind (hx : Raises P x) (hf : ∀ a, Raises P (f a)) : Raises P (x >>= f) := by
  intro s e s' h
  rcases bind_eq_error.mp h with h | ⟨a, mid, -, h⟩
  · exact hx h
  · exact hf a h

theorem get {g : σ → EStateM ε σ β} (h : ∀ s, Raises P (g s)) :
    Raises P (MonadState.get >>= g) :=
  fun s _ _ e => h s e

theorem ite {c : Prop} [Decidable c] {y : EStateM ε σ α} (hx : Raises P x) (hy : Raises P y) :
    Raises P (if c then x else y) := by
  split
  · exact hx
  · exact hy

end Raises

/-! ## Other states and failures -/

/-- A result with its state and its failure replaced. -/
def mapResult (state : σ → σ) (failure : ε → ε) : EStateM.Result ε σ α → EStateM.Result ε σ α
  | .ok a s => .ok a (state s)
  | .error e s => .error (failure e) (state s)

/-- The second computation does from the image of a state what the first one does from the state. -/
def Mirrors (state : σ → σ) (failure : ε → ε) (x x' : EStateM ε σ α) : Prop :=
  ∀ s, x' (state s) = mapResult state failure (x s)

namespace Mirrors

variable {state : σ → σ} {failure : ε → ε} {x' : EStateM ε σ α} {f' : α → EStateM ε σ β}

theorem pure (a : α) : Mirrors state failure (pure a) (pure a) :=
  fun _ => rfl

/-- It is enough that the first part is mirrored from the state where it begins. -/
theorem bind_at {s : σ} (hx : x' (state s) = mapResult state failure (x s))
    (hf : ∀ a, Mirrors state failure (f a) (f' a)) :
    (x' >>= f') (state s) = mapResult state failure ((x >>= f) s) := by
  cases h : x s with
  | ok a mid =>
    rw [h] at hx
    rw [bind_ok h, bind_ok hx]
    exact hf a mid
  | error e mid =>
    rw [h] at hx
    rw [bind_error h, bind_error hx]
    rfl

theorem bind (hx : Mirrors state failure x x') (hf : ∀ a, Mirrors state failure (f a) (f' a)) :
    Mirrors state failure (x >>= f) (x' >>= f') :=
  fun s => bind_at (hx s) hf

theorem get {g g' : σ → EStateM ε σ β} (h : ∀ s, Mirrors state failure (g s) (g' (state s))) :
    Mirrors state failure (MonadState.get >>= g) (MonadState.get >>= g') :=
  fun s => h s s

theorem set (s : σ) : Mirrors state failure (set s) (set (state s)) :=
  fun _ => rfl

theorem modify {g : σ → σ} (h : ∀ s, g (state s) = state (g s)) :
    Mirrors state failure (modify g) (modify g) :=
  fun s => congrArg (EStateM.Result.ok PUnit.unit) (h s)

theorem ite {c : Prop} [Decidable c] {y y' : EStateM ε σ α} (hx : Mirrors state failure x x')
    (hy : Mirrors state failure y y') :
    Mirrors state failure (if c then x else y) (if c then x' else y') := by
  split
  · exact hx
  · exact hy

end Mirrors

/-! Results without the reason of a failure. -/

section

variable {result : Except ε α}

theorem toOption_eq_some_iff {a : α} : result.toOption = some a ↔ result = .ok a := by
  cases result with
  | ok a' => exact ⟨fun h => congrArg Except.ok (Option.some.inj h), fun h => by rw [h]; rfl⟩
  | error e => exact ⟨(nomatch ·), (nomatch ·)⟩

theorem toOption_eq_none_iff : result.toOption = none ↔ ∃ e, result = .error e := by
  cases result with
  | ok a => exact ⟨(nomatch ·), fun h => nomatch h.choose_spec⟩
  | error e => exact iff_of_true rfl ⟨e, rfl⟩

end

end DivisionScript
