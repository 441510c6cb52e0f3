import DivisionScript.Proofs.Number.Nearest
import DivisionScript.Proofs.Run.Call

/-!
# Run — Integer

What a value is as a whole number. A number whose value is a whole number from `-2 ^ 63` up to
`2 ^ 63 - 1` is that whole number. The one number beside these that is accepted is `2 ^ 63`, which
becomes the whole number before it.
-/

namespace DivisionScript

namespace Number

variable {x : Float} {n : Int}

/-- A number whose value is a whole number of the range of bounds. -/
def Integral (x : Float) (n : Int) : Prop :=
  x.isFinite ∧ value x = n ∧ -2 ^ 63 ≤ n ∧ n < 2 ^ 63

/-- A number that is accepted as a bound, and the bound that it becomes. -/
def Bound (x : Float) (n : Int) : Prop :=
  Integral x n ∨ x.isFinite ∧ value x = 2 ^ 63 ∧ n = 2 ^ 63 - 1

theorem Integral.of_whole (h : whole? x = some n) (hleast : -2 ^ 63 ≤ n) (hmost : n < 2 ^ 63) :
    Integral x n :=
  have ⟨hfinite, hvalue⟩ := whole?_eq_some_iff.mp h
  ⟨hfinite, hvalue, hleast, hmost⟩

/-- The whole numbers of a magnitude that is accepted. -/
theorem bound_iff : Bound x n ↔
    ∃ k, whole? x = some k ∧ k.natAbs ≤ wholeLimit ∧ n = min k Value.maxInteger := by
  have hlimit : wholeLimit = 2 ^ 63 := rfl
  have hgreatest : Value.maxInteger = 2 ^ 63 - 1 := rfl
  constructor
  · rintro (⟨hfinite, hvalue, hleast, hmost⟩ | ⟨hfinite, hvalue, rfl⟩)
    · exact ⟨n, whole?_eq_some_iff.mpr ⟨hfinite, hvalue⟩, by omega, by omega⟩
    · refine ⟨2 ^ 63, whole?_eq_some_iff.mpr ⟨hfinite, ?_⟩, by decide, by decide⟩
      rw [hvalue]
      norm_num
  · rintro ⟨k, hwhole, hle, rfl⟩
    obtain ⟨hfinite, hvalue⟩ := whole?_eq_some_iff.mp hwhole
    rcases le_or_gt k Value.maxInteger with hsmall | hlarge
    · rw [min_eq_left hsmall]
      exact .inl ⟨hfinite, hvalue, by omega, by omega⟩
    · obtain rfl : k = 2 ^ 63 := by omega
      refine .inr ⟨hfinite, ?_, min_eq_right hlarge.le⟩
      rw [hvalue]
      norm_num

end Number

open Number

theorem Value.asNumber_eq_error {v : Value} {fault : Fault} (h : v.asNumber = .error fault) :
    ∃ text, v = .string text ∧ fault = .notNumber text := by
  cases v with
  | number x => cases h
  | string text =>
    rw [asNumber] at h
    split at h
    · cases h
    · cases h
      exact ⟨text, rfl, rfl⟩

theorem Value.asInteger_eq_ok {v : Value} {n : Int} :
    v.asInteger = .ok n ↔ ∃ x, v.asNumber = .ok x ∧ Bound x n := by
  rw [asInteger]
  cases hnumber : v.asNumber with
  | error fault => simp
  | ok x =>
    simp only [Except.ok.injEq, exists_eq_left', bound_iff]
    cases hwhole : whole? x with
    | none => simp
    | some k =>
      dsimp only
      split
      · next hle => simp [hle, eq_comm]
      · next hgt => simp [hgt]

/-- The value of an expression is a bound if its number view is one. -/
theorem Expr.integer_eq_ok {env : Environment} {e : Expr} {n : Int} :
    e.value env >>= Value.asInteger = .ok n ↔
      ∃ x, e.value env >>= Value.asNumber = .ok x ∧ Bound x n := by
  cases e.value env with
  | error fault => exact iff_of_false nofun fun ⟨_, h, _⟩ => nomatch h
  | ok v => exact Value.asInteger_eq_ok

/-- A value that is a number but no bound. -/
theorem Value.asInteger_refused {v : Value} {x : Float} {fault : Fault} (hx : v.asNumber = .ok x)
    (h : v.asInteger = .error fault) : fault = .notInteger v := by
  rw [asInteger, hx] at h
  dsimp only at h
  split at h
  · cases h
    rfl
  · split at h
    · cases h
    · cases h
      rfl

theorem Value.asInteger_eq_error {v : Value} {fault : Fault} : v.asInteger = .error fault ↔
    (∃ text, v = .string text ∧ v.asNumber = .error fault ∧ fault = .notNumber text) ∨
      ∃ x, v.asNumber = .ok x ∧ (∀ n, ¬ Bound x n) ∧ fault = .notInteger v := by
  cases hnumber : v.asNumber with
  | error f =>
    have hinteger : v.asInteger = .error f := by rw [asInteger, hnumber]
    obtain ⟨text, rfl, rfl⟩ := asNumber_eq_error hnumber
    rw [hinteger]
    simp [eq_comm]
  | ok x =>
    constructor
    · intro h
      refine .inr ⟨x, rfl, fun n hn => ?_, asInteger_refused hnumber h⟩
      rw [asInteger_eq_ok.mpr ⟨x, hnumber, hn⟩] at h
      cases h
    · rintro (⟨_, _, h, _⟩ | ⟨_, hx, hnone, rfl⟩)
      · cases h
      · cases hx
        cases hinteger : v.asInteger with
        | ok n =>
          obtain ⟨y, hy, hn⟩ := asInteger_eq_ok.mp hinteger
          rw [hnumber] at hy
          cases hy
          exact absurd hn (hnone n)
        | error f => rw [asInteger_refused hnumber hinteger]

/-- An expression is a bound if its value is one. -/
theorem Run.integer_eq_ok {line : Nat} {e : Expr} {m : Machine} {v : Value} {n : Int}
    (hvalue : e.value m.environment = .ok v) :
    (∃ m', integer line e m = .ok n m') ↔ v.asInteger = .ok n := by
  obtain ⟨log, h⟩ := integer_eq line e m
  have hbound : e.value m.environment >>= Value.asInteger = v.asInteger := by
    rw [hvalue]
    rfl
  rw [h, hbound]
  cases v.asInteger with
  | ok k =>
    constructor
    · rintro ⟨m', ⟨⟩⟩
      rfl
    · rintro ⟨⟩
      exact ⟨_, rfl⟩
  | error fault => exact iff_of_false (fun ⟨_, h⟩ => nomatch h) nofun

/-- A value is read as the whole number that its number view is, and refused if this is none of the
range of bounds. -/
def Value.ReadExactly (v : Value) : Prop :=
  ∀ n, v.asInteger = .ok n ↔ ∃ x, v.asNumber = .ok x ∧ Integral x n

/-- The values that are read exactly are all but those whose number view is `2 ^ 63`. -/
theorem Value.readExactly_iff {v : Value} :
    v.ReadExactly ↔ ∀ x, v.asNumber = .ok x → x.isFinite → value x ≠ 2 ^ 63 := by
  constructor
  · intro hexact x hx hfinite hvalue
    have hread : v.asInteger = .ok (2 ^ 63 - 1) :=
      asInteger_eq_ok.mpr ⟨x, hx, .inr ⟨hfinite, hvalue, rfl⟩⟩
    obtain ⟨y, hy, -, hyvalue, -⟩ := (hexact _).mp hread
    rw [hx] at hy
    cases hy
    rw [hvalue] at hyvalue
    exact absurd (by exact_mod_cast hyvalue : (2 ^ 63 : Int) = 2 ^ 63 - 1) (by decide)
  · intro hother n
    rw [asInteger_eq_ok]
    constructor
    · rintro ⟨x, hx, hn | ⟨hfinite, hvalue, -⟩⟩
      · exact ⟨x, hx, hn⟩
      · exact absurd hvalue (hother x hx hfinite)
    · rintro ⟨x, hx, hn⟩
      exact ⟨x, hx, .inl hn⟩

/-- What a value is as a whole number. It is the whole number that its number view is, if this is
at least `-2 ^ 63` and less than `2 ^ 63`; the number `2 ^ 63` becomes the whole number before it;
and every other value is refused for its type. So all values but those with the number view `2 ^ 63`
are read exactly. A bound of a loop or of a random number is what the value of its expression is. -/
theorem bounds_are_exact_but_last (v : Value) :
    (∀ n, v.asInteger = .ok n ↔ ∃ x, v.asNumber = .ok x ∧
      (Integral x n ∨ x.isFinite ∧ value x = 2 ^ 63 ∧ n = 2 ^ 63 - 1)) ∧
    (∀ fault, v.asInteger = .error fault ↔
      (∃ text, v = .string text ∧ v.asNumber = .error fault ∧ fault = .notNumber text) ∨
      ∃ x, v.asNumber = .ok x ∧ (∀ n, ¬ Bound x n) ∧ fault = .notInteger v) ∧
    (v.ReadExactly ↔ ∀ x, v.asNumber = .ok x → x.isFinite → value x ≠ 2 ^ 63) ∧
    ∀ line e (m : Machine) n, e.value m.environment = .ok v →
      ((∃ m', Run.integer line e m = .ok n m') ↔ v.asInteger = .ok n) :=
  ⟨fun _ => Value.asInteger_eq_ok, fun _ => Value.asInteger_eq_error, Value.readExactly_iff,
    fun _ _ _ _ => Run.integer_eq_ok⟩

/-- The number `2 ^ 63` is accepted as a bound that it is not equal to. -/
theorem bound_below_two_pow_63 :
    let v : Value := .number (.ofBits 0x43E0000000000000)
    v.asInteger = .ok (2 ^ 63 - 1) ∧ ¬ v.ReadExactly := by
  intro v
  have hwhole : whole? (.ofBits 0x43E0000000000000) = some (2 ^ 63) := by decide +kernel
  obtain ⟨hfinite, hvalue⟩ := whole?_eq_some_iff.mp hwhole
  have hlast : value (.ofBits 0x43E0000000000000) = 2 ^ 63 := by
    rw [hvalue]
    norm_num
  refine ⟨Value.asInteger_eq_ok.mpr ⟨_, rfl, .inr ⟨hfinite, hlast, rfl⟩⟩, fun hexact => ?_⟩
  exact Value.readExactly_iff.mp hexact _ rfl hfinite hlast

end DivisionScript
