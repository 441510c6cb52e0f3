import DivisionScript.Proofs.Run.OperandStack
import DivisionScript.Proofs.Run.Rename

/-!
# Run — Identifiers

What evaluation sees of an environment: whether the names in the expression are bound, and to which
values. The names are looked up in the order in which they stand in the expression, and none is left
out. So an expression that has a value has all its names bound, and if a name is reported as
missing, it is the first one that is.
-/

namespace DivisionScript

open Evaluation

variable {env env' : Environment} {x : String}

/-- Environments that agree on the names in an expression evaluate it alike, reports included. -/
theorem Expr.eval_congr (e : Expr) (h : ∀ name ∈ e.names, env'.get name = env.get name) :
    e.eval env' = e.eval env := by
  induction e with
  | number | string => rfl
  | identifier name => rw [eval, eval, h name (List.mem_singleton_self name)]
  | group inner ih | firstPower inner ih | negate inner ih => rw [eval, eval, ih h]
  | disjunction left right ihl ihr | conjunction left right ihl ihr
  | comparison left _ right ihl ihr | sum left _ right ihl ihr | term left _ right ihl ihr
  | power left right ihl ihr =>
    rw [names, List.forall_mem_append] at h
    rw [eval, eval, ihl h.1, ihr h.2]

/-! ## Names that are looked up -/

/-- The name that a step looks up. -/
def EvalStep.name? : EvalStep → Option String
  | lookUp name => some name
  | _ => none

theorem Operator.names_steps (op : Operator) (left right : List EvalStep) :
    (op.steps left right).filterMap EvalStep.name? =
      left.filterMap EvalStep.name? ++ right.filterMap EvalStep.name? := by
  rw [steps, List.filterMap_append, List.filterMap_cons_none rfl, List.filterMap_append]
  exact congrArg _ (List.append_nil _)

/-- The steps of an expression look up its names in order. -/
theorem Expr.names_steps (e : Expr) : e.steps.filterMap EvalStep.name? = e.names := by
  induction e with
  | number | string | identifier => rfl
  | group inner ih => exact ih
  | disjunction left right ihl ihr | conjunction left right ihl ihr
  | comparison left _ right ihl ihr | sum left _ right ihl ihr | term left _ right ihl ihr
  | power left right ihl ihr => rw [steps, Operator.names_steps, ihl, ihr, names]
  | firstPower base ih =>
    rw [steps, Operator.names_steps, ih]
    exact List.append_nil _
  | negate operand ih =>
    rw [steps, List.filterMap_append, ih]
    exact List.append_nil _

theorem Environment.get_eq_error {fault : Fault} :
    env.get x = .error fault ↔ env.contains x = false ∧ fault = .unbound x := by
  rw [get, contains]
  cases env.binding? x with
  | some b => simp
  | none => simp [eq_comm]

/-- A fault that carries no name is not that a name is missing. -/
theorem Nameless.ne_unbound {α : Type} {result : Except Fault α} (h : Nameless result) :
    result ≠ .error (.unbound x) := by
  rintro rfl
  have hrenamed : (Except.error (.unbound (x ++ "'")) : Except Fault α) = .error (.unbound x) :=
    h (· ++ "'")
  have hlength := congrArg String.length (Fault.unbound.inj (Except.error.inj hrenamed))
  rw [String.length_append] at hlength
  exact absurd hlength (Nat.ne_of_gt (Nat.lt_succ_self _))

theorem Operator.apply_ne_unbound (op : Operator) (l r : Float) :
    op.apply l r ≠ .error (.unbound x) := by
  have hmap {result : Except Fault Float} (h : result ≠ .error (.unbound x)) :
      result.map Value.number ≠ .error (.unbound x) := by
    rintro hresult
    cases result with
    | ok y => cases hresult
    | error fault => exact h (congrArg _ (Except.error.inj hresult))
  cases op with
  | or | and | comparison | sum => exact nofun
  | term op => exact hmap (op.nameless_apply l r).ne_unbound
  | power => exact hmap (nameless_powerOf l r).ne_unbound

theorem unobstructed_map_eq_fault {α β : Type} {result : Except Fault α} {f : α → β}
    {fault : Fault} :
    (unobstructed result).map f = .error (.fault fault) ↔ result = .error fault := by
  cases result with
  | ok a => exact iff_of_false nofun nofun
  | error fault' =>
    constructor
    · rintro ⟨⟩
      rfl
    · rintro ⟨⟩
      rfl

/-- Only a look-up finds that a name is not bound. -/
theorem EvalStep.take_eq_unbound {step : EvalStep} {operands : List Value}
    (h : step.take env operands = .error (.fault (.unbound x))) :
    step = .lookUp x ∧ env.contains x = false := by
  rw [take.eq_def] at h
  split at h
  · cases h
  · next name =>
    obtain ⟨hfree, ⟨⟩⟩ := Environment.get_eq_error.mp (unobstructed_map_eq_fault.mp h)
    exact ⟨rfl, hfree⟩
  · next value _ => exact absurd (unobstructed_map_eq_fault.mp h) value.nameless_asNumber.ne_unbound
  · next op r l _ => exact absurd (unobstructed_map_eq_fault.mp h) (op.apply_ne_unbound l r)
  · cases h
  · cases h

/-- Where steps succeed, the names that they look up are bound. -/
theorem bound_of_takeEach {steps : List EvalStep} {operands result : List Value}
    (h : takeEach env steps operands = .ok result) :
    ∀ name ∈ steps.filterMap EvalStep.name?, env.contains name := by
  intro name hname
  obtain ⟨step, hstep, hlookUp⟩ := List.mem_filterMap.mp hname
  obtain ⟨before, after, rfl⟩ := List.append_of_mem hstep
  obtain ⟨mid, mid', -, htake⟩ := take_of_takeEach h
  cases step with
  | lookUp found =>
    cases hlookUp
    refine (Bool.not_eq_false _).mp fun hfree => ?_
    rw [EvalStep.take, Environment.get_eq_error.mpr ⟨hfree, rfl⟩] at htake
    cases htake
  | _ => cases hlookUp

/-- Where steps fail because a name is not bound, it is the first name that they look up and that is
not bound. -/
theorem first_unbound_of_takeEach {steps : List EvalStep} {operands : List Value}
    (h : takeEach env steps operands = .error (.fault (.unbound x))) :
    ∃ before after, steps.filterMap EvalStep.name? = before ++ x :: after ∧
      (∀ name ∈ before, env.contains name) ∧ env.contains x = false := by
  obtain ⟨before, step, after, mid, rfl, hbefore, hfails⟩ := takeEach_eq_error.mp h
  obtain ⟨rfl, hfree⟩ := EvalStep.take_eq_unbound hfails
  refine ⟨before.filterMap EvalStep.name?, after.filterMap EvalStep.name?, ?_,
    bound_of_takeEach hbefore, hfree⟩
  rw [List.filterMap_append]
  rfl

/-- Evaluation sees the names in the expression and nothing else. Environments in which each of them
is bound to the same value, or bound in neither, give the same value or the same fault and the same
reports, whatever else is bound and whichever names are constants. An expression has a value only
where all its names are bound. If the fault is that a name is not bound, then the name stands in the
expression, it is not bound, and all names that stand before it are. -/
theorem evaluation_sees_names (e : Expr) (env : Environment) :
    (∀ env' : Environment, (∀ name ∈ e.names, env'.get name = env.get name) →
      e.eval env' = e.eval env) ∧
    (∀ log value, outcome (e.eval env log) = .ok value → ∀ name ∈ e.names, env.contains name) ∧
    ∀ log name, outcome (e.eval env log) = .error (.unbound name) →
      ∃ before after, e.names = before ++ name :: after ∧
        (∀ earlier ∈ before, env.contains earlier) ∧ env.contains name = false := by
  have hsteps := e.takeEach_steps env []
  refine ⟨fun env' => e.eval_congr, fun log value hvalue => ?_, fun log name hfault => ?_⟩
  · rw [e.outcome_eval] at hvalue
    rw [hvalue] at hsteps
    rw [← e.names_steps]
    exact bound_of_takeEach hsteps
  · rw [e.outcome_eval] at hfault
    rw [hfault] at hsteps
    rw [← e.names_steps]
    exact first_unbound_of_takeEach hsteps

/-- Of three names the second one is missing, and so is the third. Another environment has a flag on
the first one and binds a name that does not occur. -/
theorem evaluation_sees_names_of_sum :
    let e : Expr := .sum (.identifier "x") .add (.term (.identifier "y") .mul (.identifier "z"))
    let env := Environment.empty.set "x" (.string "1")
    let other := (Environment.empty.defineConstant "x" (.string "1")).set "w" (.number 2.0)
    outcome (e.eval env .off) = .error (.unbound "y") ∧ e.eval other = e.eval env ∧
    (∃ before after, e.names = before ++ "y" :: after ∧
      (∀ earlier ∈ before, env.contains earlier) ∧ env.contains "y" = false) ∧
    ∀ name ∈ (Expr.identifier "x").names, env.contains name := by
  intro e env other
  have hfault : outcome (e.eval env .off) = .error (.unbound "y") := rfl
  obtain ⟨hcongr, -, hfirst⟩ := evaluation_sees_names e env
  have hagree : ∀ name ∈ e.names, other.get name = env.get name := by
    intro name hname
    simp only [e, Expr.names, List.mem_append, List.mem_singleton] at hname
    rcases hname with rfl | rfl | rfl <;> rfl
  refine ⟨hfault, hcongr other hagree, hfirst .off "y" hfault, ?_⟩
  exact (evaluation_sees_names (.identifier "x") env).2.1 .off (.string "1") rfl

end DivisionScript
