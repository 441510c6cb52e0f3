import DivisionScript.Proofs.Log
import DivisionScript.Proofs.State
import DivisionScript.Run.Machine

/-!
# Run — Evaluation, proved

How evaluations are put together, and what follows from it. Evaluation knows no lines, and what has
been reported has no influence on it: if other reports stand in a log, the value of an expression,
or its fault, is the same, and so are the reports made on the way. No evaluation faults for the
calls in progress, of which it knows nothing either.
-/

namespace DivisionScript

/-- The fault is not that too many calls are in progress. -/
def Fault.Ordinary (fault : Fault) : Prop :=
  ∀ limit, fault ≠ .callDepth limit

/-- A result that is no fault for the calls in progress. -/
def Shallow {α : Type} (x : Except Fault α) : Prop :=
  ∀ ⦃fault⦄, x = .error fault → fault.Ordinary

theorem Shallow.ok {α : Type} (a : α) : Shallow (.ok a) := by
  rintro fault ⟨⟩

theorem Shallow.error {α : Type} {fault : Fault} (h : fault.Ordinary) :
    Shallow (.error fault : Except Fault α) := by
  rintro _ ⟨⟩
  exact h

theorem Value.shallow_asNumber (v : Value) : Shallow v.asNumber := by
  rw [asNumber.eq_def]
  split
  · exact .ok _
  · split
    · exact .ok _
    · exact .error fun _ => nofun

theorem Value.shallow_isTruthy (v : Value) : Shallow v.isTruthy := by
  have hnumber := v.shallow_asNumber
  rw [isTruthy]
  cases h : v.asNumber with
  | ok x => exact .ok _
  | error fault => exact .error (hnumber h)

theorem Value.shallow_asInteger (v : Value) : Shallow v.asInteger := by
  have hnumber := v.shallow_asNumber
  rw [asInteger]
  cases h : v.asNumber with
  | error fault => exact .error (hnumber h)
  | ok x =>
    dsimp only
    split
    · exact .error fun _ => nofun
    · split
      · exact .ok _
      · exact .error fun _ => nofun

theorem Environment.shallow_get (env : Environment) (name : String) : Shallow (env.get name) := by
  rw [get]
  split
  · exact .ok _
  · exact .error fun _ => nofun

theorem TermOp.shallow_apply (op : TermOp) (l r : Float) : Shallow (op.apply l r) := by
  cases op with
  | mul => exact .ok _
  | div =>
    rw [apply]
    split
    · exact .error fun _ => nofun
    · exact .ok _

theorem shallow_powerOf (base exponent : Float) : Shallow (powerOf base exponent) := by
  rw [powerOf]
  split
  · exact .error fun _ => nofun
  · exact .ok _

namespace Evaluation

variable {α β : Type}

/-- An evaluation is put together from values, from reports without lines and from results that are
no fault for the calls in progress. -/
inductive Built : {α : Type} → Evaluation α → Prop
  | pure {α : Type} (a : α) : Built (pure a)
  | note {event : Event} (h : ∀ f, event.relabel f = event) : Built (note event)
  | lift {α : Type} {x : Except Fault α} (h : Shallow x) : Built (lift x)
  | bind {α β : Type} {x : Evaluation α} {f : α → Evaluation β} (hx : Built x)
      (hf : ∀ a, Built (f a)) : Built (x >>= f)

theorem Built.yield (value : Value) : Built (yield value) :=
  .bind (.note fun _ => rfl) fun _ => .pure value

theorem Built.report (op : TermOp) (l r : Float) : Built (op.report l r) := by
  cases op with
  | mul => exact .pure ()
  | div =>
    rw [TermOp.report]
    split
    · exact .note fun _ => rfl
    · exact .pure ()

/-- The two operands of an operator are evaluated and converted in the same way. -/
theorem Built.operands {x y : Evaluation Value} {convert : Value → Except Fault α}
    {f : α → α → Evaluation β} (hx : Built x) (hy : Built y)
    (hconvert : ∀ v, Shallow (convert v)) (hf : ∀ l r, Built (f l r)) :
    Built (do
      let l ← x
      let l ← Evaluation.lift (convert l)
      let r ← y
      let r ← Evaluation.lift (convert r)
      f l r) :=
  hx.bind fun v => (Built.lift (hconvert v)).bind fun _ => hy.bind fun w =>
    (Built.lift (hconvert w)).bind fun _ => hf _ _

/-- The result of an evaluation without its reports. -/
def outcome : EStateM.Result Fault Log α → Except Fault α
  | .ok a _ => .ok a
  | .error fault _ => .error fault

/-- Whatever becomes of the reports that there are, an evaluation goes on in the same way. -/
theorem Built.lineless {act : Evaluation α} (h : Built act) (ρ : Relabelling) :
    Mirrors ρ.log id act act := by
  induction h with
  | pure a => exact .pure a
  | @note event h =>
    intro log
    show EStateM.Result.ok () ((ρ.log log).note event) = .ok () (ρ.log (log.note event))
    rw [ρ.log_note, h]
  | @lift _ x h =>
    intro log
    cases x <;> rfl
  | bind _ _ ihx ihf => exact ihx.bind ihf

theorem Built.raises {act : Evaluation α} (h : Built act) : Raises Fault.Ordinary act := by
  induction h with
  | pure a => exact .pure a
  | note h => exact fun _ _ _ => nofun
  | @lift _ x h =>
    intro log fault log' hlift
    cases x with
    | ok a => cases hlift
    | error fault' =>
      cases hlift
      exact h rfl
  | bind _ _ ihx ihf => exact ihx.bind ihf

/-- With any reports before it, the result is the one without reports. -/
theorem Built.outcome_eq {act : Evaluation α} (h : Built act) (log : Log) :
    outcome (act log) = outcome (act .off) := by
  have hoff : act .off = _ := h.lineless (.silent id) log
  rw [hoff]
  cases act log <;> rfl

end Evaluation

open Evaluation

theorem Expr.built (e : Expr) (env : Environment) : Built (e.eval env) := by
  induction e with
  | number x => exact .yield _
  | string text => exact .yield _
  | identifier name =>
    exact .bind (.note fun _ => rfl) fun _ => .bind (.lift (env.shallow_get name)) fun _ => .yield _
  | group inner ih => exact ih.bind fun _ => .yield _
  | disjunction left right ihl ihr | conjunction left right ihl ihr =>
    exact .operands ihl ihr Value.shallow_isTruthy fun _ _ => .yield _
  | comparison left op right ihl ihr | sum left op right ihl ihr =>
    exact .operands ihl ihr Value.shallow_asNumber fun _ _ => .yield _
  | term left op right ihl ihr =>
    refine .operands ihl ihr Value.shallow_asNumber fun l r => .bind (.report op l r) fun _ => ?_
    exact .bind (.lift (op.shallow_apply l r)) fun _ => .yield _
  | power base exponent ihb ihe =>
    refine .operands ihb ihe Value.shallow_asNumber fun b e => ?_
    exact .bind (.lift (shallow_powerOf b e)) fun _ => .yield _
  | firstPower base ih =>
    refine ih.bind fun v => .bind (.lift v.shallow_asNumber) fun b => ?_
    exact .bind (.lift (shallow_powerOf b 1.0)) fun _ => .yield _
  | negate operand ih => exact ih.bind fun v => .bind (.lift v.shallow_asNumber) fun _ => .yield _

theorem Environment.built_write (env : Environment) (name : String) (value : Value) :
    Built (env.write name value) := by
  rw [write, assign]
  by_cases h : env.isConstant name
  · have hkept : Shallow (.error (.constant name) : Except Fault Environment) :=
      .error fun _ => nofun
    rw [if_pos h]
    exact .bind (.note fun _ => rfl) fun _ => .lift hkept
  · rw [if_neg h]
    exact .pure _

/-- With any reports before it, an evaluation has the result that it has without reports. -/
theorem Expr.outcome_eval (e : Expr) (env : Environment) (log : Log) :
    outcome (e.eval env log) = e.value env := by
  rw [(e.built env).outcome_eq, Expr.value]
  cases e.eval env .off <;> rfl

end DivisionScript
