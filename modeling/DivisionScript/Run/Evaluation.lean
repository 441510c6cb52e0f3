import DivisionScript.Log.Event
import DivisionScript.Run.Environment

/-!
# Run — Evaluation

The value of an expression in an environment. Every operand is evaluated, from left to right, and
turned into a number before the next one is looked at; nothing is skipped. Evaluation reads the
environment and writes nothing but reports.
-/

namespace DivisionScript

/-- A computation that may fail with a fault and that reports. -/
abbrev Evaluation (α : Type) := EStateM Fault Log α

namespace Evaluation

/-- Reports. -/
def note (event : Event) : Evaluation Unit :=
  modify (·.note event)

/-- A result without reports. -/
def lift {α : Type} : Except Fault α → Evaluation α
  | .ok a => pure a
  | .error f => throw f

/-- Reports a value and yields it. -/
def yield (value : Value) : Evaluation Value := do
  note (.evaluated value)
  pure value

end Evaluation

/-- Whether a comparison holds between two numbers. -/
def Comparison.holds (op : Comparison) (l r : Float) : Bool :=
  match op with
  | equal => l == r
  | notEqual => l != r
  | less => l < r
  | greater => l > r
  | lessEqual => l ≤ r
  | greaterEqual => l ≥ r

/-- The result of a sum. -/
def SumOp.apply (op : SumOp) (l r : Float) : Float :=
  match op with
  | add => l + r
  | sub => l - r

/-- The result of a term. Division by either zero is a fault. -/
def TermOp.apply (op : TermOp) (l r : Float) : Except Fault Float :=
  match op with
  | mul => .ok (l * r)
  | div => if r == 0.0 then .error .divisionByZero else .ok (l / r)

/-- The result of a power. Finite operands have to give a finite result. -/
def powerOf (base exponent : Float) : Except Fault Float :=
  let result := Float.pow base exponent
  if base.isFinite && exponent.isFinite && !result.isFinite then
    .error (.noFinitePower base exponent)
  else
    .ok result

/-- Reports a division that is about to fail. -/
def TermOp.report (op : TermOp) (l r : Float) : Evaluation Unit :=
  match op with
  | mul => pure ()
  | div => if r == 0.0 then Evaluation.note (.dividingByZero l) else pure ()

open Evaluation in
/-- The value of an expression. -/
def Expr.eval (env : Environment) : Expr → Evaluation Value
  | .number x => yield (.number x)
  | .string text => yield (.string text)
  | .identifier name => do
    note (.lookingUp name)
    let value ← lift (env.get name)
    yield value
  | .group inner => do
    let value ← inner.eval env
    yield value
  | .disjunction left right => do
    let l ← left.eval env
    let l ← lift l.isTruthy
    let r ← right.eval env
    let r ← lift r.isTruthy
    yield (.ofBool (l || r))
  | .conjunction left right => do
    let l ← left.eval env
    let l ← lift l.isTruthy
    let r ← right.eval env
    let r ← lift r.isTruthy
    yield (.ofBool (l && r))
  | .comparison left op right => do
    let l ← left.eval env
    let l ← lift l.asNumber
    let r ← right.eval env
    let r ← lift r.asNumber
    yield (.ofBool (op.holds l r))
  | .sum left op right => do
    let l ← left.eval env
    let l ← lift l.asNumber
    let r ← right.eval env
    let r ← lift r.asNumber
    yield (.number (op.apply l r))
  | .term left op right => do
    let l ← left.eval env
    let l ← lift l.asNumber
    let r ← right.eval env
    let r ← lift r.asNumber
    op.report l r
    let result ← lift (op.apply l r)
    yield (.number result)
  | .power base exponent => do
    let b ← base.eval env
    let b ← lift b.asNumber
    let e ← exponent.eval env
    let e ← lift e.asNumber
    let result ← lift (powerOf b e)
    yield (.number result)
  | .firstPower base => do
    let b ← base.eval env
    let b ← lift b.asNumber
    let result ← lift (powerOf b 1.0)
    yield (.number result)
  | .negate operand => do
    let x ← operand.eval env
    let x ← lift x.asNumber
    yield (.number (-x))

/-- The value of an expression, without its reports. -/
def Expr.value (e : Expr) (env : Environment) : Except Fault Value :=
  match e.eval env .off with
  | .ok v _ => .ok v
  | .error f _ => .error f

end DivisionScript
