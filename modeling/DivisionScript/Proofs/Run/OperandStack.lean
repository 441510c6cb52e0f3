import DivisionScript.Proofs.Run.Evaluation

/-!
# Run — Operand stack

Evaluation as a list of steps on a stack of operands. The steps of an expression are read off its
text from left to right: the steps of an operand, then its conversion to a number, then the same for
the next operand, then the operator. Evaluation is strict, so it is these steps one after another,
and nothing of an expression is skipped.
-/

namespace DivisionScript

/-- The operators with two operands. -/
inductive Operator where
  | or | and
  | comparison (op : Comparison)
  | sum (op : SumOp)
  | term (op : TermOp)
  | power

/-- The result of an operator. The logical ones ask whether their operands are other than zero. -/
def Operator.apply : Operator → Float → Float → Except Fault Value
  | or, l, r => .ok (.ofBool (l != 0.0 || r != 0.0))
  | and, l, r => .ok (.ofBool (l != 0.0 && r != 0.0))
  | comparison op, l, r => .ok (.ofBool (op.holds l r))
  | sum op, l, r => .ok (.number (op.apply l r))
  | term op, l, r => (op.apply l r).map .number
  | power, l, r => (powerOf l r).map .number

/-- A step of an evaluation. -/
inductive EvalStep where
  | push (value : Value)
  | lookUp (name : String)
  /-- Makes a number of the last operand. -/
  | convert
  | apply (op : Operator)
  | negate

/-- Why a step cannot be taken. -/
inductive Obstacle where
  | fault (fault : Fault)
  /-- The operands are not there, or are not converted. -/
  | operands

/-- A result of which only a fault can be missing. -/
def unobstructed {α : Type} : Except Fault α → Except Obstacle α :=
  Except.mapError .fault

/-- Takes a step on the operands, the last one first. -/
def EvalStep.take (env : Environment) : EvalStep → List Value → Except Obstacle (List Value)
  | push value, operands => .ok (value :: operands)
  | lookUp name, operands => (unobstructed (env.get name)).map (· :: operands)
  | convert, value :: operands => (unobstructed value.asNumber).map (.number · :: operands)
  | apply op, .number r :: .number l :: operands =>
    (unobstructed (op.apply l r)).map (· :: operands)
  | negate, .number x :: operands => .ok (.number (-x) :: operands)
  | _, _ => .error .operands

/-- Takes steps one after another. -/
def takeEach (env : Environment) : List EvalStep → List Value → Except Obstacle (List Value)
  | [], operands => .ok operands
  | step :: rest, operands => step.take env operands >>= takeEach env rest

/-- The steps of an operator: those of its left operand, a conversion, those of its right operand, a
conversion, and then its own. -/
def Operator.steps (op : Operator) (left right : List EvalStep) : List EvalStep :=
  left ++ .convert :: (right ++ [.convert, .apply op])

/-- The steps of an expression. Parentheses add none, and a power without an exponent has the
exponent one. -/
def Expr.steps : Expr → List EvalStep
  | .number x => [.push (.number x)]
  | .string text => [.push (.string text)]
  | .identifier name => [.lookUp name]
  | .group inner => inner.steps
  | .disjunction left right => Operator.or.steps left.steps right.steps
  | .conjunction left right => Operator.and.steps left.steps right.steps
  | .comparison left op right => (Operator.comparison op).steps left.steps right.steps
  | .sum left op right => (Operator.sum op).steps left.steps right.steps
  | .term left op right => (Operator.term op).steps left.steps right.steps
  | .power base exponent => Operator.power.steps base.steps exponent.steps
  | .firstPower base => Operator.power.steps base.steps [.push (.number 1.0)]
  | .negate operand => operand.steps ++ [.convert, .negate]

/-- An expression and all expressions inside it, in the order of the text. -/
def Expr.all : Expr → List Expr
  | .disjunction left right => .disjunction left right :: (left.all ++ right.all)
  | .conjunction left right => .conjunction left right :: (left.all ++ right.all)
  | .comparison left op right => .comparison left op right :: (left.all ++ right.all)
  | .sum left op right => .sum left op right :: (left.all ++ right.all)
  | .term left op right => .term left op right :: (left.all ++ right.all)
  | .power base exponent => .power base exponent :: (base.all ++ exponent.all)
  | .firstPower base => .firstPower base :: base.all
  | .negate operand => .negate operand :: operand.all
  | .group inner => .group inner :: inner.all
  | e => [e]

variable {env : Environment}

/-! ## Lists of steps -/

theorem takeEach_append (steps more : List EvalStep) (operands : List Value) :
    takeEach env (steps ++ more) operands = takeEach env steps operands >>= takeEach env more := by
  induction steps generalizing operands with
  | nil => rfl
  | cons step rest ih =>
    rw [List.cons_append, takeEach, takeEach]
    cases step.take env operands with
    | error obstacle => rfl
    | ok operands' => exact ih operands'

/-- Where steps succeed, each of them does. -/
theorem take_of_takeEach {before after : List EvalStep} {step : EvalStep}
    {operands result : List Value}
    (h : takeEach env (before ++ step :: after) operands = .ok result) :
    ∃ mid mid', takeEach env before operands = .ok mid ∧ step.take env mid = .ok mid' := by
  rw [takeEach_append] at h
  cases hbefore : takeEach env before operands with
  | error obstacle =>
    rw [hbefore] at h
    cases h
  | ok mid =>
    rw [hbefore] at h
    cases hstep : step.take env mid with
    | error obstacle =>
      rw [show (Except.ok mid >>= takeEach env (step :: after)) =
        step.take env mid >>= takeEach env after from rfl, hstep] at h
      cases h
    | ok mid' => exact ⟨mid, mid', rfl, hstep⟩

/-- Steps fail where the first one of them fails. -/
theorem takeEach_eq_error {steps : List EvalStep} {operands : List Value} {obstacle : Obstacle} :
    takeEach env steps operands = .error obstacle ↔
      ∃ before step after mid, steps = before ++ step :: after ∧
        takeEach env before operands = .ok mid ∧ step.take env mid = .error obstacle := by
  constructor
  · intro h
    induction steps generalizing operands with
    | nil => cases h
    | cons step rest ih =>
      rw [takeEach] at h
      cases hstep : step.take env operands with
      | error obstacle' =>
        rw [hstep] at h
        cases h
        exact ⟨[], step, rest, operands, rfl, rfl, hstep⟩
      | ok operands' =>
        rw [hstep] at h
        obtain ⟨before, failing, after, mid, rfl, hbefore, hfails⟩ := ih h
        refine ⟨step :: before, failing, after, mid, rfl, ?_, hfails⟩
        rw [takeEach, hstep]
        exact hbefore
  · rintro ⟨before, step, after, mid, rfl, hbefore, hfails⟩
    rw [takeEach_append, hbefore]
    show step.take env mid >>= takeEach env after = _
    rw [hfails]
    rfl

/-! ## Values without reports -/

namespace Evaluation

variable {α β : Type}

/-- What comes after a part has the result that it has without the reports of that part. -/
theorem outcome_bind (x : Evaluation α) {f : α → Evaluation β} (hf : ∀ a, Built (f a)) (log : Log) :
    outcome ((x >>= f) log) = outcome (x log) >>= fun a => outcome (f a .off) := by
  cases hx : x log with
  | ok a log' =>
    rw [bind_ok hx]
    exact (hf a).outcome_eq log'
  | error fault log' =>
    rw [bind_error hx]
    rfl

theorem outcome_lift (x : Except Fault α) (log : Log) : outcome (lift x log) = x := by
  cases x <;> rfl

/-- Two operands are evaluated and converted one after the other, and only then joined. -/
theorem outcome_operands {x y : Evaluation Value} {convert : Value → Except Fault α} {g : Float → α}
    {f : α → α → Evaluation Value} (hy : Built y) (hconvert : ∀ v, convert v = v.asNumber.map g)
    (hf : ∀ l r, Built (f l r)) (log : Log) :
    outcome ((do
        let l ← x
        let l ← lift (convert l)
        let r ← y
        let r ← lift (convert r)
        f l r) log) =
      (do
        let v ← outcome (x log)
        let l ← v.asNumber
        let w ← outcome (y .off)
        let r ← w.asNumber
        outcome (f (g l) (g r) .off)) := by
  have hshallow (v : Value) : Shallow (convert v) := by
    intro fault h
    rw [hconvert] at h
    cases hv : v.asNumber with
    | ok l =>
      rw [hv] at h
      cases h
    | error fault' =>
      rw [hv] at h
      cases h
      exact v.shallow_asNumber hv
  have hright (l : α) : Built (do
      let r ← y
      let r ← lift (convert r)
      f l r) :=
    hy.bind fun w => (Built.lift (hshallow w)).bind fun r => hf l r
  rw [outcome_bind x fun v => (Built.lift (hshallow v)).bind hright]
  congr 1
  funext v
  rw [outcome_bind _ hright, outcome_lift, hconvert]
  cases v.asNumber with
  | error fault => rfl
  | ok l =>
    show outcome _ = outcome (y .off) >>= _
    rw [outcome_bind y fun w => (Built.lift (hshallow w)).bind fun r => hf (g l) r]
    congr 1
    funext w
    rw [outcome_bind _ fun r => hf (g l) r, outcome_lift, hconvert]
    cases w.asNumber <;> rfl

end Evaluation

open Evaluation

/-- What an operator makes of the values of its operands. -/
def Operator.join (op : Operator) (left right : Except Fault Value) : Except Fault Value := do
  let v ← left
  let l ← v.asNumber
  let w ← right
  let r ← w.asNumber
  op.apply l r

section values

variable {left right : Expr}

/-- The value of an expression that evaluates and converts two operands and then joins them. -/
theorem Operator.value_eq (op : Operator) {α : Type} (g : Float → α) {e : Expr}
    {convert : Value → Except Fault α} {f : α → α → Evaluation Value}
    (heval : e.eval env = do
      let l ← left.eval env
      let l ← lift (convert l)
      let r ← right.eval env
      let r ← lift (convert r)
      f l r)
    (hconvert : ∀ v, convert v = v.asNumber.map g) (hf : ∀ l r, Built (f l r))
    (happly : ∀ l r, outcome (f (g l) (g r) .off) = op.apply l r) :
    e.value env = op.join (left.value env) (right.value env) := by
  rw [← e.outcome_eval env .off, ← left.outcome_eval env .off, ← right.outcome_eval env .off, heval,
    outcome_operands (right.built env) hconvert hf, join]
  simp only [happly]

/-- Where operands are taken as numbers, their conversion is all there is to do. -/
theorem Operator.value_eq_of_numbers (op : Operator) {e : Expr}
    {f : Float → Float → Evaluation Value}
    (heval : e.eval env = do
      let l ← left.eval env
      let l ← lift l.asNumber
      let r ← right.eval env
      let r ← lift r.asNumber
      f l r)
    (hf : ∀ l r, Built (f l r)) (happly : ∀ l r, outcome (f l r .off) = op.apply l r) :
    e.value env = op.join (left.value env) (right.value env) :=
  op.value_eq id heval (fun v => (congrFun Except.map_id v.asNumber).symm) hf happly

theorem TermOp.built (op : TermOp) (l r : Float) : Built (do
    op.report l r
    let result ← lift (op.apply l r)
    yield (.number result)) :=
  .bind (.report op l r) fun _ => .bind (.lift (op.shallow_apply l r)) fun _ => .yield _

theorem TermOp.outcome_eq (op : TermOp) (l r : Float) :
    outcome ((do
      op.report l r
      let result ← lift (op.apply l r)
      yield (.number result)) .off) = (Operator.term op).apply l r := by
  rw [outcome_bind _ fun _ => .bind (.lift (op.shallow_apply l r)) fun _ => .yield _,
    outcome_bind _ fun _ => .yield _, outcome_lift]
  have hreport : outcome (op.report l r .off) = .ok () := by
    cases op with
    | mul => rfl
    | div =>
      rw [report]
      split <;> rfl
  rw [hreport]
  show op.apply l r >>= _ = (op.apply l r).map _
  cases op.apply l r <;> rfl

theorem built_powerOf (b e : Float) : Built (do
    let result ← lift (powerOf b e)
    yield (.number result)) :=
  .bind (.lift (shallow_powerOf b e)) fun _ => .yield _

theorem outcome_powerOf (b e : Float) :
    outcome ((do
      let result ← lift (powerOf b e)
      yield (.number result)) .off) = Operator.power.apply b e := by
  rw [outcome_bind _ fun _ => .yield _, outcome_lift]
  show powerOf b e >>= _ = (powerOf b e).map _
  cases powerOf b e <;> rfl

theorem Expr.value_identifier (name : String) : (identifier name).value env = env.get name := by
  have hfound : Built (do
      let value ← lift (env.get name)
      yield value) :=
    .bind (.lift (env.shallow_get name)) fun _ => .yield _
  rw [← outcome_eval _ env .off, eval, outcome_bind _ fun _ => hfound]
  show outcome _ = _
  rw [outcome_bind _ fun _ => .yield _, outcome_lift]
  cases env.get name <;> rfl

theorem Expr.value_group (inner : Expr) : (group inner).value env = inner.value env := by
  rw [← outcome_eval _ env .off, eval, outcome_bind _ fun _ => .yield _, outcome_eval]
  cases inner.value env <;> rfl

/-- The exponent that is left out is one. -/
theorem Expr.value_firstPower (base : Expr) :
    (firstPower base).value env =
      Operator.power.join (base.value env) ((number 1.0).value env) := by
  have hpower (v : Value) : Built (do
      let b ← lift v.asNumber
      let result ← lift (powerOf b 1.0)
      yield (.number result)) :=
    .bind (.lift v.shallow_asNumber) fun b => built_powerOf b 1.0
  rw [← outcome_eval _ env .off, eval, outcome_bind _ hpower, outcome_eval]
  show _ = base.value env >>= _
  congr 1
  funext v
  rw [outcome_bind _ fun b => built_powerOf b 1.0, outcome_lift]
  congr 1
  funext b
  exact outcome_powerOf b 1.0

theorem Expr.value_negate (operand : Expr) :
    (negate operand).value env =
      (do
        let v ← operand.value env
        let x ← v.asNumber
        pure (.number (-x))) := by
  have hnegate (v : Value) : Built (do
      let x ← lift v.asNumber
      yield (.number (-x))) :=
    .bind (.lift v.shallow_asNumber) fun _ => .yield _
  rw [← outcome_eval _ env .off, eval, outcome_bind _ hnegate, outcome_eval]
  congr 1
  funext v
  rw [outcome_bind _ fun _ => .yield _, outcome_lift]
  rfl

end values

/-! ## The steps of an expression -/

theorem takeEach_convert (value : Value) (rest : List EvalStep) (operands : List Value) :
    takeEach env (.convert :: rest) (value :: operands) =
      unobstructed value.asNumber >>= fun x => takeEach env rest (.number x :: operands) := by
  rw [takeEach, EvalStep.take]
  cases value.asNumber <;> rfl

/-- The steps of an operator join the values of its operands, if theirs push these. -/
theorem takeEach_operator {left right : Expr} (op : Operator)
    (hleft : ∀ operands, takeEach env left.steps operands =
      (unobstructed (left.value env)).map (· :: operands))
    (hright : ∀ operands, takeEach env right.steps operands =
      (unobstructed (right.value env)).map (· :: operands)) (operands : List Value) :
    takeEach env (op.steps left.steps right.steps) operands =
      (unobstructed (op.join (left.value env) (right.value env))).map (· :: operands) := by
  rw [Operator.steps, takeEach_append, hleft, Operator.join]
  cases left.value env with
  | error fault => rfl
  | ok v =>
    show takeEach env (.convert :: _) (v :: operands) = _
    rw [takeEach_convert]
    show unobstructed v.asNumber >>= _ = (unobstructed (v.asNumber >>= _)).map _
    cases v.asNumber with
    | error fault => rfl
    | ok l =>
      show takeEach env (right.steps ++ _) (.number l :: operands) = _
      rw [takeEach_append, hright]
      show _ = (unobstructed (right.value env >>= _)).map _
      cases right.value env with
      | error fault => rfl
      | ok w =>
        show takeEach env (.convert :: _) (w :: .number l :: operands) = _
        rw [takeEach_convert]
        show unobstructed w.asNumber >>= _ = (unobstructed (w.asNumber >>= _)).map _
        cases w.asNumber with
        | error fault => rfl
        | ok r =>
          show (unobstructed (op.apply l r)).map _ >>= _ = (unobstructed (op.apply l r)).map _
          cases op.apply l r <;> rfl

/-- The steps of an expression push its value, whatever has been pushed before. -/
theorem Expr.takeEach_steps (env : Environment) (e : Expr) (operands : List Value) :
    takeEach env e.steps operands = (unobstructed (e.value env)).map (· :: operands) := by
  induction e generalizing operands with
  | number x => rfl
  | string text => rfl
  | identifier name =>
    rw [value_identifier, steps, takeEach, EvalStep.take]
    cases env.get name <;> rfl
  | group inner ih =>
    rw [value_group]
    exact ih operands
  | disjunction left right ihl ihr =>
    rw [Operator.or.value_eq (· != 0.0) rfl (fun _ => rfl) (fun _ _ => .yield _) fun _ _ => rfl]
    exact takeEach_operator .or ihl ihr operands
  | conjunction left right ihl ihr =>
    rw [Operator.and.value_eq (· != 0.0) rfl (fun _ => rfl) (fun _ _ => .yield _) fun _ _ => rfl]
    exact takeEach_operator .and ihl ihr operands
  | comparison left op right ihl ihr =>
    rw [(Operator.comparison op).value_eq_of_numbers rfl (fun _ _ => .yield _) fun _ _ => rfl]
    exact takeEach_operator (.comparison op) ihl ihr operands
  | sum left op right ihl ihr =>
    rw [(Operator.sum op).value_eq_of_numbers rfl (fun _ _ => .yield _) fun _ _ => rfl]
    exact takeEach_operator (.sum op) ihl ihr operands
  | term left op right ihl ihr =>
    rw [(Operator.term op).value_eq_of_numbers rfl op.built op.outcome_eq]
    exact takeEach_operator (.term op) ihl ihr operands
  | power base exponent ihb ihe =>
    rw [Operator.power.value_eq_of_numbers rfl built_powerOf outcome_powerOf]
    exact takeEach_operator .power ihb ihe operands
  | firstPower base ih =>
    have hone (operands : List Value) : takeEach env (number 1.0).steps operands =
        (unobstructed ((number 1.0).value env)).map (· :: operands) := rfl
    rw [value_firstPower]
    exact takeEach_operator .power ih hone operands
  | negate operand ih =>
    rw [value_negate, steps, takeEach_append, ih]
    cases operand.value env with
    | error fault => rfl
    | ok v =>
      show takeEach env [.convert, .negate] (v :: operands) = _
      rw [takeEach_convert]
      show _ = (unobstructed (v.asNumber >>= _)).map _
      cases v.asNumber <;> rfl

theorem Operator.left_infix (op : Operator) (left right : List EvalStep) :
    left <:+: op.steps left right :=
  (List.prefix_append ..).isInfix

theorem Operator.right_infix (op : Operator) (left right : List EvalStep) :
    right <:+: op.steps left right :=
  ⟨left ++ [.convert], [.convert, .apply op], by simp [steps]⟩

/-- The steps of a part stand together among those of the whole. -/
theorem Expr.steps_infix {part e : Expr} (h : part ∈ e.all) : part.steps <:+: e.steps := by
  induction e with
  | number | string | identifier =>
    obtain rfl := List.mem_singleton.mp h
    exact List.infix_rfl
  | disjunction left right ihl ihr | conjunction left right ihl ihr
  | comparison left op right ihl ihr | sum left op right ihl ihr | term left op right ihl ihr
  | power left right ihl ihr =>
    rw [all, List.mem_cons, List.mem_append] at h
    rcases h with rfl | h | h
    · exact List.infix_rfl
    · exact (ihl h).trans (Operator.left_infix ..)
    · exact (ihr h).trans (Operator.right_infix ..)
  | firstPower base ih =>
    rcases List.mem_cons.mp h with rfl | h
    · exact List.infix_rfl
    · exact (ih h).trans (Operator.left_infix ..)
  | negate operand ih =>
    rcases List.mem_cons.mp h with rfl | h
    · exact List.infix_rfl
    · exact (ih h).trans (List.prefix_append ..).isInfix
  | group inner ih =>
    rcases List.mem_cons.mp h with rfl | h
    · exact List.infix_rfl
    · exact ih h

/-- Where an expression has a value, all its parts have one. -/
theorem Expr.value_of_mem_all {part e : Expr} (h : part ∈ e.all) {value : Value}
    (hvalue : e.value env = .ok value) : ∃ w, part.value env = .ok w := by
  have hsteps := e.takeEach_steps env []
  obtain ⟨before, after, hinfix⟩ := steps_infix h
  rw [hvalue, ← hinfix, List.append_assoc, takeEach_append] at hsteps
  cases hbefore : takeEach env before [] with
  | error obstacle =>
    rw [hbefore] at hsteps
    cases hsteps
  | ok mid =>
    rw [hbefore] at hsteps
    cases hpart : part.value env with
    | ok w => exact ⟨w, rfl⟩
    | error fault =>
      have hfails : takeEach env (part.steps ++ after) mid = .error (.fault fault) := by
        rw [takeEach_append, takeEach_steps, hpart]
        rfl
      cases hfails.symm.trans hsteps

/-- Evaluation is strict and goes from left to right. It is the steps of the expression, taken one
after another on a stack of operands, and pushes its value on whatever is there. Where it succeeds,
every step has succeeded and every part of the expression has been evaluated, so no operand of a
logical operator is skipped; where it fails, the fault is that of the first step that fails. -/
theorem evaluation_is_strict (e : Expr) (env : Environment) (log : Log) :
    (∀ operands, takeEach env e.steps operands =
      (unobstructed (outcome (e.eval env log))).map (· :: operands)) ∧
    (∀ value, outcome (e.eval env log) = .ok value →
      (∀ before step after, e.steps = before ++ step :: after →
        ∃ mid mid', takeEach env before [] = .ok mid ∧ step.take env mid = .ok mid') ∧
      ∀ part ∈ e.all, ∃ w, outcome (part.eval env log) = .ok w) ∧
    ∀ fault, outcome (e.eval env log) = .error fault ↔
      ∃ before step after mid, e.steps = before ++ step :: after ∧
        takeEach env before [] = .ok mid ∧ step.take env mid = .error (.fault fault) := by
  rw [e.outcome_eval]
  refine ⟨e.takeEach_steps env, fun value hvalue => ⟨?_, ?_⟩, fun fault => ?_⟩
  · intro before step after hsteps
    have hall := e.takeEach_steps env []
    rw [hvalue, hsteps] at hall
    exact take_of_takeEach hall
  · intro part hpart
    rw [part.outcome_eval]
    exact Expr.value_of_mem_all hpart hvalue
  · have hall := e.takeEach_steps env []
    rw [← takeEach_eq_error, hall]
    cases e.value env with
    | ok value => exact iff_of_false nofun nofun
    | error fault' =>
      constructor
      · rintro ⟨⟩
        rfl
      · intro h
        cases h
        rfl

/-- A left operand that is no number is the fault, although the right one is unbound; and where a
logical operator has its result from its left operand, the right one has been evaluated. -/
theorem left_operand_converted_first :
    let failing : Expr := .sum (.string "a") .add (.identifier "y")
    let settled : Expr := .disjunction (.number 1.0) (.identifier "x")
    let env := Environment.empty.set "x" (.string "0")
    outcome (failing.eval env .off) = .error (.notNumber "a") ∧
    (∃ value, outcome (settled.eval env .off) = .ok value) ∧
    ∃ w, outcome ((Expr.identifier "x").eval env .off) = .ok w := by
  intro failing settled env
  have hfailing := (evaluation_is_strict failing env .off).2.2 (.notNumber "a")
  have hsettled := (evaluation_is_strict settled env .off).2.1
  have hvalue : ∃ value, outcome (settled.eval env .off) = .ok value := ⟨_, rfl⟩
  refine ⟨hfailing.mpr ⟨[.push (.string "a")], .convert, _, _, rfl, rfl, rfl⟩, hvalue, ?_⟩
  obtain ⟨value, hvalue⟩ := hvalue
  exact (hsettled value hvalue).2 (.identifier "x") (.tail _ (.tail _ (.head _)))

end DivisionScript
