import DivisionScript.Proofs.Run.Evaluation
import DivisionScript.Proofs.Run.Frame

/-!
# Run — Call

What a call that succeeds has done. Its body has run on the live environment of the caller with the
parameters written to it; afterwards the environment is that of the caller again, with the one
change that the name of the function has the value that the body left in the function's result.
-/

namespace DivisionScript

/-- The environment with names written one after another. -/
def Environment.setEach (env : Environment) : List (String × Value) → Environment
  | [] => env
  | (name, value) :: rest => (env.set name value).setEach rest

theorem Environment.get_set_self (env : Environment) (name : String) (value : Value) :
    (env.set name value).get name = .ok value := by
  rw [get, binding?_set, if_pos rfl]

namespace Run

variable {settings : Settings} {line : Nat} {name : String} {m m' : Machine}

theorem evaluate_eq_ok {e : Expr} {value : Value} (h : evaluate line e m = .ok value m') :
    e.value m.environment = .ok value ∧ ∃ log, m' = { m with log } := by
  have houtcome := e.outcome_eval m.environment m.log
  rw [evaluate, evaluation] at h
  cases heval : e.eval m.environment m.log with
  | ok v log =>
    rw [heval] at h houtcome
    cases h
    exact ⟨houtcome.symm, log, rfl⟩
  | error fault log =>
    rw [heval] at h
    cases h

theorem evaluateEach_eq_ok {args : List Expr} {values : List Value}
    (h : evaluateEach line args m = .ok values m') :
    args.mapM (fun e : Expr => e.value m.environment) = .ok values ∧
      ∃ log, m' = { m with log } := by
  induction args generalizing m values with
  | nil =>
    cases h
    exact ⟨rfl, _, rfl⟩
  | cons e rest ih =>
    obtain ⟨value, mid, hvalue, hmore⟩ := bind_eq_ok.mp h
    obtain ⟨more, mid', hrest, hlast⟩ := bind_eq_ok.mp hmore
    cases hlast
    obtain ⟨hfirst, log, rfl⟩ := evaluate_eq_ok hvalue
    obtain ⟨hothers, log', rfl⟩ := ih hrest
    refine ⟨?_, log', rfl⟩
    rw [List.mapM_cons, hfirst]
    show (do let vs ← rest.mapM fun e : Expr => e.value m.environment; pure (value :: vs)) = _
    rw [hothers]
    rfl

theorem evaluate_of_value (line : Nat) {e : Expr} {value : Value}
    (h : e.value m.environment = .ok value) :
    ∃ log, evaluate line e m = .ok value { m with log } := by
  have houtcome := (e.outcome_eval m.environment m.log).trans h
  rw [evaluate, evaluation]
  cases heval : e.eval m.environment m.log with
  | ok v log =>
    rw [heval] at houtcome
    cases houtcome
    exact ⟨log, rfl⟩
  | error fault log =>
    rw [heval] at houtcome
    cases houtcome

theorem evaluate_of_fault (line : Nat) {e : Expr} {fault : Fault}
    (h : e.value m.environment = .error fault) :
    ∃ log, evaluate line e m = .error ⟨fault, line⟩ { m with log } := by
  have houtcome := (e.outcome_eval m.environment m.log).trans h
  rw [evaluate, evaluation]
  cases heval : e.eval m.environment m.log with
  | ok v log =>
    rw [heval] at houtcome
    cases houtcome
  | error fault' log =>
    rw [heval] at houtcome
    cases houtcome
    exact ⟨log, rfl⟩

/-- The whole number that an expression denotes depends on its value alone. -/
theorem integer_eq (line : Nat) (e : Expr) (m : Machine) :
    ∃ log, integer line e m =
      lift line (e.value m.environment >>= Value.asInteger) { m with log } := by
  have houtcome := e.outcome_eval m.environment m.log
  rw [integer, ← houtcome]
  cases heval : e.eval m.environment m.log with
  | ok value log =>
    have hvalue : evaluate line e m = .ok value { m with log } := by
      rw [evaluate, evaluation, heval]
    exact ⟨log, bind_ok hvalue⟩
  | error fault log =>
    have hfault : evaluate line e m = .error ⟨fault, line⟩ { m with log } := by
      rw [evaluate, evaluation, heval]
    exact ⟨log, bind_error hfault⟩

/-- Arguments that have values are evaluated. -/
theorem evaluateEach_of_values (line : Nat) {args : List Expr} {values : List Value}
    (h : args.mapM (fun e : Expr => e.value m.environment) = .ok values) :
    ∃ log, evaluateEach line args m = .ok values { m with log } := by
  induction args generalizing m values with
  | nil =>
    cases h
    exact ⟨m.log, rfl⟩
  | cons e rest ih =>
    rw [List.mapM_cons] at h
    cases hvalue : e.value m.environment with
    | error fault =>
      rw [hvalue] at h
      cases h
    | ok value =>
      cases hmore : rest.mapM fun e : Expr => e.value m.environment with
      | error fault =>
        rw [hvalue, hmore] at h
        cases h
      | ok more =>
        rw [hvalue, hmore] at h
        cases h
        obtain ⟨log, hfirst⟩ := evaluate_of_value line hvalue
        obtain ⟨log', hrest⟩ := ih (m := { m with log }) hmore
        exact ⟨log', (bind_ok hfirst).trans (bind_ok hrest)⟩

theorem bind_written {value : Value} (h : bind settings line name value m = .ok () m') :
    ∃ log, m' = { m with environment := m.environment.set name value, log } := by
  rw [Run.bind] at h
  split at h
  · obtain ⟨env, mid, hwrite, hset⟩ := bind_eq_ok.mp h
    cases hset
    cases hconstant : m.environment.isConstant name with
    | true =>
      rw [write_of_constant line hconstant] at hwrite
      cases hwrite
    | false =>
      rw [write_of_free line hconstant] at hwrite
      cases hwrite
      exact ⟨m.log, rfl⟩
  · cases h
    exact ⟨m.log, rfl⟩

theorem bindEach_written {params : List String} {values : List Value}
    (h : bindEach settings line params values m = .ok () m') :
    ∃ log, m' = { m with environment := m.environment.setEach (params.zip values), log } := by
  induction params generalizing m values with
  | nil =>
    cases h
    exact ⟨_, rfl⟩
  | cons param params ih =>
    cases values with
    | nil =>
      cases h
      exact ⟨_, rfl⟩
    | cons value values =>
      obtain ⟨_, _, hnote, hmore⟩ := bind_eq_ok.mp h
      cases hnote
      obtain ⟨_, _, hbind, hrest⟩ := bind_eq_ok.mp hmore
      obtain ⟨log, rfl⟩ := bind_written hbind
      obtain ⟨log', rfl⟩ := ih hrest
      exact ⟨log', rfl⟩

theorem leaving_eq_ok {α : Type} {leave : Machine → Machine} {act : Run α} {a : α}
    (h : leaving leave act m = .ok a m') : ∃ mid, act m = .ok a mid ∧ m' = leave mid := by
  rw [leaving] at h
  cases hact : act m with
  | ok b mid =>
    rw [hact] at h
    cases h
    exact ⟨mid, rfl, rfl⟩
  | error failure mid =>
    rw [hact] at h
    cases h

/-- What the activation of a function that succeeds has done. -/
theorem activate_eq_ok {routine : Routine} {values : List Value} {enter : List Stmt → Run Unit}
    {value : Value} (h : activate settings line routine values enter m = .ok value m') :
    ∃ log after, enter routine.body
        { m with
          environment := m.environment.setEach (routine.params.zip values)
          depth := m.depth + 1
          log } = .ok () after ∧
      routine.value after.environment = value ∧
      m' = { after with environment := m.environment, depth := m.depth } := by
  obtain ⟨mid, hbody, rfl⟩ := leaving_eq_ok h
  obtain ⟨_, _, hparams, hmore⟩ := bind_eq_ok.mp hbody
  obtain ⟨_, after, henter, hreturn⟩ := bind_eq_ok.mp hmore
  obtain ⟨log, rfl⟩ := bindEach_written hparams
  rw [returned_eq] at hreturn
  cases hreturn
  exact ⟨log, _, henter, rfl, rfl⟩

end Run

open Run

variable {settings : Settings} {line : Nat} {name : String} {args : List Expr} {m m' : Machine}

/-- A body that a state may enter runs as it does from the state inside. -/
theorem enter_eq_statements {body : List Stmt} {enter : List Stmt → Run Unit} {inside : Machine}
    (henter : descent settings (m.levels settings) = some enter)
    (hinside : inside.depth = m.depth + 1) :
    enter body inside = Run.statements settings body inside := by
  cases hlevels : m.levels settings with
  | zero =>
    rw [hlevels, descent] at henter
    cases henter
  | succ levels =>
    have hbelow : inside.levels settings = levels := by
      rw [Machine.levels] at hlevels ⊢
      omega
    rw [hlevels, descent] at henter
    cases henter
    -- both sides count down from the same depth
    show executeBody settings (descent settings levels) body inside =
      executeBody settings (descent settings (inside.levels settings)) body inside
    rw [hbelow]

/-- What a call that succeeds has done, up to the reports. -/
theorem call_eq_ok {enter : Descent} (henter : enter = descent settings (m.levels settings))
    (h : call settings enter line name args m = .ok () m') :
    ∃ routine values log after,
      m.routines.get? name = some routine ∧ args.length = routine.params.length ∧
      args.mapM (fun e : Expr => e.value m.environment) = .ok values ∧
      Run.statements settings routine.body
        { m with
          environment := m.environment.setEach (routine.params.zip values)
          depth := m.depth + 1
          log } = .ok () after ∧
      ∃ log', m' = { after with
        environment := m.environment.set name (routine.value after.environment)
        depth := m.depth
        log := log' } := by
  obtain ⟨_, _, hstate, hmore⟩ := bind_eq_ok.mp h
  cases hstate
  cases hroutine : m.routines.get? name with
  | none =>
    rw [hroutine] at hmore
    cases hmore
  | some routine =>
    rw [hroutine] at hmore
    dsimp only at hmore
    split at hmore
    · cases hmore
    · next harity =>
      obtain ⟨values, _, hvalues, hmore⟩ := bind_eq_ok.mp hmore
      obtain ⟨hargs, log, rfl⟩ := evaluateEach_eq_ok hvalues
      cases enter with
      | none => cases hmore
      | some enter =>
        obtain ⟨_, _, hcalling, hmore⟩ := bind_eq_ok.mp hmore
        cases hcalling
        obtain ⟨value, _, hactivate, hmore⟩ := bind_eq_ok.mp hmore
        obtain ⟨log', after, hbody, rfl, rfl⟩ := activate_eq_ok hactivate
        obtain ⟨_, _, hreturned, hbind⟩ := bind_eq_ok.mp hmore
        cases hreturned
        obtain ⟨log'', rfl⟩ := bind_written hbind
        rw [enter_eq_statements henter.symm rfl] at hbody
        exact ⟨routine, values, log', after, rfl, Decidable.not_not.mp harity, hargs, hbody,
          log'', rfl⟩

/-- Calls keep to their protocol. The arguments of a call that succeeds have values in the
environment of the caller; the body runs in that environment with these values written to the
parameters; the functions, the random numbers, the input and the output are those that it leaves.
The environment is that of the caller again but for the name of the function, which has the value
of the function's result in the environment that the body left, zero if it had none there, and the
flag that it had before. -/
theorem call_protocol (h : Run.statement settings (.call line name args) m = .ok () m') :
    ∃ routine values log after,
      m.routines.get? name = some routine ∧ args.length = routine.params.length ∧
      args.mapM (fun e : Expr => e.value m.environment) = .ok values ∧
      Run.statements settings routine.body
        { m with
          environment := m.environment.setEach (routine.params.zip values)
          depth := m.depth + 1
          log } = .ok () after ∧
      m' = { after with
        environment := m.environment.set name (routine.value after.environment)
        depth := m.depth
        log := m'.log } ∧
      ∀ needle, m'.environment.binding? needle =
        if needle = name then
          some ⟨routine.value after.environment, m.environment.isConstant name⟩
        else m.environment.binding? needle := by
  obtain ⟨_, noted, hnote, hcall⟩ := bind_eq_ok.mp h
  cases hnote
  obtain ⟨routine, values, log, after, hroutine, harity, hvalues, hbody, log', rfl⟩ :=
    call_eq_ok rfl hcall
  exact ⟨routine, values, log, after, hroutine, harity, hvalues, hbody, rfl,
    fun needle => Environment.binding?_set ..⟩

/-- The parameter of `f` has the name of a variable of the caller, and the body overwrites it. -/
theorem call_protocol_aliased :
    let m : Machine :=
      { Machine.initial {} 0 ⟨[]⟩ .unlimited .off with
        environment := Environment.empty.set "x" (.string "old")
        routines := Table.empty.put "f" ⟨["x"], [.assign 1 "x" (.string "new") none], "x"⟩ }
    ∃ m', Run.statement {} (.call 4 "f" [.identifier "x"]) m = .ok () m' ∧
      m'.environment.binding? "x" = some ⟨.string "old", false⟩ := by
  intro m
  have hrun : ∃ m', Run.statement {} (.call 4 "f" [.identifier "x"]) m = .ok () m' := ⟨_, rfl⟩
  obtain ⟨m', h⟩ := hrun
  obtain ⟨routine, values, log, after, -, -, -, -, -, hbinding⟩ := call_protocol h
  exact ⟨m', h, (hbinding "x").trans rfl⟩

end DivisionScript
