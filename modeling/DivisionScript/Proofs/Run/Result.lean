import DivisionScript.Proofs.Run.Constants
import DivisionScript.Proofs.Run.Counting
import DivisionScript.Proofs.Run.Targets

/-!
# Run — Result

What a function returns whose body does not set the result. The body works on the one table of its
caller, and what the calls that it makes write is taken back with their environments. So whatever
else is executed, a name that the body does not write itself has at the end the binding that it had
where the body began, which for all names but the parameters is the caller's (`unset_result`). The
invariant of the steps is the environment that would be left if all that is still to be done were
given up: it is the one of the body itself, also while calls are in progress inside.
-/

namespace DivisionScript

open Run

/-- The state that is left where all that is still to be done is given up. -/
def Config.abandoned (c : Config) : Machine :=
  giveUpEach c.tasks c.machine

/-- The name that the next step writes, if it succeeds, after the number of the calls that have been
begun and are still in progress where it is written. -/
def Config.written? (c : Config) : Option (Nat × String) :=
  match c.tasks, c.failure with
  | task :: rest, none => task.target?.map fun name => (rest.countP Task.isLeave, name)
  | _, _ => none

variable {settings : Settings} {needle name : String} {line : Nat} {m m' : Machine}
variable {task : Task} {tasks more rest : List Task} {past : List Config} {start c c' : Config}

/-! ## Giving up -/

/-- Where a call is in progress, the environment that is left does not depend on the present one. -/
theorem binding?_giveUpEach
    (h : m'.environment.binding? needle = m.environment.binding? needle ∨
      0 < tasks.countP Task.isLeave) :
    (giveUpEach tasks m').environment.binding? needle =
      (giveUpEach tasks m).environment.binding? needle := by
  induction tasks generalizing m m' with
  | nil => exact h.resolve_right (Nat.lt_irrefl 0)
  | cons task rest ih =>
    cases task with
    | leave => exact ih (.inl rfl)
    | _ => exact ih h

theorem giveUpEach_append (more rest : List Task) (m : Machine) :
    giveUpEach (more ++ rest) m = giveUpEach rest (giveUpEach more m) :=
  List.foldl_append

/-- What a task has left to be done puts back no other environment than the one that it left. -/
theorem environment_giveUpEach (h : ∀ task ∈ tasks, task.Follows m.environment) :
    (giveUpEach tasks m).environment = m.environment := by
  induction tasks generalizing m with
  | nil => rfl
  | cons task rest ih =>
    obtain ⟨hfirst, hrest⟩ := List.forall_mem_cons.mp h
    have hsame : (task.giveUp m).environment = m.environment := by
      rcases task.environment_giveUp m with hlive | hcaller
      · exact hlive
      · exact hfirst.2 _ hcaller
    exact (ih (hsame ▸ hrest)).trans hsame

/-! ## One step -/

/-- A task leaves the binding of a name that it does not write. -/
theorem Task.binding?_perform (hplain : task.declares = false) (hname : task.target? ≠ some needle)
    (m : Machine) :
    (left (task.perform settings m)).environment.binding? needle =
      (task.giveUp m).environment.binding? needle := by
  have hnone : ∀ ds, task ≠ .declarations ds := by
    rintro ds rfl
    cases hplain
  have hextends : Environment.Extends task.target?.toList (task.giveUp m).environment
      (left (task.perform settings m)).environment :=
    Task.leads_perform hnone
      (fun _ hwritten => Environment.Extends.allows (Option.mem_toList.mpr hwritten)) m
  exact hextends.binding?_eq needle (mt Option.mem_toList.mp hname)

namespace Config

/-- A step changes the binding only of a name that is written where no call is in progress. -/
theorem binding?_abandoned (hplain : ∀ task ∈ c.tasks, task.declares = false)
    (hunwritten : c.written? ≠ some (0, needle)) (hstep : c.step settings = some c') :
    c'.abandoned.environment.binding? needle = c.abandoned.environment.binding? needle := by
  obtain ⟨m, task, rest, ⟨rfl, rfl⟩ | ⟨failure, rfl, rfl⟩⟩ := step_eq_some hstep
  · have hfirst : task.declares = false := hplain task List.mem_cons_self
    have hleft : (left (task.perform settings m)).environment.binding? needle =
        (task.giveUp m).environment.binding? needle ∨ 0 < rest.countP Task.isLeave := by
      by_cases hname : task.target? = some needle
      · refine .inr (Nat.pos_of_ne_zero fun hzero => hunwritten ?_)
        show task.target?.map _ = _
        rw [hname, Option.map_some, hzero]
      · exact .inl (Task.binding?_perform hfirst hname m)
    cases hperform : task.perform settings m with
    | error failure m' =>
      rw [hperform] at hleft
      exact binding?_giveUpEach hleft
    | ok more m' =>
      rw [hperform] at hleft
      have hmore := environment_giveUpEach (Task.forwards hfirst hperform)
      show (giveUpEach (more ++ rest) m').environment.binding? needle = _
      rw [giveUpEach_append]
      exact binding?_giveUpEach (hmore ▸ hleft)
  · rfl

/-- A step that carries out no declaration leaves none to be carried out. -/
theorem declares_step (hplain : ∀ task ∈ c.tasks, task.declares = false)
    (hstep : c.step settings = some c') : ∀ task ∈ c'.tasks, task.declares = false := by
  obtain ⟨m, task, rest, ⟨rfl, rfl⟩ | ⟨failure, rfl, rfl⟩⟩ := step_eq_some hstep
  · obtain ⟨hfirst, hrest⟩ := List.forall_mem_cons.mp hplain
    cases hperform : task.perform settings m with
    | error failure m' => exact hrest
    | ok more m' =>
      refine List.forall_mem_append.mpr ⟨fun later hlater => ?_, hrest⟩
      exact (Task.forwards hfirst hperform later hlater).1
  · exact (List.forall_mem_cons.mp hplain).2

end Config

/-! ## All steps -/

/-- A name that no step writes where no call is in progress keeps its binding. -/
theorem Path.binding?_abandoned (h : Path settings start past c)
    (hplain : ∀ task ∈ start.tasks, task.declares = false)
    (hunwritten : some (0, needle) ∉ past.map Config.written?) :
    (∀ task ∈ c.tasks, task.declares = false) ∧
      c.abandoned.environment.binding? needle =
        start.abandoned.environment.binding? needle := by
  induction h with
  | begun => exact ⟨hplain, rfl⟩
  | @step past before c _ hstep ih =>
    rw [List.map_cons, List.mem_cons, not_or] at hunwritten
    obtain ⟨hbefore, hsame⟩ := ih hunwritten.2
    have hnow := Config.binding?_abandoned hbefore (Ne.symm hunwritten.1) hstep
    exact ⟨Config.declares_step hbefore hstep, hnow.trans hsame⟩

/-! ## Calls -/

/-- Writing parameters leaves all other names alone. -/
theorem Environment.binding?_setEach {params : List String} (h : needle ∉ params)
    (env : Environment) (values : List Value) :
    (env.setEach (params.zip values)).binding? needle = env.binding? needle := by
  induction params generalizing env values with
  | nil => rfl
  | cons param params ih =>
    cases values with
    | nil => rfl
    | cons value values =>
      rw [List.mem_cons, not_or] at h
      rw [List.zip_cons_cons, setEach, ih h.2, binding?_set, if_neg h.1]

/-- What a function returns is what its result has, and zero if it has none. -/
theorem Routine.value_eq (routine : Routine) (env : Environment) :
    (env.contains routine.result = false → routine.value env = .number 0.0) ∧
      ∀ v, env.get routine.result = .ok v → routine.value env = v := by
  constructor
  · intro hunbound
    have hnone : env.binding? routine.result = none := Option.not_isSome_iff_eq_none.mp
      (Bool.eq_false_iff.mp hunbound)
    rw [value, Environment.get, hnone]
  · intro v hv
    rw [value, hv]

theorem Routine.value_congr {routine : Routine} {env env' : Environment}
    (h : env'.binding? routine.result = env.binding? routine.result) :
    routine.value env' = routine.value env := by
  rw [value, value, Environment.get, Environment.get, h]

/-- Reports have no influence on the environment that a body leaves. -/
theorem environment_statements {body : List Stmt} {after : Machine} {log : Log}
    (hbody : Run.statements settings body m = .ok () after)
    (hpath : Path settings ⟨{ m with log }, [.block body], none⟩ past c) (hover : c.Halted) :
    c.machine.environment = after.environment := by
  have hresult : Run.statements settings body { m with log } = c.result :=
    show (Order.statements body).run settings { m with log } = c.result from
      Order.run_eq hpath.reaches hover
  have hsame : unreportedResult (Run.statements settings body { m with log }) =
      unreportedResult (Run.statements settings body m) :=
    (hushes_statements body { m with log }).symm.trans (hushes_statements body m)
  rw [hresult, hbody, Config.result] at hsame
  cases hfailure : c.failure with
  | some failure =>
    rw [hfailure] at hsame
    cases hsame
  | none =>
    rw [hfailure] at hsame
    injection hsame with _ hmachine
    have henv := congrArg Machine.environment hmachine
    exact henv

/-- A result that the body does not set is the caller's. For every call that succeeds, if the result
of the function is none of its parameters and no step of its body writes it outside the calls that
the body makes, then the name of the function gets the value that the result has in the environment
of the caller, and zero if it has none there. -/
theorem unset_result {args : List Expr} {routine : Routine} {values : List Value} {log : Log}
    (h : Run.statement settings (.call line name args) m = .ok () m')
    (hroutine : m.routines.get? name = some routine)
    (hvalues : args.mapM (fun e : Expr => e.value m.environment) = .ok values)
    (hpath : Path settings
      ⟨{ m with
          environment := m.environment.setEach (routine.params.zip values)
          depth := m.depth + 1
          log }, [.block routine.body], none⟩ past c)
    (hover : c.Halted) (hparam : routine.result ∉ routine.params)
    (hunwritten : some (0, routine.result) ∉ past.map Config.written?) :
    (m.environment.contains routine.result = false → m'.environment.get name = .ok (.number 0.0)) ∧
      ∀ value, m.environment.get routine.result = .ok value →
        m'.environment.get name = .ok value := by
  obtain ⟨_, noted, hnote, hcall⟩ := bind_eq_ok.mp h
  cases hnote
  obtain ⟨_, _, _, after, hroutine', -, hvalues', hbody, _, rfl⟩ := call_eq_ok rfl hcall
  cases hroutine.symm.trans hroutine'
  cases hvalues.symm.trans hvalues'
  have hafter : c.machine.environment = after.environment :=
    environment_statements hbody hpath hover
  have hkept := (hpath.binding?_abandoned (by simp [Task.declares]) hunwritten).2
  have hbinding : after.environment.binding? routine.result =
      m.environment.binding? routine.result := by
    rw [← hafter, ← Environment.binding?_setEach hparam m.environment values]
    rwa [Config.abandoned, hover] at hkept
  have hget : (m.environment.set name (routine.value after.environment)).get name =
      .ok (routine.value m.environment) := by
    rw [Environment.get_set_self, Routine.value_congr hbinding]
  obtain ⟨hzero, hvalue⟩ := routine.value_eq m.environment
  exact ⟨fun hunbound => hzero hunbound ▸ hget, fun v hv => hvalue v hv ▸ hget⟩

/-- The body of `f` calls `g`, whose parameter has the name of the result of `f`. -/
theorem unset_result_beside_parameter :
    let m : Machine :=
      { Machine.initial {} 0 ⟨[]⟩ .unlimited .off with
        environment := Environment.empty.set "r" (.string "old")
        routines := (Table.empty.put "f" ⟨[], [.call 1 "g" [.string "new"]], "r"⟩).put "g"
          ⟨["r"], [], "r"⟩ }
    ∃ m', Run.statement {} (.call 2 "f" []) m = .ok () m' ∧
      m'.environment.get "f" = .ok (.string "old") := by
  intro m
  have hsuccess : failure? (Run.statement {} (.call 2 "f" []) m) = none := by decide +kernel
  obtain ⟨⟨⟩, m', h⟩ := failure?_eq_none.mp hsuccess
  have hcalling : Path {} ⟨{ m with depth := 1 }, [.block [.call 1 "g" [.string "new"]]], none⟩
      _ _ := ((Path.begun.step rfl).step rfl).step rfl
  have hinside := (((hcalling.step rfl).step rfl).step rfl).step rfl
  have hpath := (hinside.step rfl).step rfl
  have hresult := unset_result h rfl rfl hpath rfl (by decide) (by decide)
  exact ⟨m', h, hresult.2 (.string "old") rfl⟩

/-- Where the caller has bound the name of the result, a function with nothing in its body does not
return zero. -/
theorem unset_result_not_zero :
    ¬ ∀ (settings : Settings) (line : Nat) (name : String) (args : List Expr) (m m' : Machine)
        (routine : Routine) (values : List Value) (log : Log) (past : List Config) (c : Config),
      Run.statement settings (.call line name args) m = .ok () m' →
      m.routines.get? name = some routine →
      args.mapM (fun e : Expr => e.value m.environment) = .ok values →
      Path settings
        ⟨{ m with
            environment := m.environment.setEach (routine.params.zip values)
            depth := m.depth + 1
            log }, [.block routine.body], none⟩ past c →
      c.Halted → routine.result ∉ routine.params →
      some (0, routine.result) ∉ past.map Config.written? →
      m'.environment.get name = .ok (.number 0.0) := by
  intro hzero
  let m : Machine :=
    { Machine.initial {} 0 ⟨[]⟩ .unlimited .off with
      environment := Environment.empty.set "r" (.string "kept")
      routines := Table.empty.put "f" ⟨[], [], "r"⟩ }
  have hpath : Path {} ⟨{ m with depth := 1 }, [.block []], none⟩ _ _ :=
    (Path.begun.step rfl).step rfl
  have hreturned := hzero {} 1 "f" [] m _ ⟨[], [], "r"⟩ [] .off _ _ rfl rfl rfl hpath rfl
    (by decide) (by decide)
  cases hreturned

end DivisionScript
