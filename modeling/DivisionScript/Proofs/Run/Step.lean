import Mathlib.Logic.Relation
import DivisionScript.Run.Execution

/-!
# Run — Step

A run, one step after another. What is still to be done is a list of tasks; a step does the first of
them, which may put further tasks before the rest. No task counts how often anything may still
happen: a loop goes on until its range is used up, and a call looks up its function and compares
the depth of the state with the settings when it is met. After a failure the tasks are given up one
by one, and those that leave a call put the environment of the caller back.
-/

namespace DivisionScript

open Run

/-- Something that a run still has to do. -/
inductive Task where
  | program (p : Program)
  | declarations (ds : List Decl)
  | statement (s : Stmt)
  | statements (body : List Stmt)
  /-- Statements that are announced by how many they are. -/
  | block (body : List Stmt)
  /-- The passes of a loop from `next` on. -/
  | passes (line : Nat) (name : String) (next stop : Int) (body : List Stmt)
  /-- Values to be written to parameters. -/
  | parameters (line : Nat) (params : List String) (values : List Value)
  /-- The end of a call, with the environment of the caller. -/
  | leave (line : Nat) (name : String) (routine : Routine) (caller : Environment)
  | finish

/-- Puts the environment of a caller back, one call further up. -/
def Machine.leave (caller : Environment) (m : Machine) : Machine :=
  { m with environment := caller, depth := m.depth - 1 }

/-- Begins a call and yields what is left of it. -/
def Run.begin (settings : Settings) (line : Nat) (name : String) (args : List Expr) :
    Run (List Task) := do
  let m ← get
  match m.routines.get? name with
  | none => fail line (.undefinedFunction name)
  | some routine =>
    if args.length ≠ routine.params.length then
      fail line (.arity name routine.params.length args.length)
    else
      let values ← evaluateEach line args
      if settings.maxCallDepth.toNat ≤ m.depth then
        fail line (.callDepth settings.maxCallDepth.toNat)
      else
        note (.calling name m.depth)
        modify fun m => { m with depth := m.depth + 1 }
        pure [.parameters line routine.params values, .block routine.body,
          .leave line name routine m.environment]

/-- Begins a statement and yields what is left of it. -/
def Stmt.begin (settings : Settings) : Stmt → Run (List Task)
  | .assign line name value tag => do
    note (.executing line)
    Run.assign settings line name value tag
    pure []
  | .print line value => do
    note (.executing line)
    Run.print line value
    pure []
  | .input line name prompt => do
    note (.executing line)
    readInto settings line name prompt
    pure []
  | .branch line condition thenBody elseBody => do
    note (.executing line)
    let truthy ← Run.condition line condition
    note (.branching truthy)
    pure [.block (if truthy then thenBody else elseBody)]
  | .loop line name start stop body => do
    note (.executing line)
    let start ← integer line start
    let stop ← integer line stop
    note (.looping name start stop)
    pure [.passes line name start stop body]
  | .rand line name least greatest => do
    note (.executing line)
    drawInto settings line name least greatest
    pure []
  | .define line name params body result => do
    note (.executing line)
    Run.define name ⟨params, body, result⟩
    pure []
  | .call line name args => do
    note (.executing line)
    Run.begin settings line name args

/-- Does what can be done of a task at once and yields what is left of it. -/
def Task.perform (settings : Settings) : Task → Run (List Task)
  | .program p => do
    note (.running p.declarations.length p.statements.length)
    pure [.declarations p.declarations, .block p.statements, .finish]
  | .declarations [] => pure []
  | .declarations (d :: rest) => do
    declare settings d
    pure [.declarations rest]
  | .statement s => s.begin settings
  | .statements [] => pure []
  | .statements (s :: rest) => pure [.statement s, .statements rest]
  | .block body => do
    note (.interpreting body.length)
    pure [.statements body]
  | .passes line name next stop body =>
    if next ≤ stop then do
      bind settings line name (.number (Number.ofWhole next))
      pure [.block body, .passes line name (next + 1) stop body]
    else
      pure []
  | .parameters line (param :: params) (value :: values) => do
    note (.bindingParameter param value)
    bind settings line param value
    pure [.parameters line params values]
  | .parameters .. => pure []
  | .leave line name routine caller => do
    let value ← returned routine
    modify (Machine.leave caller)
    note (.returned name value)
    bind settings line name value
    pure []
  | .finish => do
    let m ← get
    note (.finished m.environment.size)
    pure []

/-- What a task still does where a failure gives it up. -/
def Task.giveUp : Task → Machine → Machine
  | .leave _ _ _ caller => Machine.leave caller
  | _ => id

/-- Gives up all that is left to do. -/
def giveUpEach (tasks : List Task) (m : Machine) : Machine :=
  tasks.foldl (fun m task => task.giveUp m) m

/-- A run between two steps. -/
structure Config where
  machine : Machine
  tasks : List Task
  failure : Option Failure

namespace Config

/-- The next step, if there is anything left to do. -/
def step (settings : Settings) (c : Config) : Option Config :=
  match c.tasks, c.failure with
  | [], _ => none
  | task :: rest, some failure => some ⟨task.giveUp c.machine, rest, some failure⟩
  | task :: rest, none =>
    match task.perform settings c.machine with
    | .ok more m => some ⟨m, more ++ rest, none⟩
    | .error failure m => some ⟨m, rest, some failure⟩

/-- Finitely many steps lead from one place in a run to another. -/
abbrev Reaches (settings : Settings) : Config → Config → Prop :=
  Relation.ReflTransGen fun c c' => c.step settings = some c'

/-- The run is over. -/
def Halted (c : Config) : Prop :=
  c.tasks = []

/-- How a run that is over has ended. -/
def result (c : Config) : EStateM.Result Failure Machine Unit :=
  match c.failure with
  | none => .ok () c.machine
  | some failure => .error failure c.machine

/-- Where the task of a step leads. -/
def after (rest : List Task) : EStateM.Result Failure Machine (List Task) → Config
  | .ok more m => ⟨m, more ++ rest, none⟩
  | .error failure m => ⟨m, rest, some failure⟩

section step

variable {settings : Settings} {task : Task} {more rest : List Task} {m m' : Machine}
variable {failure : Failure}

theorem step_ok (h : task.perform settings m = .ok more m') :
    step settings ⟨m, task :: rest, none⟩ = some ⟨m', more ++ rest, none⟩ := by
  simp only [step, h]

theorem step_error (h : task.perform settings m = .error failure m') :
    step settings ⟨m, task :: rest, none⟩ = some ⟨m', rest, some failure⟩ := by
  simp only [step, h]

theorem step_giveUp :
    step settings ⟨m, task :: rest, some failure⟩ =
      some ⟨task.giveUp m, rest, some failure⟩ :=
  rfl

theorem step_perform (m : Machine) (task : Task) (rest : List Task) :
    step settings ⟨m, task :: rest, none⟩ = some (after rest (task.perform settings m)) := by
  cases hperform : task.perform settings m with
  | ok more m' => exact step_ok hperform
  | error failure m' => exact step_error hperform

/-- There is a next step until nothing is left to be done. -/
theorem step_eq_none {c : Config} : c.step settings = none ↔ c.Halted := by
  obtain ⟨m, tasks, failure⟩ := c
  cases tasks with
  | nil => exact iff_of_true rfl rfl
  | cons task rest =>
    refine iff_of_false ?_ (List.cons_ne_nil task rest)
    cases failure with
    | some failure => exact nofun
    | none =>
      rw [step_perform]
      exact nofun

/-- A step performs a task, or gives it up after a failure. -/
theorem step_eq_some {c c' : Config} (h : c.step settings = some c') :
    ∃ m task rest,
      (c = ⟨m, task :: rest, none⟩ ∧ c' = after rest (task.perform settings m)) ∨
      ∃ failure, c = ⟨m, task :: rest, some failure⟩ ∧
        c' = ⟨task.giveUp m, rest, some failure⟩ := by
  obtain ⟨m, tasks, failure⟩ := c
  cases tasks with
  | nil => cases h
  | cons task rest =>
    refine ⟨m, task, rest, ?_⟩
    cases failure with
    | none =>
      rw [step_perform] at h
      cases h
      exact .inl ⟨rfl, rfl⟩
    | some failure =>
      cases h
      exact .inr ⟨failure, rfl, rfl⟩

/-- A run has one end. -/
theorem halted_unique {start c c' : Config} (h : Reaches settings start c)
    (h' : Reaches settings start c') (hover : c.Halted) (hover' : c'.Halted) : c = c' := by
  have hunique : Relator.RightUnique fun c c' : Config => c.step settings = some c' :=
    fun _ _ _ hstep hstep' => Option.some_inj.mp (hstep.symm.trans hstep')
  have hstays {c c' : Config} (h : Reaches settings c c') (hover : c.Halted) : c = c' := by
    rcases h.cases_head with heq | ⟨next, hstep, -⟩
    · exact heq
    · rw [step_eq_none.mpr hover] at hstep
      cases hstep
  rcases Relation.ReflTransGen.total_of_right_unique hunique h h' with h | h
  · exact hstays h hover
  · exact (hstays h hover').symm

end step

end Config

end DivisionScript
