import DivisionScript.Proofs.Run.Depth
import DivisionScript.Proofs.Run.Step

/-!
# Run — Begin

What is left of a statement that has begun: nothing, one of the bodies of a branch, the passes of a
loop, or the rest of a call, which is the only statement that begins one call further down. And what
is left of every other task that is performed.
-/

namespace DivisionScript

open Run

/-- What a statement of each form that has begun leaves to be done, and the depth then. -/
inductive Stmt.Begun (settings : Settings) (m : Machine) : Stmt → List Task → Machine → Prop
  | done {s : Stmt} {m' : Machine} (hdepth : m'.depth = m.depth) : Begun settings m s [] m'
  | branch {line : Nat} {condition : Expr} {thenBody elseBody : List Stmt} {m' : Machine}
      (truthy : Bool) (hdepth : m'.depth = m.depth) :
      Begun settings m (.branch line condition thenBody elseBody)
        [.block (if truthy then thenBody else elseBody)] m'
  | loop {line : Nat} {name : String} {first last : Expr} {body : List Stmt} {m' : Machine}
      (start stop : Int) (hdepth : m'.depth = m.depth) :
      Begun settings m (.loop line name first last body) [.passes line name start stop body] m'
  | call {line : Nat} {name : String} {args : List Expr} {m' : Machine} {routine : Routine}
      (values : List Value) (hroutine : m.routines.get? name = some routine)
      (hroom : m.depth < settings.maxCallDepth.toNat) (hdepth : m'.depth = m.depth + 1) :
      Begun settings m (.call line name args) [.parameters line routine.params values,
        .block routine.body, .leave line name routine m'.environment] m'

/-- Whether a task is the end of a call. -/
def Task.isLeave : Task → Bool
  | .leave .. => true
  | _ => false

/-- The body that a task runs, once or again and again. -/
def Task.body? : Task → Option (List Stmt)
  | .block body | .passes _ _ _ _ body => some body
  | _ => none

variable {settings : Settings} {s r : Stmt} {body : List Stmt} {tasks : List Task} {m m' : Machine}

/-- As many calls have been entered as are left to be ended. -/
theorem Stmt.Begun.depth_eq (h : s.Begun settings m tasks m') :
    m'.depth = m.depth + tasks.countP Task.isLeave := by
  cases h with
  | done hdepth | branch _ hdepth | loop _ _ hdepth => exact hdepth
  | call _ _ _ hdepth => exact hdepth

/-- A call is entered within the limit. -/
theorem Stmt.Begun.depth_le (h : s.Begun settings m tasks m') (hentered : m'.depth ≠ m.depth) :
    m'.depth ≤ settings.maxCallDepth.toNat := by
  cases h with
  | done hdepth | branch _ hdepth | loop _ _ hdepth => exact absurd hdepth hentered
  | call _ _ hroom hdepth =>
    rw [hdepth]
    exact hroom

/-- A statement of a body that is left to be run is smaller than the statement that has begun, or
stands in the body of a function that is called where fewer calls may still be entered. -/
theorem Stmt.Begun.smaller (h : s.Begun settings m tasks m')
    (hbody : ∃ task ∈ tasks, task.body? = some body) (hr : r ∈ body) :
    Prod.Lex (· < ·) (· < ·) (m'.levels settings, sizeOf r) (m.levels settings, sizeOf s) := by
  obtain ⟨task, htask, htaken⟩ := hbody
  have hsize : sizeOf r < sizeOf body := List.sizeOf_lt_of_mem hr
  cases h with
  | done => cases htask
  | branch truthy hdepth =>
    cases List.mem_singleton.mp htask
    cases htaken
    rw [Machine.levels_eq hdepth]
    refine .right _ (Nat.lt_trans hsize ?_)
    cases truthy <;> simp +arith
  | loop start stop hdepth =>
    cases List.mem_singleton.mp htask
    cases htaken
    rw [Machine.levels_eq hdepth]
    refine .right _ (Nat.lt_trans hsize ?_)
    simp +arith
  | call values hroutine hroom hdepth =>
    refine .left _ _ ?_
    rw [Machine.levels, Machine.levels, hdepth]
    omega

theorem Run.begin_eq_ok {line : Nat} {name : String} {args : List Expr}
    (h : Run.begin settings line name args m = .ok tasks m') :
    ∃ routine values, m.routines.get? name = some routine ∧
      m.depth < settings.maxCallDepth.toNat ∧ m'.depth = m.depth + 1 ∧
      tasks = [.parameters line routine.params values, .block routine.body,
        .leave line name routine m'.environment] := by
  rw [Run.begin, get_bind] at h
  cases hroutine : m.routines.get? name with
  | none =>
    rw [hroutine] at h
    cases h
  | some routine =>
    rw [hroutine] at h
    dsimp only at h
    split at h
    · cases h
    · obtain ⟨values, mid, hvalues, h⟩ := bind_eq_ok.mp h
      have hcore := (keeps_evaluateEach line args).ok hvalues
      have henv : mid.environment = m.environment := congrArg Prod.fst hcore
      have hdepth : mid.depth = m.depth := congrArg (·.2.2) hcore
      split at h
      · cases h
      · next hroom =>
        cases h
        refine ⟨routine, values, rfl, Nat.lt_of_not_le hroom, congrArg (· + 1) hdepth, ?_⟩
        rw [← henv]

/-- A statement that is done at once. -/
theorem Stmt.Begun.of_done {act : Run Unit} {event : Event} (hact : Keeps Machine.depth act)
    (h : (do note event; act; pure []) m = .ok tasks m') : s.Begun settings m tasks m' := by
  obtain ⟨_, m₁, hnote, h⟩ := bind_eq_ok.mp h
  obtain ⟨_, m₂, hok, h⟩ := bind_eq_ok.mp h
  cases h
  exact .done ((hact.ok hok).trans ((keeps_note event).calls.depth.ok hnote))

theorem Stmt.begun (h : s.begin settings m = .ok tasks m') : s.Begun settings m tasks m' := by
  cases s with
  | assign line name value tag => exact .of_done (keeps_assign settings line name value tag).depth h
  | print line value => exact .of_done (keeps_print line value).calls.depth h
  | input line name prompt => exact .of_done (keeps_readInto settings line name prompt).depth h
  | rand line name least greatest =>
    exact .of_done (keeps_drawInto settings line name least greatest).depth h
  | define line name params body result =>
    exact .of_done ((keeps_define name ⟨params, body, result⟩).map Prod.snd) h
  | branch line condition thenBody elseBody =>
    obtain ⟨_, m₁, h₁, h⟩ := bind_eq_ok.mp h
    obtain ⟨truthy, m₂, h₂, h⟩ := bind_eq_ok.mp h
    obtain ⟨_, m₃, h₃, h⟩ := bind_eq_ok.mp h
    have hcore : m₃.core = m.core := ((keeps_note _).ok h₃).trans
      (((keeps_condition line condition).ok h₂).trans ((keeps_note _).ok h₁))
    cases h
    exact .branch truthy (congrArg (·.2.2) hcore)
  | loop line name first last body =>
    obtain ⟨_, m₁, h₁, h⟩ := bind_eq_ok.mp h
    obtain ⟨start, m₂, h₂, h⟩ := bind_eq_ok.mp h
    obtain ⟨stop, m₃, h₃, h⟩ := bind_eq_ok.mp h
    obtain ⟨_, m₄, h₄, h⟩ := bind_eq_ok.mp h
    have hcore : m₄.core = m.core := ((keeps_note _).ok h₄).trans
      (((keeps_integer line _).ok h₃).trans
        (((keeps_integer line _).ok h₂).trans ((keeps_note _).ok h₁)))
    cases h
    exact .loop start stop (congrArg (·.2.2) hcore)
  | call line name args =>
    obtain ⟨_, m₁, h₁, h⟩ := bind_eq_ok.mp h
    obtain ⟨routine, values, hroutine, hroom, hdepth, rfl⟩ := Run.begin_eq_ok h
    cases h₁
    exact .call values hroutine hroom hdepth

/-! ## Tasks -/

/-- What a task of each form leaves to be done, and the state then. -/
inductive Task.Performed (settings : Settings) (m : Machine) :
    Task → List Task → Machine → Prop
  | done {task : Task} {m' : Machine} : Performed settings m task [] m'
  | program {p : Program} {m' : Machine} : Performed settings m (.program p)
      [.declarations p.declarations, .block p.statements, .finish] m'
  | declarations {d : Decl} {ds : List Decl} {m' : Machine} :
      Performed settings m (.declarations (d :: ds)) [.declarations ds] m'
  | statement {s : Stmt} {more : List Task} {m' : Machine} (h : s.Begun settings m more m') :
      Performed settings m (.statement s) more m'
  | statements {s : Stmt} {body : List Stmt} {m' : Machine} :
      Performed settings m (.statements (s :: body)) [.statement s, .statements body] m'
  | block {body : List Stmt} {m' : Machine} :
      Performed settings m (.block body) [.statements body] m'
  | passes {line : Nat} {name : String} {next stop : Int} {body : List Stmt} {m' : Machine} :
      Performed settings m (.passes line name next stop body)
        [.block body, .passes line name (next + 1) stop body] m'
  | parameters {line : Nat} {param : String} {params : List String} {value : Value}
      {values : List Value} {m' : Machine} :
      Performed settings m (.parameters line (param :: params) (value :: values))
        [.parameters line params values] m'

theorem Task.performed {task : Task} (h : task.perform settings m = .ok tasks m') :
    task.Performed settings m tasks m' := by
  cases task with
  | program p =>
    cases h
    exact .program
  | declarations ds =>
    cases ds with
    | nil =>
      cases h
      exact .done
    | cons d ds =>
      obtain ⟨_, mid, -, h⟩ := bind_eq_ok.mp h
      cases h
      exact .declarations
  | statement s => exact .statement (Stmt.begun h)
  | statements body =>
    cases body with
    | nil =>
      cases h
      exact .done
    | cons s body =>
      cases h
      exact .statements
  | block body =>
    cases h
    exact .block
  | passes line name next stop body =>
    rw [perform] at h
    split at h
    · obtain ⟨_, mid, -, h⟩ := bind_eq_ok.mp h
      cases h
      exact .passes
    · cases h
      exact .done
  | parameters line params values =>
    cases params with
    | nil =>
      cases h
      exact .done
    | cons param params =>
      cases values with
      | nil =>
        cases h
        exact .done
      | cons value values =>
        obtain ⟨_, noted, -, h⟩ := bind_eq_ok.mp h
        obtain ⟨_, mid, -, h⟩ := bind_eq_ok.mp h
        cases h
        exact .parameters
  | leave line name routine caller =>
    obtain ⟨value, returned, -, h⟩ := bind_eq_ok.mp h
    obtain ⟨_, left, -, h⟩ := bind_eq_ok.mp h
    obtain ⟨_, noted, -, h⟩ := bind_eq_ok.mp h
    obtain ⟨_, bound, -, h⟩ := bind_eq_ok.mp h
    cases h
    exact .done
  | finish =>
    cases h
    exact .done

end DivisionScript
