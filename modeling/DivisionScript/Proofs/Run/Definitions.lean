import DivisionScript.Proofs.Run.Counting
import DivisionScript.Proofs.Run.Sources

/-!
# Run — Definitions

Which function a name stands for, over whole sessions. The table of functions is written by
definitions alone and nothing is ever put back to it, so a name stands for the function that was
defined last. A call in progress does not look at the table again: all that has been done since it
was entered is a run of the body of the function that the name stood for then.
-/

namespace DivisionScript

open Run

variable {settings : Settings} {m m' : Machine} {task : Task} {more inner rest : List Task}
variable {start : Machine} {past : List Config} {c c' : Config}

/-! ## The table -/

/-- The name and the function that a statement defines. -/
def Stmt.defined? : Stmt → Option (String × Routine)
  | .define _ name params body result => some (name, ⟨params, body, result⟩)
  | _ => none

/-- The name and the function that the next step defines. -/
def Config.defined? (c : Config) : Option (String × Routine) :=
  c.next?.bind Stmt.defined?

theorem Run.Keeps.routines {α : Type} {act : Run α} (h : Keeps Machine.calls act) :
    Keeps Machine.routines act :=
  h.map Prod.fst

theorem keeps_routines_begin (line : Nat) (name : String) (args : List Expr) :
    Keeps Machine.routines (Run.begin settings line name args) := by
  refine .get fun m => ?_
  cases m.routines.get? name with
  | none => exact .fail line _
  | some routine =>
    refine .ite (.fail line _) ((keeps_evaluateEach line args).calls.routines.bind fun values => ?_)
    refine .ite (.fail line _) ((keeps_note _).calls.routines.bind fun _ => ?_)
    exact Keeps.bind (.modify fun _ => rfl) fun _ => .pure _

theorem routines_define (name : String) (routine : Routine) (m : Machine) :
    (left (Run.define name routine m)).routines = m.routines.put name routine := by
  have hreport : Keeps Machine.routines (if m.routines.contains name then
      note (.functionRedefined name)
    else note (.functionDefined name routine.params.length)) :=
    .ite (keeps_note _).calls.routines (keeps_note _).calls.routines
  exact hreport { m with routines := m.routines.put name routine }

/-- A definition replaces the entry of its name, and no other statement changes the table. -/
theorem Stmt.routines_begin (settings : Settings) (s : Stmt) (m : Machine) :
    (left (s.begin settings m)).routines =
      s.defined?.elim m.routines fun defined => m.routines.put defined.1 defined.2 := by
  have hnote := (keeps_note (.executing s.line)).calls.routines
  cases s with
  | assign line name value tag =>
    exact (hnote.bind fun _ => (keeps_assign settings line name value tag).routines.bind fun _ =>
      .pure _) m
  | print line value =>
    exact (hnote.bind fun _ => (keeps_print line value).calls.routines.bind fun _ => .pure _) m
  | input line name prompt =>
    exact (hnote.bind fun _ => (keeps_readInto settings line name prompt).routines.bind fun _ =>
      .pure _) m
  | branch line condition thenBody elseBody =>
    exact (hnote.bind fun _ => (keeps_condition line condition).calls.routines.bind fun _ =>
      (keeps_note _).calls.routines.bind fun _ => .pure _) m
  | loop line name first last body =>
    exact (hnote.bind fun _ => (keeps_integer line first).calls.routines.bind fun _ =>
      (keeps_integer line last).calls.routines.bind fun _ =>
        (keeps_note _).calls.routines.bind fun _ => .pure _) m
  | rand line name least greatest =>
    exact (hnote.bind fun _ => (keeps_drawInto settings line name least greatest).routines.bind
      fun _ => .pure _) m
  | define line name params body result =>
    let noted : Machine := { m with log := m.log.note (.executing line) }
    have hbegin : (left (begin settings (.define line name params body result) m)).routines =
        (left (Run.define name ⟨params, body, result⟩ noted)).routines :=
      Keeps.left_bind (fun _ => .pure ([] : List Task)) noted
    exact hbegin.trans (routines_define name _ noted)
  | call line name args =>
    exact (hnote.bind fun _ => keeps_routines_begin line name args) m

/-- A task that begins no statement leaves the table alone. -/
theorem Task.keeps_routines (h : ∀ s, task ≠ .statement s) :
    Keeps Machine.routines (task.perform settings) := by
  cases task with
  | statement s => exact absurd rfl (h s)
  | program p => exact (keeps_note _).calls.routines.bind fun _ => .pure _
  | declarations ds =>
    cases ds with
    | nil => exact .pure _
    | cons d rest => exact (keeps_declare settings d).routines.bind fun _ => .pure _
  | statements body => cases body <;> exact .pure _
  | block body => exact (keeps_note _).calls.routines.bind fun _ => .pure _
  | passes line name next stop body =>
    exact .ite ((keeps_bind settings line name _).routines.bind fun _ => .pure _) (.pure _)
  | parameters line params values =>
    cases params with
    | nil => exact .pure _
    | cons param params =>
      cases values with
      | nil => exact .pure _
      | cons value values =>
        exact (keeps_note _).calls.routines.bind fun _ =>
          (keeps_bind settings line param value).routines.bind fun _ => .pure _
  | leave line name routine caller =>
    have hreturned : Keeps Machine.routines (returned routine) := by
      intro m
      rw [returned_eq]
      rfl
    exact hreturned.bind fun value => Keeps.bind (.modify fun _ => rfl) fun _ =>
      (keeps_note _).calls.routines.bind fun _ =>
        (keeps_bind settings line name value).routines.bind fun _ => .pure _
  | finish => exact .get fun m => (keeps_note _).calls.routines.bind fun _ => .pure _

/-- A step makes the definition of its statement and no other. -/
theorem Config.step_routines (h : c.step settings = some c') :
    c'.machine.routines = c.defined?.elim c.machine.routines fun defined =>
      c.machine.routines.put defined.1 defined.2 := by
  obtain ⟨m, task, rest, ⟨rfl, rfl⟩ | ⟨failure, rfl, rfl⟩⟩ := step_eq_some h
  · rw [machine_after]
    cases task with
    | statement s => exact s.routines_begin settings m
    | _ => exact Task.keeps_routines (by exact nofun) m
  · cases task <;> rfl

/-- A name stands for the function that was defined last, and for none if none was defined. -/
theorem Session.routines_get? (hstart : start.routines = .empty) (h : Session settings start past c)
    (name : String) :
    c.machine.routines.get? name = (past.filterMap Config.defined?).lookup name := by
  induction h with
  | opened =>
    rw [hstart]
    rfl
  | @ordered past c h hover order ih =>
    have hidle : c.defined? = none := by
      rw [Config.defined?, Config.next?_of_halted hover]
      rfl
    rw [List.filterMap_cons_none hidle]
    exact ih
  | @stepped past c c' h hstep ih =>
    rw [Config.step_routines hstep]
    cases hdefined : c.defined? with
    | none =>
      rw [List.filterMap_cons_none hdefined]
      exact ih
    | some defined =>
      rw [List.filterMap_cons_some hdefined, Option.elim_some, Table.get?_put, ih]
      by_cases hname : name = defined.1
      · rw [if_pos hname, hname, List.lookup_cons, beq_self_eq_true]
      · have hother : (name == defined.1) = false := beq_false_of_ne hname
        rw [if_neg hname, List.lookup_cons, hother]

/-! ## Calls in progress -/

/-- The same place with more to be done afterwards. -/
def Config.within (c : Config) (outer : List Task) : Config :=
  { c with tasks := c.tasks ++ outer }

/-- The step from `calling` enters a call, and the state is `entered` then. -/
structure Config.Enters (settings : Settings) (calling : Config) (line : Nat) (name : String)
    (routine : Routine) (values : List Value) (entered : Machine) (rest : List Task) : Prop where
  call : ∃ args, calling.tasks = .statement (.call line name args) :: rest
  found : calling.machine.routines.get? name = some routine
  step : calling.step settings = some ⟨entered, [.parameters line routine.params values,
    .block routine.body, .leave line name routine entered.environment] ++ rest, none⟩

/-- As long as there is something left to be done before them, later tasks play no part. -/
theorem Config.step_of_within {outer : List Task} (hopen : ¬ c.Halted)
    (hstep : (c.within outer).step settings = some c') :
    ∃ d, c.step settings = some d ∧ c' = d.within outer := by
  obtain ⟨m, tasks, failure⟩ := c
  cases tasks with
  | nil => exact absurd rfl hopen
  | cons task rest =>
    cases failure with
    | some failure =>
      cases hstep
      exact ⟨_, rfl, rfl⟩
    | none =>
      refine ⟨_, step_perform m task rest, ?_⟩
      have hafter : some (after (rest ++ outer) (task.perform settings m)) = some c' :=
        (step_perform m task (rest ++ outer)).symm.trans hstep
      rw [← Option.some.inj hafter]
      cases task.perform settings m with
      | ok more m' => simp only [after, within, List.append_assoc]
      | error failure m' => rfl

/-- Only the begin of a call leaves the end of a call to be done, and it is that of the function
which the name stands for. -/
theorem Task.Performed.entered {line : Nat} {name : String} {routine : Routine}
    {caller : Environment} {later : List Task}
    (h : task.Performed settings m (inner ++ .leave line name routine caller :: later) m') :
    ∃ args values, task = .statement (.call line name args) ∧
      m.routines.get? name = some routine ∧ m'.environment = caller ∧
      inner = [.parameters line routine.params values, .block routine.body] ∧ later = [] := by
  generalize htasks : inner ++ .leave line name routine caller :: later = tasks at h
  have hleave : (.leave line name routine caller : Task) ∈ tasks :=
    htasks ▸ List.mem_append_right _ List.mem_cons_self
  cases h with
  | statement h =>
    cases h with
    | call values hroutine =>
      -- the end of the call is the last of the three tasks
      rcases inner with _ | ⟨first, _ | ⟨second, _ | ⟨third, inner⟩⟩⟩
      · cases htasks
      · cases htasks
      · cases htasks
        exact ⟨_, values, rfl, hroutine, rfl, rfl, rfl⟩
      · simp at htasks
    | _ => simp at hleave
  | _ => simp at hleave

/-- A step that leaves the end of a call to be done has been taken inside the call, or has entered
it. -/
theorem Config.within_or_enters {line : Nat} {name : String} {routine : Routine}
    {caller : Environment} (hstep : c.step settings = some c')
    (htasks : c'.tasks = inner ++ .leave line name routine caller :: rest) :
    (∃ d : Config, ¬ d.Halted ∧ c = d.within (.leave line name routine caller :: rest)) ∨
      ∃ values, c.Enters settings line name routine values c'.machine rest ∧
        c'.machine.environment = caller ∧ c'.failure = none ∧
        inner = [.parameters line routine.params values, .block routine.body] := by
  -- what was to be done after the task of the step had the end of the call in it already
  have hwithin {m : Machine} {task : Task} {later first : List Task} {failure : Option Failure}
      (hlater : later = first ++ .leave line name routine caller :: rest) :
      ∃ d : Config, ¬ d.Halted ∧ (⟨m, task :: later, failure⟩ : Config) =
        d.within (.leave line name routine caller :: rest) :=
    ⟨⟨m, task :: first, failure⟩, List.cons_ne_nil task first, by rw [hlater]; rfl⟩
  obtain ⟨m, task, later, ⟨rfl, rfl⟩ | ⟨failure, rfl, rfl⟩⟩ := step_eq_some hstep
  · cases hperform : task.perform settings m with
    | error failure m' =>
      rw [hperform] at htasks
      exact .inl (hwithin htasks)
    | ok more m' =>
      rw [hperform] at htasks
      rcases List.append_eq_append_iff.mp htasks with ⟨first, -, hlater⟩ | ⟨last, rfl, hlast⟩
      · exact .inl (hwithin hlater)
      · rcases List.cons_eq_append_iff.mp hlast with ⟨rfl, hlater⟩ | ⟨last, rfl, rfl⟩
        · exact .inl (hwithin (show _ = [] ++ _ from hlater))
        · obtain ⟨args, values, rfl, hfound, rfl, rfl, rfl⟩ := (Task.performed hperform).entered
          exact .inr
            ⟨values, ⟨⟨args, rfl⟩, hfound, Config.step_ok hperform⟩, rfl, rfl, rfl⟩
  · exact .inl (hwithin htasks)

/-- Where the end of a call is among what is left to be done, the session has been at the place
where the call was entered, and has since then been running the body of the function that it was
entered with. -/
theorem Session.runs_entered (h : Session settings start past c) {line : Nat} {name : String}
    {routine : Routine} {caller : Environment}
    (htasks : c.tasks = inner ++ .leave line name routine caller :: rest) :
    ∃ run calling earlier values entered,
      past = run.map (·.within (.leave line name routine caller :: rest)) ++ calling :: earlier ∧
      Session settings start earlier calling ∧
      calling.Enters settings line name routine values entered rest ∧
      entered.environment = caller ∧
      Path settings
        ⟨entered, [.parameters line routine.params values, .block routine.body], none⟩ run
        ⟨c.machine, inner, c.failure⟩ := by
  induction h generalizing inner with
  | opened => simp at htasks
  | ordered h hover order ih =>
    rcases inner with _ | ⟨first, inner⟩
    · cases order <;> cases htasks
    · simp at htasks
  | @stepped past c c' h hstep ih =>
    rcases Config.within_or_enters hstep htasks with
      ⟨d, hopen, rfl⟩ | ⟨values, henters, hcaller, hsound, rfl⟩
    · obtain ⟨run, calling, earlier, values, entered, rfl, hearlier, henters, hcaller, hpath⟩ :=
        ih rfl
      obtain ⟨d', hd', rfl⟩ := Config.step_of_within hopen hstep
      rw [Config.within, List.append_cancel_right_eq] at htasks
      subst htasks
      exact ⟨d :: run, calling, earlier, values, entered, rfl, hearlier, henters, hcaller,
        hpath.step hd'⟩
    · refine ⟨[], c, past, values, c'.machine, rfl, h, henters, hcaller, ?_⟩
      rw [hsound]
      exact .begun

/-- Functions over whole sessions. Whatever a new state is given to carry out, and whether or not it
fails, at every place that this leads through, also inside the bodies of functions, a name stands
for the function of the definition of that name that was carried out last, and for none if there was
none. For each call in progress the session has been at the place where the call was entered. There
the name stood for the function of the call, and what has been done since is a run of the body of
that function, whatever the name stands for now. The states that execution leaves between the orders
are among these places. -/
theorem session_keeps_last_definitions (settings : Settings) (entropy : UInt64) (input : Input)
    (output : Output) (log : Log) :
    let start := Machine.initial settings entropy input output log
    (∀ past c, Session settings start past c →
      (∀ name, c.machine.routines.get? name = (past.filterMap Config.defined?).lookup name) ∧
      ∀ inner line name routine caller rest,
        c.tasks = inner ++ .leave line name routine caller :: rest →
        ∃ run calling earlier values entered,
          past = run.map (·.within (.leave line name routine caller :: rest)) ++
            calling :: earlier ∧
          Session settings start earlier calling ∧
          calling.Enters settings line name routine values entered rest ∧
          (earlier.filterMap Config.defined?).lookup name = some routine ∧
          entered.environment = caller ∧
          Path settings
            ⟨entered, [.parameters line routine.params values, .block routine.body], none⟩ run
            ⟨c.machine, inner, c.failure⟩) ∧
    ∀ orders, ∃ past c, Session settings start past c ∧ c.Halted ∧
      c.machine = carryOut settings orders start := by
  intro start
  refine ⟨fun past c h => ⟨h.routines_get? rfl, ?_⟩, Session.carriesOut settings start⟩
  intro inner line name routine caller rest htasks
  obtain ⟨run, calling, earlier, values, entered, hpast, hearlier, henters, hcaller, hpath⟩ :=
    h.runs_entered htasks
  refine ⟨run, calling, earlier, values, entered, hpast, hearlier, henters, ?_, hcaller, hpath⟩
  rw [← hearlier.routines_get? rfl]
  exact henters.found

/-- The body of `f` defines `f` again and goes on. While it does, the name stands for the function
that was defined last, and what is left of the call is the rest of the body that was entered. The
call then fails, and the new definition stays. -/
theorem session_keeps_last_definitions_of_redefined :
    let start := Machine.initial {} 0 ⟨[]⟩ .unlimited .off
    let print : Stmt := .print 3 (.identifier "x")
    let entered : Routine := ⟨[], [.define 2 "f" ["k"] [] "k", print], "r"⟩
    let latest : Routine := ⟨["k"], [], "k"⟩
    (∃ past c, Session {} start past c ∧
      c.tasks = [.statements [print]] ++ [.leave 4 "f" entered .empty] ∧
      c.machine.routines.get? "f" = some latest ∧
      ∃ run m values, Path {} ⟨m, [.parameters 4 [] values, .block entered.body], none⟩ run
        ⟨c.machine, [.statements [print]], none⟩) ∧
    ∃ past c, Session {} start past c ∧ c.Halted ∧ c.failure = some ⟨.unbound "x", 3⟩ ∧
      c.machine.routines.get? "f" = some latest := by
  intro start print entered latest
  have hopened : Session {} start [] ⟨start, [], none⟩ := .opened
  have hdefined :=
    (hopened.ordered rfl (.statement (.define 1 "f" [] entered.body "r"))).stepped rfl
  have hcalled := ((hdefined.ordered rfl (.statement (.call 4 "f" []))).stepped rfl).stepped rfl
  have hinside := ((hcalled.stepped rfl).stepped rfl).stepped rfl
  have hfailed := (((hinside.stepped rfl).stepped rfl).stepped rfl).stepped rfl
  have hsessions := (session_keeps_last_definitions {} 0 ⟨[]⟩ .unlimited .off).1
  refine ⟨⟨_, _, hinside, rfl, (hsessions _ _ hinside).1 "f", ?_⟩, _, _, hfailed, rfl, rfl,
    (hsessions _ _ hfailed).1 "f"⟩
  obtain ⟨run, _, _, values, m, -, -, -, -, -, hpath⟩ :=
    (hsessions _ _ hinside).2 [.statements [print]] 4 "f" entered .empty [] rfl
  exact ⟨run, m, values, hpath⟩

end DivisionScript
