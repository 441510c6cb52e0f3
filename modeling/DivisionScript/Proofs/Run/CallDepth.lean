import DivisionScript.Proofs.Run.Begin
import DivisionScript.Proofs.Run.Raises
import DivisionScript.Proofs.Run.Session
import DivisionScript.Proofs.Run.Unfold

/-!
# Run — Call depth

The depth of a state counts the calls in progress: those whose end is among the tasks that are left.
It never exceeds the limit that the settings set, it is back where it was whenever an order is over,
and a call is refused for it exactly where all else about the call is right and the limit has been
reached.
-/

namespace DivisionScript

open Run

/-- The step from here raises a failure. -/
def Config.Fails (settings : Settings) (c : Config) (failure : Failure) : Prop :=
  c.failure = none ∧ ∃ c', c.step settings = some c' ∧ c'.failure = some failure

/-- A call is next to be begun, of a function that there is, with as many arguments as the function
has parameters, and all of them have values. -/
def Config.CallsWell (c : Config) (line : Nat) : Prop :=
  c.failure = none ∧ ∃ name args rest routine values,
    c.tasks = .statement (.call line name args) :: rest ∧
    c.machine.routines.get? name = some routine ∧ args.length = routine.params.length ∧
    args.mapM (fun e : Expr => e.value c.machine.environment) = .ok values

/-- The depth of a place in a run is the number of the calls in progress, and within the limit. -/
structure Config.Counted (settings : Settings) (c : Config) : Prop where
  depth_eq : c.machine.depth = c.tasks.countP Task.isLeave
  depth_le : c.machine.depth ≤ settings.maxCallDepth.toNat

variable {settings : Settings} {task : Task} {more rest : List Task} {m m' : Machine}
variable {failure : Failure} {c c' : Config}

/-! ## What a task does to the depth -/

/-- The end of a call counts down, whether or not the result can be written. -/
theorem depth_conclude (settings : Settings) (line : Nat) (name : String) (routine : Routine)
    (caller : Environment) (m : Machine) :
    (left (conclude settings line name routine caller m)).depth = m.depth - 1 := by
  have hrest (value : Value) : Keeps Machine.depth (do
      note (.returned name value)
      bind settings line name value) :=
    (keeps_note _).calls.depth.bind fun _ => (keeps_bind settings line name value).depth
  rw [conclude, bind_ok (returned_eq routine m)]
  exact hrest _ (m.leave caller)

/-- A statement that fails when it begins leaves the depth as it was. -/
theorem Stmt.begin_depth_error {s : Stmt} (h : s.begin settings m = .error failure m') :
    m'.depth = m.depth := by
  have hfails : Run.statement settings s m = .error failure m' := by
    rw [statement_eq]
    exact bind_error h
  exact (keeps_depth_run s).atomic hfails

/-- A computation that is part of a run enters as many calls as it leaves to be ended, none of them
beyond the limit, and none where it fails. -/
structure Balanced (settings : Settings) (act : Run (List Task)) : Prop where
  error : ∀ ⦃m failure m'⦄, act m = .error failure m' → m'.depth = m.depth
  ok : ∀ ⦃m more m'⦄, act m = .ok more m' → m'.depth = m.depth + more.countP Task.isLeave
  le : ∀ ⦃m more m'⦄, act m = .ok more m' → m'.depth ≠ m.depth →
    m'.depth ≤ settings.maxCallDepth.toNat

theorem Balanced.pure {tasks : List Task} (h : tasks.countP Task.isLeave = 0) :
    Balanced settings (pure tasks) where
  error := fun _ _ _ => nofun
  ok := by
    rintro m more m' ⟨⟩
    rw [h, Nat.add_zero]
  le := by
    rintro m more m' ⟨⟩ hentered
    exact absurd rfl hentered

/-- What keeps the depth may come first. -/
theorem Balanced.bind {α : Type} {x : Run α} {f : α → Run (List Task)}
    (hx : Keeps Machine.depth x) (hf : ∀ a, Balanced settings (f a)) :
    Balanced settings (x >>= f) where
  error := by
    intro m failure m' h
    rcases bind_eq_error.mp h with h | ⟨a, mid, hfirst, h⟩
    · exact hx.atomic h
    · exact ((hf a).error h).trans (hx.ok hfirst)
  ok := by
    intro m more m' h
    obtain ⟨a, mid, hfirst, h⟩ := bind_eq_ok.mp h
    rw [(hf a).ok h, hx.ok hfirst]
  le := by
    intro m more m' h hentered
    obtain ⟨a, mid, hfirst, h⟩ := bind_eq_ok.mp h
    rw [← hx.ok hfirst] at hentered
    exact (hf a).le h hentered

theorem Stmt.balanced (s : Stmt) : Balanced settings (s.begin settings) where
  error := fun _ _ _ h => Stmt.begin_depth_error h
  ok := fun _ _ _ h => (Stmt.begun h).depth_eq
  le := fun _ _ _ h => (Stmt.begun h).depth_le

theorem Task.balanced (settings : Settings) (htask : ¬ task.isLeave) :
    Balanced settings (task.perform settings) := by
  cases task with
  | leave => exact absurd rfl htask
  | statement s => exact s.balanced
  | program p => exact .bind (keeps_note _).calls.depth fun _ => .pure rfl
  | declarations ds =>
    cases ds with
    | nil => exact .pure rfl
    | cons d ds => exact .bind (keeps_declare settings d).depth fun _ => .pure rfl
  | statements body =>
    cases body with
    | nil => exact .pure rfl
    | cons s body => exact .pure rfl
  | block body => exact .bind (keeps_note _).calls.depth fun _ => .pure rfl
  | passes line name next stop body =>
    rw [Task.perform]
    split
    · exact .bind (keeps_bind settings line name _).depth fun _ => .pure rfl
    · exact .pure rfl
  | parameters line params values =>
    cases params with
    | nil => exact .pure rfl
    | cons param params =>
      cases values with
      | nil => exact .pure rfl
      | cons value values =>
        exact .bind (keeps_note _).calls.depth fun _ =>
          .bind (keeps_bind settings line param value).depth fun _ => .pure rfl
  | finish =>
    have hget : Keeps Machine.depth (MonadState.get : Run Machine) := fun _ => rfl
    exact .bind hget fun _ => .bind (keeps_note _).calls.depth fun _ => .pure rfl

/-- The end of a call counts down, whether or not the result can be written, and leaves nothing to
be done. -/
theorem Task.ends (settings : Settings) (htask : task.isLeave) (m : Machine) :
    (∀ failure m', task.perform settings m = .error failure m' → m'.depth = m.depth - 1) ∧
    ∀ more m', task.perform settings m = .ok more m' → more = [] ∧ m'.depth = m.depth - 1 := by
  cases task with
  | leave line name routine caller =>
    have hperform : Task.perform settings (.leave line name routine caller) =
        (conclude settings line name routine caller >>= fun _ => pure []) := by
      simp only [Task.perform, conclude, bind_assoc]
    have hleft := depth_conclude settings line name routine caller m
    rw [hperform]
    constructor
    · intro failure m' h
      rcases bind_eq_error.mp h with h | ⟨_, _, -, ⟨⟩⟩
      rwa [h] at hleft
    · intro more m' h
      obtain ⟨_, mid, hconclude, h⟩ := bind_eq_ok.mp h
      cases h
      rw [hconclude] at hleft
      exact ⟨rfl, hleft⟩
  | _ => cases htask

/-! ## Places in a run -/

namespace Config.Counted

variable {before after : Option Failure}

/-- Where a call is ended, the depth counts down. -/
theorem ended (h : Config.Counted settings ⟨m, task :: rest, before⟩) (htask : task.isLeave)
    (hm' : m'.depth = m.depth - 1) : Config.Counted settings ⟨m', rest, after⟩ := by
  have hdepth : m.depth = (task :: rest).countP Task.isLeave := h.depth_eq
  have hle : m.depth ≤ settings.maxCallDepth.toNat := h.depth_le
  rw [List.countP_cons_of_pos htask] at hdepth
  constructor
  · show m'.depth = rest.countP Task.isLeave
    omega
  · show m'.depth ≤ settings.maxCallDepth.toNat
    omega

/-- Where another task is done, as many calls have been entered as it leaves to be ended. -/
theorem continued (h : Config.Counted settings ⟨m, task :: rest, before⟩)
    (htask : ¬ task.isLeave) (hm' : m'.depth = m.depth + more.countP Task.isLeave)
    (hentered : m'.depth ≠ m.depth → m'.depth ≤ settings.maxCallDepth.toNat) :
    Config.Counted settings ⟨m', more ++ rest, after⟩ := by
  have hdepth : m.depth = (task :: rest).countP Task.isLeave := h.depth_eq
  have hle : m.depth ≤ settings.maxCallDepth.toNat := h.depth_le
  rw [List.countP_cons_of_neg htask] at hdepth
  constructor
  · show m'.depth = (more ++ rest).countP Task.isLeave
    rw [List.countP_append]
    omega
  · show m'.depth ≤ settings.maxCallDepth.toNat
    by_cases hsame : m'.depth = m.depth
    · exact hsame ▸ hle
    · exact hentered hsame

theorem kept (h : Config.Counted settings ⟨m, task :: rest, before⟩) (htask : ¬ task.isLeave)
    (hm' : m'.depth = m.depth) : Config.Counted settings ⟨m', rest, after⟩ := by
  have hmore : m'.depth = m.depth + [].countP Task.isLeave := hm'
  exact h.continued htask hmore (absurd hm')

theorem giveUp (h : Config.Counted settings ⟨m, task :: rest, some failure⟩) :
    Config.Counted settings ⟨task.giveUp m, rest, some failure⟩ := by
  cases task with
  | leave => exact h.ended rfl rfl
  | _ => exact h.kept Bool.false_ne_true rfl

theorem perform (h : Config.Counted settings ⟨m, task :: rest, none⟩)
    (hstep : Config.step settings ⟨m, task :: rest, none⟩ = some c') : c'.Counted settings := by
  by_cases htask : task.isLeave
  · have hends := Task.ends settings htask m
    cases hperform : task.perform settings m with
    | error failure m' =>
      rw [Config.step_error hperform] at hstep
      cases hstep
      exact h.ended htask (hends.1 failure m' hperform)
    | ok more m' =>
      obtain ⟨rfl, hm'⟩ := hends.2 more m' hperform
      rw [Config.step_ok hperform] at hstep
      cases hstep
      exact h.ended htask hm'
  · have hbalanced := Task.balanced settings htask
    cases hperform : task.perform settings m with
    | error failure m' =>
      rw [Config.step_error hperform] at hstep
      cases hstep
      exact h.kept htask (hbalanced.error hperform)
    | ok more m' =>
      rw [Config.step_ok hperform] at hstep
      cases hstep
      exact h.continued htask (hbalanced.ok hperform) (hbalanced.le hperform)

theorem step (h : c.Counted settings) (hstep : c.step settings = some c') :
    c'.Counted settings := by
  obtain ⟨m, tasks, failure⟩ := c
  cases tasks with
  | nil => cases hstep
  | cons task rest =>
    cases failure with
    | some failure =>
      cases hstep
      exact h.giveUp
    | none => exact h.perform hstep

end Config.Counted

/-- Every place that a session reaches is counted, if no call was in progress when it was opened. -/
theorem Session.counted {start : Machine} {past : List Config} (hstart : start.depth = 0)
    (h : Session settings start past c) : c.Counted settings := by
  induction h with
  | opened => exact ⟨hstart, hstart ▸ Nat.zero_le _⟩
  | @ordered past c h hover order ih =>
    have hnone : c.machine.depth = 0 := by
      rw [ih.depth_eq, hover]
      rfl
    have htask : [order.task].countP Task.isLeave = 0 := by cases order <;> rfl
    exact ⟨hnone.trans htask.symm, ih.depth_le⟩
  | stepped _ hstep ih => exact ih.step hstep

/-! ## Refused calls -/

/-- Nothing but the beginning of a call fails for the calls in progress. -/
theorem Task.raises_ordinary (h : ∀ line name args, task ≠ .statement (.call line name args)) :
    Raises (fun failure => failure.fault.Ordinary) (task.perform settings) := by
  cases task with
  | program p => exact (raises_note _).bind fun _ => .pure _
  | declarations ds =>
    cases ds with
    | nil => exact .pure _
    | cons d ds =>
      refine .bind ?_ fun _ => .pure _
      exact (raises_declare settings d).mono fun _ hplain => hplain.ordinary
  | statement s =>
    have hcall : ¬ s.isCall := by
      cases s with
      | call line name args => exact absurd rfl (h line name args)
      | _ => exact Bool.false_ne_true
    exact (Stmt.raises_plain hcall).mono fun _ hplain => hplain.ordinary
  | statements body =>
    cases body with
    | nil => exact .pure _
    | cons s body => exact .pure _
  | block body => exact (raises_note _).bind fun _ => .pure _
  | passes line name next stop body =>
    rw [Task.perform]
    split
    · refine .bind ?_ fun _ => .pure _
      exact (raises_bind settings line name _).mono fun _ hplain => hplain.ordinary
    · exact .pure _
  | parameters line params values =>
    cases params with
    | nil => exact .pure _
    | cons param params =>
      cases values with
      | nil => exact .pure _
      | cons value values =>
        refine (raises_note _).bind fun _ => .bind ?_ fun _ => .pure _
        exact (raises_bind settings line param value).mono fun _ hplain => hplain.ordinary
  | leave line name routine caller =>
    refine (raises_returned routine).bind fun value => (raises_modify _).bind fun _ =>
      (raises_note _).bind fun _ => .bind ?_ fun _ => .pure _
    exact (raises_bind settings line name value).mono fun _ hplain => hplain.ordinary
  | finish => exact .get fun _ => (raises_note _).bind fun _ => .pure _

theorem begin_call_eq_error {limit line line' : Nat} {name : String} {args : List Expr} :
    (∃ m', (Stmt.call line name args).begin settings m = .error ⟨.callDepth limit, line'⟩ m') ↔
      line' = line ∧ limit = settings.maxCallDepth.toNat ∧
        settings.maxCallDepth.toNat ≤ m.depth ∧ ∃ routine values,
          m.routines.get? name = some routine ∧ args.length = routine.params.length ∧
          args.mapM (fun e : Expr => e.value m.environment) = .ok values := by
  have hbegin : (Stmt.call line name args).begin settings m =
      Run.begin settings line name args { m with log := m.log.note (.executing line) } :=
    rfl
  rw [hbegin]
  constructor
  · rintro ⟨m', h⟩
    rcases begin_eq_error settings line name h with hplain | ⟨hfailure, hcall⟩
    · exact absurd rfl (hplain.ordinary limit)
    · obtain ⟨routine, values, hroutine, harity, hvalues, hdeep⟩ := hcall
      cases hfailure
      exact ⟨rfl, rfl, hdeep, routine, values, hroutine, harity, (evaluateEach_eq_ok hvalues).1⟩
  · rintro ⟨rfl, rfl, hdeep, routine, values, hroutine, harity, hvalues⟩
    obtain ⟨log, hargs⟩ := evaluateEach_of_values line'
      (m := { m with log := m.log.note (.executing line') }) hvalues
    refine ⟨{ m with log }, ?_⟩
    rw [Run.begin, get_bind]
    simp only [hroutine, harity, ne_eq, not_true_eq_false, if_false]
    rw [bind_ok hargs, if_pos hdeep]
    rfl

/-- A call is refused for the calls in progress exactly where all else about it is right and as many
calls are in progress as the settings allow. -/
theorem Config.Counted.fails_iff (h : c.Counted settings) (limit line : Nat) :
    c.Fails settings ⟨.callDepth limit, line⟩ ↔
      limit = settings.maxCallDepth.toNat ∧ c.CallsWell line ∧
        c.machine.depth = settings.maxCallDepth.toNat := by
  obtain ⟨m, tasks, failure⟩ := c
  have hle : m.depth ≤ settings.maxCallDepth.toNat := h.depth_le
  constructor
  · rintro ⟨hnone, c', hstep, hc'⟩
    cases hnone
    cases tasks with
    | nil => cases hstep
    | cons task rest =>
      cases hperform : task.perform settings m with
      | ok more m' =>
        rw [Config.step_ok hperform] at hstep
        cases hstep
        cases hc'
      | error failure m' =>
        rw [Config.step_error hperform] at hstep
        cases hstep
        cases hc'
        by_cases hcall : ∃ line name args, task = .statement (.call line name args)
        · obtain ⟨line', name, args, rfl⟩ := hcall
          obtain ⟨rfl, rfl, hdeep, hwell⟩ := begin_call_eq_error.mp ⟨m', hperform⟩
          obtain ⟨routine, values, hwell⟩ := hwell
          exact ⟨rfl, ⟨rfl, name, args, rest, routine, values, rfl, hwell⟩,
            Nat.le_antisymm hle hdeep⟩
        · have hother : ∀ line name args, task ≠ .statement (.call line name args) :=
            fun line name args h => hcall ⟨line, name, args, h⟩
          exact absurd rfl (Task.raises_ordinary hother hperform limit)
  · rintro ⟨rfl, ⟨hnone, name, args, rest, routine, values, htasks, hroutine, harity, hvalues⟩,
      hdeep⟩
    cases hnone
    cases htasks
    obtain ⟨m', hbegin⟩ := begin_call_eq_error.mpr
      ⟨rfl, rfl, Nat.le_of_eq hdeep.symm, routine, values, hroutine, harity, hvalues⟩
    exact ⟨rfl, _, Config.step_error hbegin, rfl⟩

/-! ## Orders -/

theorem keeps_depth_declareEach (ds : List Decl) :
    Keeps Machine.depth (declareEach settings ds) := by
  induction ds with
  | nil => exact .pure ()
  | cons d rest ih => exact (keeps_declare settings d).depth.bind fun _ => ih

/-- Whatever becomes of an order, as many calls are in progress afterwards as before. -/
theorem Order.keeps_depth (order : Order) : Keeps Machine.depth (order.run settings) := by
  cases order with
  | program p =>
    refine (keeps_note _).calls.depth.bind fun _ => ?_
    refine (keeps_depth_declareEach p.declarations).bind fun _ => ?_
    refine (keeps_depth_statements p.statements).bind fun _ => .get fun _ => ?_
    exact (keeps_note _).calls.depth
  | statements body => exact keeps_depth_statements body
  | statement s => exact keeps_depth_run s

theorem depth_carryOut (orders : List Order) (m : Machine) :
    (carryOut settings orders m).depth = m.depth := by
  induction orders generalizing m with
  | nil => rfl
  | cons order orders ih =>
    rw [carryOut, ih]
    exact order.keeps_depth m

/-! ## The limit is reached -/

/-- A function without parameters that calls itself. -/
def Routine.endless : Routine :=
  ⟨[], [.call 1 "f" []], "f"⟩

theorem begin_endless (hroutine : m.routines.get? "f" = some .endless)
    (hroom : m.depth < settings.maxCallDepth.toNat) :
    ∃ log, (Stmt.call 1 "f" []).begin settings m =
      .ok [.parameters 1 [] [], .block [.call 1 "f" []], .leave 1 "f" .endless m.environment]
        { m with depth := m.depth + 1, log } := by
  have hbegin : (Stmt.call 1 "f" []).begin settings m =
      Run.begin settings 1 "f" [] { m with log := m.log.note (.executing 1) } :=
    rfl
  have hargs (m : Machine) : evaluateEach 1 [] m = .ok [] m := rfl
  refine ⟨(m.log.note (.executing 1)).note (.calling "f" m.depth), ?_⟩
  rw [hbegin, Run.begin, get_bind]
  simp only [hroutine]
  rw [if_neg (by decide), bind_ok (hargs _), if_neg (Nat.not_le_of_lt hroom)]
  rfl

/-- From where the function is called, calls can be entered until the limit is reached. -/
theorem Session.deepens {start : Machine} {past : List Config} (n : Nat)
    (h : Session settings start past ⟨m, .statement (.call 1 "f" []) :: rest, none⟩)
    (hroutine : m.routines.get? "f" = some .endless)
    (hn : m.depth + n ≤ settings.maxCallDepth.toNat) :
    ∃ past' m' rest',
      Session settings start past' ⟨m', .statement (.call 1 "f" []) :: rest', none⟩ ∧
      m'.routines.get? "f" = some .endless ∧ m'.depth = m.depth + n := by
  induction n generalizing m past rest with
  | zero => exact ⟨past, m, rest, h, hroutine, rfl⟩
  | succ n ih =>
    have hroom : m.depth < settings.maxCallDepth.toNat := by omega
    obtain ⟨log, hbegin⟩ := begin_endless hroutine hroom
    have hentered := h.stepped (Config.step_ok hbegin)
    have hcalling := ((hentered.stepped rfl).stepped rfl).stepped rfl
    obtain ⟨past', m', rest', h', hroutine', hdepth⟩ := ih hcalling hroutine (by
      show m.depth + 1 + n ≤ _
      omega)
    refine ⟨past', m', rest', h', hroutine', hdepth.trans ?_⟩
    show m.depth + 1 + n = _
    omega

/-- Some session comes to call a function where the limit has been reached. -/
theorem Session.reaches_limit (settings : Settings) (entropy : UInt64) (input : Input)
    (output : Output) (log : Log) :
    ∃ past c, Session settings (.initial settings entropy input output log) past c ∧
      c.machine.depth = settings.maxCallDepth.toNat ∧ c.CallsWell 1 := by
  have hopened : Session settings (.initial settings entropy input output log) [] _ := .opened
  have hdefined :=
    (hopened.ordered rfl (.statement (.define 1 "f" [] [.call 1 "f" []] "f"))).stepped rfl
  have hcalling := hdefined.ordered rfl (.statement (.call 1 "f" []))
  have hroutine := Table.get?_put_self (Table.empty) "f" Routine.endless
  have hroom : 0 + settings.maxCallDepth.toNat ≤ settings.maxCallDepth.toNat :=
    Nat.le_of_eq (Nat.zero_add _)
  obtain ⟨past, m, rest, h, hroutine', hdepth⟩ := hcalling.deepens _ hroutine hroom
  refine ⟨past, _, h, hdepth.trans (Nat.zero_add _), rfl, "f", [], rest, .endless, [], rfl, ?_⟩
  exact ⟨hroutine', rfl, rfl⟩

/-- The depth counts the calls in progress. At every place that a session leads through, it is the
number of the calls whose end is still to be done, and never more than the settings allow. A failure
for too many calls, which names the limit, is raised exactly where a call is met that is right in
all else, while as many calls are in progress as the settings allow; and there are sessions that
come to such a place. Every order leaves as many calls in progress as there were before it, whether
or not it fails, and none between the orders of a session. -/
theorem depth_counts_calls (settings : Settings) (entropy : UInt64) (input : Input)
    (output : Output) (log : Log) :
    (∀ past c, Session settings (.initial settings entropy input output log) past c →
      c.machine.depth = c.tasks.countP Task.isLeave ∧
      c.machine.depth ≤ settings.maxCallDepth.toNat ∧
      ∀ limit line, c.Fails settings ⟨.callDepth limit, line⟩ ↔
        limit = settings.maxCallDepth.toNat ∧ c.CallsWell line ∧
          c.machine.depth = settings.maxCallDepth.toNat) ∧
    (∃ past c, Session settings (.initial settings entropy input output log) past c ∧
      c.machine.depth = settings.maxCallDepth.toNat ∧ c.CallsWell 1) ∧
    (∀ (order : Order) (m : Machine), (left (order.run settings m)).depth = m.depth) ∧
    ∀ orders, ∃ past c, Session settings (.initial settings entropy input output log) past c ∧
      c.Halted ∧ c.machine.depth = 0 ∧
      c.machine = carryOut settings orders (.initial settings entropy input output log) := by
  refine ⟨fun past c h => ?_, Session.reaches_limit settings entropy input output log,
    fun order => order.keeps_depth, fun orders => ?_⟩
  · have hcounted := h.counted rfl
    exact ⟨hcounted.depth_eq, hcounted.depth_le, hcounted.fails_iff⟩
  · obtain ⟨past, c, h, hover, hmachine⟩ :=
      Session.carriesOut settings (.initial settings entropy input output log) orders
    have hdepth : c.machine.depth = 0 := by
      rw [hmachine, depth_carryOut]
      rfl
    exact ⟨past, c, h, hover, hdepth, hmachine⟩

/-- Where one call is allowed, the call in the body of a function is refused. -/
theorem second_call_refused :
    let settings : Settings := { maxCallDepth := 1 }
    ∃ past c, Session settings (.initial settings 0 ⟨[]⟩ .unlimited .off) past c ∧
      c.tasks.countP Task.isLeave = 1 ∧ c.Fails settings ⟨.callDepth 1, 1⟩ := by
  intro settings
  obtain ⟨hplaces, ⟨past, c, h, hdepth, hcalls⟩, -, -⟩ :=
    depth_counts_calls settings 0 ⟨[]⟩ .unlimited .off
  obtain ⟨hcount, -, hfails⟩ := hplaces past c h
  exact ⟨past, c, h, hcount.symm.trans hdepth, (hfails 1 1).mpr ⟨rfl, hcalls, hdepth⟩⟩

end DivisionScript
