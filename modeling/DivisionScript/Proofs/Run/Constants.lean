import DivisionScript.Proofs.Run.Begin
import DivisionScript.Proofs.Run.Session
import DivisionScript.Proofs.Run.Writes

/-!
# Run — Constants

What is a constant, over whole sessions: exactly the names whose declarations have been carried out,
in every state that is reached, inside the bodies of functions too. Where constants are enforced,
each has the value that its declaration computed, whatever is written later. The environments that
calls in progress will put back are looked at as well: declarations are carried out only where no
call is in progress, so no environment that is put back can lack one.
-/

namespace DivisionScript

open Run

/-- The step from here carries out the declaration of a constant, whose expression has the value. -/
def Config.Declares (settings : Settings) (c : Config) (name : String) (value : Value) : Prop :=
  c.failure = none ∧ ∃ line e rest tasks m,
    c.tasks = .declarations (.const line name e :: rest) :: tasks ∧
    e.value c.machine.environment = .ok value ∧
    declare settings (.const line name e) c.machine = .ok () m

/-- The declaration of a constant with the value has been carried out at one of the places. -/
def Declared (settings : Settings) (past : List Config) (name : String) (value : Value) : Prop :=
  ∃ before ∈ past, before.Declares settings name value

/-- The environment that a task puts back. -/
def Task.caller? : Task → Option Environment
  | .leave _ _ _ caller => some caller
  | _ => none

/-- Whether a task carries out declarations. -/
def Task.declares : Task → Bool
  | .program _ | .declarations _ => true
  | _ => false

/-- The environment of a place in a run, and those that the calls in progress will put back. -/
def Config.environments (c : Config) : List Environment :=
  c.machine.environment :: c.tasks.filterMap Task.caller?

/-! ## Environments -/

namespace Environment

variable {settings : Settings} {name : String} {value : Value} {env env' : Environment}
variable {declared declared' : String → Value → Prop}

/-- The constants of an environment are those that have been declared; where constants are
enforced, they have the declared values. -/
structure Records (settings : Settings) (declared : String → Value → Prop) (env : Environment) :
    Prop where
  isConstant_iff : ∀ name, env.isConstant name ↔ ∃ value, declared name value
  binding?_eq : settings.enforceConstants → ∀ name value, declared name value →
    env.binding? name = some ⟨value, true⟩

/-- The flags of an environment are unchanged and, where constants are enforced, the values of the
constants are too. -/
structure Guards (settings : Settings) (env env' : Environment) : Prop where
  isConstant_eq : ∀ name, env'.isConstant name = env.isConstant name
  binding?_eq : settings.enforceConstants → ∀ name, env.isConstant name →
    env'.binding? name = env.binding? name

instance (settings : Settings) : IsPreorder Environment (Guards settings) where
  refl _ := ⟨fun _ => rfl, fun _ _ _ => rfl⟩
  trans _ _ _ h h' := by
    refine ⟨fun name => (h'.isConstant_eq name).trans (h.isConstant_eq name), ?_⟩
    intro henforce name hname
    have hname' := (h.isConstant_eq name).trans hname
    exact (h'.binding?_eq henforce name hname').trans (h.binding?_eq henforce name hname)

/-- Writing a name changes no flag, and no constant where constants are enforced. -/
theorem Guards.allows (settings : Settings) (name : String) :
    Allows settings (Guards settings) name := by
  rintro env env' (rfl | ⟨hfree, value, rfl⟩)
  · exact refl_of (Guards settings) _
  · refine ⟨isConstant_set env name value, fun henforce needle hneedle => ?_⟩
    have hne : needle ≠ name := by
      rintro rfl
      rw [hfree henforce] at hneedle
      cases hneedle
    rw [binding?_set, if_neg hne]

theorem Records.congr (h : Records settings declared env)
    (hiff : ∀ name value, declared' name value ↔ declared name value) :
    Records settings declared' env := by
  have hsame : declared' = declared := by
    funext name value
    exact propext (hiff name value)
  rwa [hsame]

theorem Records.guards (h : Records settings declared env) (hguards : Guards settings env env') :
    Records settings declared env' := by
  constructor
  · intro name
    rw [hguards.isConstant_eq, h.isConstant_iff]
  · intro henforce name value hdeclared
    have hconstant := (h.isConstant_iff name).mpr ⟨value, hdeclared⟩
    rw [hguards.binding?_eq henforce name hconstant, h.binding?_eq henforce name value hdeclared]

/-- A constant that may be declared is recorded beside the others. -/
theorem Records.defineConstant (h : Records settings declared env)
    (hfree : settings.enforceConstants → env.isConstant name = false) :
    Records settings (fun needle v => needle = name ∧ v = value ∨ declared needle v)
      (env.defineConstant name value) := by
  constructor
  · intro needle
    rw [isConstant_defineConstant, Bool.or_eq_true, decide_eq_true_eq, h.isConstant_iff]
    constructor
    · rintro (rfl | ⟨v, hv⟩)
      · exact ⟨value, .inl ⟨rfl, rfl⟩⟩
      · exact ⟨v, .inr hv⟩
    · rintro ⟨v, ⟨rfl, -⟩ | hv⟩
      · exact .inl rfl
      · exact .inr ⟨v, hv⟩
  · rintro henforce needle v (⟨rfl, rfl⟩ | hv)
    · rw [binding?_defineConstant, if_pos rfl]
    · have hne : needle ≠ name := by
        rintro rfl
        have hconstant := (h.isConstant_iff needle).mpr ⟨v, hv⟩
        rw [hfree henforce] at hconstant
        cases hconstant
      rw [binding?_defineConstant, if_neg hne, h.binding?_eq henforce needle v hv]

end Environment

/-! ## What is left of a task -/

section tasks

variable {α : Type} {settings : Settings} {m m' : Machine} {line : Nat} {name : String}

/-- A task that neither carries out declarations nor puts an environment back. -/
structure Task.Plain (task : Task) : Prop where
  declares : task.declares = false
  caller? : task.caller? = none

/-- A task carries out no declaration, and the environment that it puts back, if any, is the given
one. -/
def Task.Follows (env : Environment) (task : Task) : Prop :=
  task.declares = false ∧ ∀ caller ∈ task.caller?, caller = env

theorem Task.Plain.follows {task : Task} (h : task.Plain) (env : Environment) :
    task.Follows env := by
  refine ⟨h.declares, fun caller hcaller => ?_⟩
  rw [h.caller?] at hcaller
  cases hcaller

/-- The environment that a call puts back is the one that it began in. -/
theorem Stmt.Begun.follows {s : Stmt} {tasks : List Task} (h : s.Begun settings m tasks m') :
    ∀ task ∈ tasks, task.Follows m'.environment := by
  intro task htask
  cases h with
  | done => cases htask
  | branch | loop =>
    cases List.mem_singleton.mp htask
    exact Task.Plain.follows ⟨rfl, rfl⟩ _
  | call =>
    simp only [List.mem_cons, List.not_mem_nil, or_false] at htask
    rcases htask with rfl | rfl | rfl
    · exact Task.Plain.follows ⟨rfl, rfl⟩ _
    · exact Task.Plain.follows ⟨rfl, rfl⟩ _
    · refine ⟨rfl, fun caller hcaller => ?_⟩
      cases hcaller
      rfl

/-- What a task leaves to be done carries out no declaration, and puts back the environment that it
was left in. -/
theorem Task.forwards {task : Task} {tasks : List Task} (hplain : task.declares = false)
    (h : task.perform settings m = .ok tasks m') :
    ∀ later ∈ tasks, later.Follows m'.environment := by
  have hfollows {later : Task} (h : later.Plain) : later.Follows m'.environment :=
    h.follows m'.environment
  cases Task.performed h with
  | done => exact List.forall_mem_nil _
  | program | declarations => cases hplain
  | statement h => exact h.follows
  | block | parameters => exact List.forall_mem_singleton.mpr (hfollows ⟨rfl, rfl⟩)
  | statements | passes =>
    exact List.forall_mem_cons.mpr
      ⟨hfollows ⟨rfl, rfl⟩, List.forall_mem_singleton.mpr (hfollows ⟨rfl, rfl⟩)⟩

end tasks

/-! ## What a task does to the constants -/

section guards

open Environment

/-- Giving up a task leaves the present environment, or the one that it puts back. -/
theorem Task.environment_giveUp (task : Task) (m : Machine) :
    (task.giveUp m).environment = m.environment ∨
      task.caller? = some (task.giveUp m).environment := by
  cases task with
  | leave => exact .inr rfl
  | _ => exact .inl rfl

/-- A task that carries out no declaration leads on from the present environment, or from the one
that it puts back. -/
theorem Task.guards (settings : Settings) {task : Task} (h : task.declares = false) (m : Machine) :
    ∃ env, (env = m.environment ∨ task.caller? = some env) ∧
      Guards settings env (left (task.perform settings m)).environment := by
  have hnone : ∀ ds, task ≠ .declarations ds := by
    rintro ds rfl
    cases h
  exact ⟨_, task.environment_giveUp m,
    Task.leads_perform hnone (fun name _ => Guards.allows settings name) m⟩

end guards

/-! ## Declarations -/

section declarations

variable {settings : Settings} {m m' : Machine} {line : Nat} {name : String}

theorem atomic_declare (d : Decl) : Atomic Machine.environment (declare settings d) := by
  cases d with
  | program | author | date =>
    exact Keeps.atomic ((keeps_note _).environment.bind fun _ _ => rfl)
  | const line name e =>
    refine .bind (keeps_evaluate line e).environment fun value => .get fun m => ?_
    split
    · exact (Keeps.fail line _).atomic
    · refine .bind (keeps_note _).environment fun _ => ?_
      rintro m failure m' ⟨⟩

/-- What a declaration that is carried out does to the environment. -/
theorem declare_eq_ok {d : Decl} (h : declare settings d m = .ok () m') :
    ((∀ line name e, d ≠ .const line name e) ∧ m'.environment = m.environment) ∨
    ∃ line name e value, d = .const line name e ∧ e.value m.environment = .ok value ∧
      (settings.enforceConstants → m.environment.isConstant name = false) ∧
      m'.environment = m.environment.defineConstant name value := by
  cases d with
  | program | author | date =>
    cases h
    exact .inl ⟨nofun, rfl⟩
  | const line name e =>
    obtain ⟨value, _, hevaluate, hmore⟩ := bind_eq_ok.mp h
    obtain ⟨hvalue, log, rfl⟩ := evaluate_eq_ok hevaluate
    obtain ⟨_, _, hget, hmore⟩ := bind_eq_ok.mp hmore
    cases hget
    dsimp only at hmore
    split at hmore
    · cases hmore
    · next hfree =>
      cases hmore
      refine .inr ⟨line, name, e, value, rfl, hvalue, fun henforce => ?_, rfl⟩
      rw [henforce, Bool.true_and] at hfree
      exact Bool.eq_false_iff.mpr hfree

end declarations

/-! ## Places in a run -/

/-- The environments of a place in a session record the declarations that have been carried out
before, and what still has to carry out declarations comes first and stands in no call. -/
structure Config.Sound (settings : Settings) (past : List Config) (c : Config) : Prop where
  records : ∀ env ∈ c.environments, env.Records settings (Declared settings past)
  declaresFirst : c.tasks.Pairwise fun task later =>
    later.declares = false ∧ (task.declares → later.caller? = none)

section places

variable {settings : Settings} {past : List Config} {c c' : Config} {name : String} {value : Value}
variable {task : Task} {rest : List Task} {m m' : Machine} {failure : Option Failure}
variable {d : Decl} {ds : List Decl}

theorem declared_cons :
    Declared settings (c :: past) name value ↔
      c.Declares settings name value ∨ Declared settings past name value := by
  simp [Declared, or_and_right, exists_or]

/-- A place that declares nothing may be left behind. -/
theorem Config.Sound.cons (h : Config.Sound settings past c')
    (hnone : ∀ name value, ¬ c.Declares settings name value) :
    Config.Sound settings (c :: past) c' := by
  refine ⟨fun env henv => (h.records env henv).congr fun name value => ?_, h.declaresFirst⟩
  rw [declared_cons]
  exact or_iff_right (hnone name value)

theorem Config.mem_environments {env : Environment} :
    env ∈ (⟨m, task :: rest, failure⟩ : Config).environments ↔
      (env = m.environment ∨ task.caller? = some env) ∨ env ∈ rest.filterMap Task.caller? := by
  cases h : task.caller? with
  | none => simp [Config.environments, h]
  | some caller => simp [Config.environments, h, or_assoc, eq_comm]

/-- Giving up a task leads to an environment that was there before. -/
theorem Config.Sound.giveUp (h : Config.Sound settings past ⟨m, task :: rest, failure⟩) :
    Config.Sound settings past ⟨task.giveUp m, rest, failure⟩ := by
  refine ⟨fun env henv => ?_, (List.pairwise_cons.mp h.declaresFirst).2⟩
  refine h.records env (Config.mem_environments.mpr ?_)
  rcases List.mem_cons.mp henv with rfl | henv
  · exact .inl (task.environment_giveUp m)
  · exact .inr henv

/-- A task that carries out no declaration leads to a sound place. -/
theorem Config.Sound.perform (h : Config.Sound settings past ⟨m, task :: rest, none⟩)
    (hplain : task.declares = false)
    (hstep : Config.step settings ⟨m, task :: rest, none⟩ = some c') :
    Config.Sound settings past c' := by
  obtain ⟨env, henv, hguards⟩ := Task.guards settings hplain m
  have hrecords := (h.records env (Config.mem_environments.mpr (.inl henv))).guards hguards
  have hrest : ∀ env ∈ rest.filterMap Task.caller?, env.Records settings (Declared settings past) :=
    fun env henv => h.records env (Config.mem_environments.mpr (.inr henv))
  obtain ⟨hlater, hpairs⟩ := List.pairwise_cons.mp h.declaresFirst
  cases hperform : task.perform settings m with
  | error failure m' =>
    rw [Config.step_error hperform, Option.some_inj] at hstep
    rw [hperform] at hrecords
    subst hstep
    refine ⟨fun env henv => ?_, hpairs⟩
    rcases List.mem_cons.mp henv with rfl | henv
    · exact hrecords
    · exact hrest env henv
  | ok more m' =>
    rw [Config.step_ok hperform, Option.some_inj] at hstep
    rw [hperform] at hrecords
    subst hstep
    -- what is left to be done puts back the environment of now, or was there before
    have hmore := Task.forwards hplain hperform
    constructor
    · intro env henv
      rw [Config.environments, List.filterMap_append, List.mem_cons, List.mem_append] at henv
      rcases henv with rfl | henv | henv
      · exact hrecords
      · obtain ⟨task', htask', hcaller⟩ := List.mem_filterMap.mp henv
        rw [(hmore task' htask').2 env hcaller]
        exact hrecords
      · exact hrest env henv
    · have hfirst {later : Task} {task' : Task} (htask' : task' ∈ more) :
          task'.declares → later.caller? = none := by
        rw [(hmore task' htask').1]
        exact nofun
      refine List.pairwise_append.mpr ⟨?_, hpairs, ?_⟩
      · exact List.pairwise_of_forall_mem_list fun task' htask' later hlater =>
          ⟨(hmore later hlater).1, hfirst htask'⟩
      · exact fun task' htask' later hrest' => ⟨(hlater later hrest').1, hfirst htask'⟩

/-- Where no environment will be put back, only the present one counts. -/
theorem Config.Sound.of_plain
    (hrecords : m.environment.Records settings (Declared settings past))
    (hrest : ∀ later ∈ rest, later.Plain) : Config.Sound settings past ⟨m, rest, failure⟩ := by
  constructor
  · intro env henv
    rcases List.mem_cons.mp henv with rfl | henv
    · exact hrecords
    · obtain ⟨task, htask, hcaller⟩ := List.mem_filterMap.mp henv
      rw [(hrest task htask).caller?] at hcaller
      cases hcaller
  · exact List.pairwise_of_forall_mem_list fun _ _ later hlater =>
      ⟨(hrest later hlater).declares, fun _ => (hrest later hlater).caller?⟩

theorem Config.Sound.of_first
    (hrecords : m.environment.Records settings (Declared settings past))
    (htask : task.caller? = none) (hrest : ∀ later ∈ rest, later.Plain) :
    Config.Sound settings past ⟨m, task :: rest, failure⟩ := by
  have h : Config.Sound settings past ⟨m, rest, failure⟩ := .of_plain hrecords hrest
  constructor
  · intro env henv
    rw [Config.mem_environments, htask] at henv
    rcases henv with (rfl | ⟨⟨⟩⟩) | henv
    · exact hrecords
    · exact h.records env (List.mem_cons_of_mem _ henv)
  · exact List.pairwise_cons.mpr
      ⟨fun later hlater => ⟨(hrest later hlater).declares, fun _ => (hrest later hlater).caller?⟩,
        h.declaresFirst⟩

/-- Only the declaration of a constant declares one. -/
theorem Config.declares_iff :
    (⟨m, .declarations (d :: ds) :: rest, none⟩ : Config).Declares settings name value ↔
      ∃ line e m', d = .const line name e ∧ e.value m.environment = .ok value ∧
        declare settings d m = .ok () m' := by
  constructor
  · rintro ⟨-, line, e, ds', tasks, m', htasks, hvalue, hdeclare⟩
    cases htasks
    exact ⟨line, e, m', rfl, hvalue, hdeclare⟩
  · rintro ⟨line, e, m', rfl, hvalue, hdeclare⟩
    exact ⟨rfl, line, e, ds, rest, m', rfl, hvalue, hdeclare⟩

/-- A declaration that is carried out is recorded. -/
theorem records_declare (hrecords : m.environment.Records settings (Declared settings past))
    (hdeclare : declare settings d m = .ok () m') :
    m'.environment.Records settings
      (Declared settings (⟨m, .declarations (d :: ds) :: rest, none⟩ :: past)) := by
  rcases declare_eq_ok hdeclare with
    ⟨hconst, henv⟩ | ⟨line, name, e, value, rfl, hvalue, hfree, henv⟩
  · rw [henv]
    refine hrecords.congr fun name value => ?_
    rw [declared_cons, Config.declares_iff]
    refine or_iff_right ?_
    rintro ⟨line, e, -, hd, -⟩
    exact hconst line name e hd
  · rw [henv]
    refine (hrecords.defineConstant hfree).congr fun needle v => ?_
    rw [declared_cons, Config.declares_iff]
    refine or_congr_left ?_
    constructor
    · rintro ⟨line', e', -, hd, hvalue', -⟩
      cases hd
      rw [hvalue] at hvalue'
      cases hvalue'
      exact ⟨rfl, rfl⟩
    · rintro ⟨rfl, rfl⟩
      exact ⟨line, e, m', rfl, hvalue, hdeclare⟩

theorem Config.Sound.declaration
    (hrecords : m.environment.Records settings (Declared settings past))
    (hrest : ∀ later ∈ rest, later.Plain)
    (hstep : Config.step settings ⟨m, .declarations (d :: ds) :: rest, none⟩ = some c') :
    Config.Sound settings (⟨m, .declarations (d :: ds) :: rest, none⟩ :: past) c' := by
  cases hdeclare : declare settings d m with
  | ok _ m' =>
    rw [Config.step_ok (bind_ok hdeclare)] at hstep
    cases hstep
    exact .of_first (records_declare hrecords hdeclare) rfl hrest
  | error failure m' =>
    -- a refused declaration changes nothing and declares nothing
    rw [Config.step_error (bind_error hdeclare)] at hstep
    cases hstep
    rw [← atomic_declare d hdeclare] at hrecords
    refine .cons (.of_plain hrecords hrest) fun name value hdeclares => ?_
    obtain ⟨_, _, _, _, _, hok⟩ := Config.declares_iff.mp hdeclares
    rw [hdeclare] at hok
    cases hok

/-- A step of a session leads from a sound place to a sound place. -/
theorem Config.Sound.step (h : Config.Sound settings past c) (hstep : c.step settings = some c') :
    Config.Sound settings (c :: past) c' := by
  obtain ⟨m, tasks, failure⟩ := c
  cases tasks with
  | nil => cases hstep
  | cons task rest =>
    cases failure with
    | some failure =>
      cases hstep
      exact h.giveUp.cons (by rintro name value ⟨⟨⟩, -⟩)
    | none =>
      have hplain (hdeclares : task.declares) : ∀ later ∈ rest, later.Plain := fun later hlater =>
        have hfirst := (List.pairwise_cons.mp h.declaresFirst).1 later hlater
        ⟨hfirst.1, hfirst.2 hdeclares⟩
      have hrecords := h.records m.environment (List.mem_cons_self ..)
      cases task with
      | declarations ds =>
        cases ds with
        | nil =>
          cases hstep
          refine .cons (.of_plain hrecords (hplain rfl)) ?_
          rintro name value ⟨-, line, e, ds, tasks, m', ⟨⟩, -⟩
        | cons d ds => exact .declaration hrecords (hplain rfl) hstep
      | program p =>
        cases hstep
        refine .cons (.of_first hrecords rfl ?_) ?_
        · simpa using ⟨⟨rfl, rfl⟩, ⟨rfl, rfl⟩, hplain rfl⟩
        · rintro name value ⟨-, line, e, ds, tasks, m', ⟨⟩, -⟩
      | _ =>
        refine (h.perform rfl hstep).cons ?_
        rintro name value ⟨-, line, e, ds, tasks, m', ⟨⟩, -⟩

end places

/-- Every place that a session reaches is sound, if no name was bound when it was opened. -/
theorem Session.sound {settings : Settings} {start : Machine} {past : List Config} {c : Config}
    (hstart : start.environment = .empty) (h : Session settings start past c) :
    Config.Sound settings past c := by
  induction h with
  | opened =>
    refine .of_plain ?_ nofun
    rw [hstart]
    constructor
    · simp [Declared, Environment.isConstant]
    · simp [Declared]
  | @ordered past c h hover order ih =>
    have hrecords := ih.records c.machine.environment (List.mem_cons_self ..)
    have htask : order.task.caller? = none := by cases order <;> rfl
    refine .cons (.of_first hrecords htask nofun) ?_
    rintro name value ⟨-, line, e, ds, tasks, m', htasks, -⟩
    rw [hover] at htasks
    cases htasks
  | stepped _ hstep ih => exact ih.step hstep

/-- Constants over whole sessions. Whatever programs, lists of statements and statements a new state
is given to carry out, and whether or not they fail, at every place that this leads through, also
inside the bodies of functions, a name is a constant if and only if its declaration has been carried
out before; and where constants are enforced, it then has the value that the declaration computed.
This holds of the present environment and of each that a call in progress will put back. The states
that execution leaves between the orders are among these places. -/
theorem session_keeps_constants (settings : Settings) (entropy : UInt64) (input : Input)
    (output : Output) (log : Log) :
    (∀ past c, Session settings (.initial settings entropy input output log) past c →
      ∀ env ∈ c.environments, ∀ name,
        (env.isConstant name ↔ ∃ value, Declared settings past name value) ∧
        (settings.enforceConstants → ∀ value, Declared settings past name value →
          env.binding? name = some ⟨value, true⟩)) ∧
    ∀ orders, ∃ past c, Session settings (.initial settings entropy input output log) past c ∧
      c.Halted ∧
      c.machine = carryOut settings orders (.initial settings entropy input output log) := by
  refine ⟨fun past c h env henv name => ?_, Session.carriesOut settings _⟩
  have hrecords := (h.sound rfl).records env henv
  exact ⟨hrecords.isConstant_iff name, fun henforce => hrecords.binding?_eq henforce name⟩

/-- The parameter of `f` has the name of a constant. The call fails; the constant has its value
inside the call and in the environment that the call will put back. -/
theorem constant_outlasts_parameter :
    let start := Machine.initial {} 0 ⟨[]⟩ .unlimited .off
    let p : Program :=
      ⟨[.const 1 "k" (.string "v")], [.define 2 "f" ["k"] [] "k", .call 3 "f" [.string "w"]]⟩
    ∃ past c, Session {} start past c ∧ ⟨start, [.program p], none⟩ ∈ past ∧
      c.failure = some ⟨.constant "k", 3⟩ ∧ c.environments.length = 2 ∧
      ∀ env ∈ c.environments, env.binding? "k" = some ⟨.string "v", true⟩ := by
  intro start p
  have hopened : Session {} start [] ⟨start, [], none⟩ := .opened
  have hdeclaring := (hopened.ordered rfl (.program p)).stepped rfl
  have hcalling := (((((hdeclaring.stepped rfl).stepped rfl).stepped rfl).stepped rfl).stepped
    rfl).stepped rfl
  have hfailed := (hcalling.stepped rfl).stepped rfl
  refine ⟨_, _, hfailed, List.mem_of_getElem? (i := 8) rfl, rfl, rfl, fun env henv => ?_⟩
  have hconstant := (session_keeps_constants {} 0 ⟨[]⟩ .unlimited .off).1 _ _ hfailed env henv "k"
  -- the declaration was carried out eight steps before
  refine hconstant.2 rfl _ ⟨_, List.mem_of_getElem? (i := 7) rfl, rfl, ?_⟩
  exact ⟨1, .string "v", [], _, _, rfl, rfl, rfl⟩

end DivisionScript
