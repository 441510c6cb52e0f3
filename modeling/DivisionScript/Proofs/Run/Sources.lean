import DivisionScript.Proofs.Run.Frame
import DivisionScript.Proofs.Run.Step

/-!
# Run — Sources

What a run takes numbers from: the input and the random numbers. Only the statement that reads a
number takes from the input, and only the one that draws a number from the random numbers. Leaving
a call puts nothing back to either.
-/

namespace DivisionScript

/-- What a run takes numbers from. -/
def Machine.sources (m : Machine) : Input × Random.Generator :=
  (m.input, m.generator)

namespace Run

variable {α : Type} {γ : Type} {view : Machine → γ} (settings : Settings) (line : Nat)
variable (name : String)

theorem Keeps.modify {f : Machine → Machine} (h : ∀ m, view (f m) = view m) :
    Keeps view (modify f : Run PUnit) :=
  h

/-- What leaves a part of the state alone makes no difference to it afterwards. -/
theorem Keeps.left_bind {β : Type} {x : Run α} {f : α → Run β} (hf : ∀ a, Keeps view (f a))
    (m : Machine) : view (left ((x >>= f) m)) = view (left (x m)) := by
  cases h : x m with
  | ok a m' =>
    rw [bind_ok h, hf a m']
    rfl
  | error failure m' =>
    rw [bind_error h]
    rfl

theorem Keeps.ite {c : Prop} [Decidable c] {x y : Run α} (hx : Keeps view x) (hy : Keeps view y) :
    Keeps view (if c then x else y) := by
  split
  · exact hx
  · exact hy

theorem sources_note (event : Event) : Keeps Machine.sources (note event) :=
  fun _ => rfl

theorem sources_evaluation (act : Environment → Evaluation α) :
    Keeps Machine.sources (evaluation line act) := by
  intro m
  rw [evaluation]
  cases act m.environment m.log <;> rfl

theorem sources_integer (e : Expr) : Keeps Machine.sources (integer line e) :=
  (sources_evaluation line _).bind fun _ => keeps_lift line _

theorem sources_condition (e : Expr) : Keeps Machine.sources (condition line e) :=
  (sources_evaluation line _).bind fun _ => keeps_lift line _

theorem sources_evaluateEach (args : List Expr) :
    Keeps Machine.sources (evaluateEach line args) := by
  induction args with
  | nil => exact .pure []
  | cons e rest ih => exact (sources_evaluation line _).bind fun _ => ih.bind fun _ => .pure _

theorem sources_checkTag (value : Value) (tag : Option TypeTag) :
    Keeps Machine.sources (checkTag line name value tag) := by
  cases tag with
  | none => exact .pure ()
  | some tag => exact .ite (.pure ()) (sources_note _)

theorem sources_bind (value : Value) : Keeps Machine.sources (bind settings line name value) :=
  .ite ((sources_evaluation line _).bind fun _ => .modify fun _ => rfl) (.modify fun _ => rfl)

theorem sources_write (text : String) : Keeps Machine.sources (write line text) := by
  intro m
  simp only [write]
  split <;> rfl

theorem sources_print (value : Expr) : Keeps Machine.sources (print line value) :=
  (sources_evaluation line _).bind fun _ => (sources_write line _).bind fun _ => sources_note _

theorem sources_assign (value : Expr) (tag : Option TypeTag) :
    Keeps Machine.sources (assign settings line name value tag) :=
  (sources_evaluation line _).bind fun v => (sources_checkTag line name v tag).bind fun _ =>
    (sources_note _).bind fun _ => sources_bind settings line name v

theorem sources_define (routine : Routine) : Keeps Machine.sources (define name routine) := by
  intro m
  rw [define, get_bind, set_bind]
  exact Keeps.ite (sources_note _) (sources_note _)
    { m with routines := m.routines.put name routine }

theorem sources_returned (routine : Routine) : Keeps Machine.sources (returned routine) := by
  intro m
  rw [returned_eq]
  rfl

theorem sources_declare (d : Decl) : Keeps Machine.sources (declare settings d) := by
  cases d with
  | program | author | date => exact (sources_note _).bind fun _ => .modify fun _ => rfl
  | const line name e =>
    refine (sources_evaluation line _).bind fun value => .get fun m => .ite (.fail line _) ?_
    exact (sources_note _).bind fun _ => .modify fun _ => rfl

theorem sources_begin (args : List Expr) :
    Keeps Machine.sources (Run.begin settings line name args) := by
  refine .get fun m => ?_
  cases m.routines.get? name with
  | none => exact .fail line _
  | some routine =>
    refine .ite (.fail line _) ((sources_evaluateEach line args).bind fun values => ?_)
    refine .ite (.fail line _) ((sources_note _).bind fun _ => ?_)
    exact Keeps.bind (.modify fun _ => rfl) fun _ => .pure _

/-! ### One of the two -/

theorem Keeps.input {act : Run α} (h : Keeps Machine.sources act) : Keeps Machine.input act :=
  h.map Prod.fst

theorem Keeps.generator {act : Run α} (h : Keeps Machine.sources act) :
    Keeps Machine.generator act :=
  h.map Prod.snd

theorem input_drawInto (least greatest : Expr) :
    Keeps Machine.input (drawInto settings line name least greatest) := by
  refine (sources_integer line least).input.bind fun l =>
    (sources_integer line greatest).input.bind fun g => .ite (.fail line _) ?_
  refine Keeps.bind (fun _ => rfl) fun drawn => (sources_note _).input.bind fun _ => ?_
  exact (sources_bind settings line name _).input

theorem generator_readLine : Keeps Machine.generator (readLine line) := by
  intro m
  rw [readLine]
  split
  · rfl
  · split <;> rfl

theorem generator_readNumber (prompt : String) :
    Keeps Machine.generator (readNumber line prompt) := by
  unfold readNumber
  dsimp only
  -- with or without a prompt, the line is read in the same way
  refine .ite ((sources_write line _).generator.bind fun _ => ?_) ?_
  all_goals
    refine (generator_readLine line).bind fun text => ?_
    cases Number.ofString? (Text.trim text) with
    | some x => exact (sources_note _).generator.bind fun _ => .pure x
    | none => exact .fail line _

theorem generator_readInto (prompt : String) :
    Keeps Machine.generator (readInto settings line name prompt) :=
  (generator_readNumber line prompt).bind fun _ => (sources_bind settings line name _).generator

end Run

open Run

/-- Whether a statement reads a number from the input. -/
def Stmt.reads : Stmt → Bool
  | .input .. => true
  | _ => false

/-- Whether a statement draws a random number. -/
def Stmt.draws : Stmt → Bool
  | .rand .. => true
  | _ => false

/-- Whether a statement takes a number from somewhere. -/
def Stmt.takes (s : Stmt) : Bool :=
  s.reads || s.draws

/-- Whether a task takes a number from somewhere. -/
def Task.takes : Task → Bool
  | .statement s => s.takes
  | _ => false

theorem Stmt.keeps_sources (settings : Settings) {s : Stmt} (h : ¬ s.takes) :
    Keeps Machine.sources (s.begin settings) := by
  cases s with
  | input | rand => exact absurd rfl h
  | assign line name value tag =>
    exact (sources_note _).bind fun _ => (sources_assign settings line name value tag).bind fun _ =>
      .pure _
  | print line value =>
    exact (sources_note _).bind fun _ => (sources_print line value).bind fun _ => .pure _
  | branch line condition thenBody elseBody =>
    exact (sources_note _).bind fun _ => (sources_condition line condition).bind fun _ =>
      (sources_note _).bind fun _ => .pure _
  | loop line name start stop body =>
    exact (sources_note _).bind fun _ => (sources_integer line start).bind fun _ =>
      (sources_integer line stop).bind fun _ => (sources_note _).bind fun _ => .pure _
  | define line name params body result =>
    exact (sources_note _).bind fun _ => (sources_define name _).bind fun _ => .pure _
  | call line name args =>
    exact (sources_note _).bind fun _ => sources_begin settings line name args

theorem Stmt.keeps_input (settings : Settings) {s : Stmt} (h : ¬ s.reads) :
    Keeps Machine.input (s.begin settings) := by
  cases s with
  | input => exact absurd rfl h
  | rand line name least greatest =>
    exact (sources_note _).input.bind fun _ =>
      (input_drawInto settings line name least greatest).bind fun _ => .pure _
  | _ => exact Keeps.input (Stmt.keeps_sources settings nofun)

theorem Stmt.keeps_generator (settings : Settings) {s : Stmt} (h : ¬ s.draws) :
    Keeps Machine.generator (s.begin settings) := by
  cases s with
  | rand => exact absurd rfl h
  | input line name prompt =>
    exact (sources_note _).generator.bind fun _ =>
      (generator_readInto settings line name prompt).bind fun _ => .pure _
  | _ => exact Keeps.generator (Stmt.keeps_sources settings nofun)

theorem Task.keeps_sources (settings : Settings) {task : Task} (h : ¬ task.takes) :
    Keeps Machine.sources (task.perform settings) := by
  cases task with
  | program p => exact (sources_note _).bind fun _ => .pure _
  | declarations ds =>
    cases ds with
    | nil => exact .pure _
    | cons d rest => exact (sources_declare settings d).bind fun _ => .pure _
  | statement s => exact s.keeps_sources settings h
  | statements body => cases body <;> exact .pure _
  | block body => exact (sources_note _).bind fun _ => .pure _
  | passes line name next stop body =>
    exact .ite ((sources_bind settings line name _).bind fun _ => .pure _) (.pure _)
  | parameters line params values =>
    cases params with
    | nil => exact .pure _
    | cons param params =>
      cases values with
      | nil => exact .pure _
      | cons value values =>
        exact (sources_note _).bind fun _ => (sources_bind settings line param value).bind
          fun _ => .pure _
  | leave line name routine caller =>
    exact (sources_returned routine).bind fun value => Keeps.bind (.modify fun _ => rfl) fun _ =>
      (sources_note _).bind fun _ => (sources_bind settings line name value).bind fun _ => .pure _
  | finish => exact .get fun m => (sources_note _).bind fun _ => .pure _

theorem Task.sources_giveUp (task : Task) (m : Machine) :
    (task.giveUp m).sources = m.sources := by
  cases task <;> rfl

/-- The statement that the next step begins, if it begins one. -/
def Config.next? (c : Config) : Option Stmt :=
  match c.tasks, c.failure with
  | .statement s :: _, none => some s
  | _, _ => none

theorem Config.next?_of_halted {c : Config} (h : c.Halted) : c.next? = none := by
  rw [next?, show c.tasks = [] from h]

theorem Config.machine_after (rest : List Task)
    (result : EStateM.Result Failure Machine (List Task)) :
    (after rest result).machine = left result := by
  cases result <;> rfl

/-- A step that begins no statement takes nothing. -/
theorem Config.step_sources {settings : Settings} {c c' : Config}
    (h : c.step settings = some c') :
    (∃ m s rest, c = ⟨m, .statement s :: rest, none⟩ ∧
      c'.machine = left (s.begin settings m)) ∨
    c.next? = none ∧ c'.machine.sources = c.machine.sources := by
  obtain ⟨m, task, rest, ⟨rfl, rfl⟩ | ⟨failure, rfl, rfl⟩⟩ := step_eq_some h
  · rw [machine_after]
    cases task with
    | statement s => exact .inl ⟨m, s, rest, rfl, rfl⟩
    | _ => exact .inr ⟨rfl, Task.keeps_sources settings (by exact nofun) m⟩
  · refine .inr ⟨?_, task.sources_giveUp m⟩
    cases task <;> rfl

end DivisionScript
