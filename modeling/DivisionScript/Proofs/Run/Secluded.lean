import DivisionScript.Proofs.Run.Frame
import DivisionScript.Proofs.Run.Step

/-!
# Run — Secluded

What takes no part in the traffic of a run. A computation is secluded if it goes on in the same way
whatever can be read from the input and whatever has been written to the output, and leaves both
alone. Only printing a value and reading a number are not secluded, so every step of a run is but a
print and an input.
-/

namespace DivisionScript

/-- The state with another input and another output. -/
def Machine.withChannels (input : Input) (output : Output) (m : Machine) : Machine :=
  { m with input, output }

/-- The input and the output of a state. -/
def Machine.channels (m : Machine) : Input × Output :=
  (m.input, m.output)

namespace Run

variable {α β : Type}

/-- The computation does the same whatever the input and the output are, and leaves them alone. -/
def Secluded (act : Run α) : Prop :=
  ∀ input output, Mirrors (Machine.withChannels input output) id act act

namespace Secluded

theorem keeps {act : Run α} (h : Secluded act) : Keeps Machine.channels act := by
  intro m
  have hsame : act m = mapResult (Machine.withChannels m.input m.output) id (act m) :=
    h m.input m.output m
  cases hact : act m with
  | ok a m' =>
    rw [hact] at hsame
    exact congrArg (fun result => (left result).channels) hsame
  | error failure m' =>
    rw [hact] at hsame
    exact congrArg (fun result => (left result).channels) hsame

/-- The computation goes on in the same way from channels that are made of its own. -/
theorem mirrors {act : Run α} (h : Secluded act) (f : Input → Input) (g : Output → Output) :
    Mirrors (fun m => m.withChannels (f m.input) (g m.output)) id act act := by
  intro m
  have hkept : (left (act m)).channels = m.channels := h.keeps m
  obtain ⟨hinput, houtput⟩ := Prod.mk.inj hkept
  show act (m.withChannels (f m.input) (g m.output)) = _
  rw [h (f m.input) (g m.output) m, ← hinput, ← houtput]
  cases act m <;> rfl

theorem pure (a : α) : Secluded (pure a : Run α) :=
  fun _ _ => .pure a

theorem bind {x : Run α} {f : α → Run β} (hx : Secluded x) (hf : ∀ a, Secluded (f a)) :
    Secluded (x >>= f) :=
  fun input output => (hx input output).bind fun a => hf a input output

/-- What is read off the state is no part of the channels. -/
theorem get {f : Machine → Run β} (h : ∀ m, Secluded (f m))
    (hsame : ∀ input output m, f (m.withChannels input output) = f m) :
    Secluded (MonadState.get >>= f) := by
  intro input output
  refine .get fun m => ?_
  rw [hsame input output m]
  exact h m input output

theorem modify {g : Machine → Machine}
    (h : ∀ input output m, g (m.withChannels input output) = (g m).withChannels input output) :
    Secluded (modify g : Run PUnit) :=
  fun input output => .modify (h input output)

theorem ite {c : Prop} [Decidable c] {x y : Run α} (hx : Secluded x) (hy : Secluded y) :
    Secluded (if c then x else y) :=
  fun input output => .ite (hx input output) (hy input output)

end Secluded

/-! ## The steps -/

section steps

variable (settings : Settings) (line : Nat)

theorem secluded_note (event : Event) : Secluded (note event) :=
  .modify fun _ _ _ => rfl

theorem secluded_fail (fault : Fault) : Secluded (fail line fault : Run α) :=
  fun _ _ _ => rfl

theorem secluded_lift (x : Except Fault α) : Secluded (lift line x) := by
  cases x with
  | ok a => exact .pure a
  | error fault => exact secluded_fail line fault

theorem secluded_evaluation (act : Environment → Evaluation α) :
    Secluded (evaluation line act) := by
  intro input output m
  have henv : (m.withChannels input output).environment = m.environment := rfl
  have hlog : (m.withChannels input output).log = m.log := rfl
  rw [evaluation, evaluation, henv, hlog]
  cases act m.environment m.log <;> rfl

theorem secluded_evaluate (e : Expr) : Secluded (evaluate line e) :=
  secluded_evaluation line _

theorem secluded_integer (e : Expr) : Secluded (integer line e) :=
  (secluded_evaluate line e).bind fun _ => secluded_lift line _

theorem secluded_condition (e : Expr) : Secluded (condition line e) :=
  (secluded_evaluate line e).bind fun _ => secluded_lift line _

theorem secluded_evaluateEach (args : List Expr) : Secluded (evaluateEach line args) := by
  induction args with
  | nil => exact .pure []
  | cons e rest ih => exact (secluded_evaluate line e).bind fun _ => ih.bind fun _ => .pure _

theorem secluded_checkTag (name : String) (value : Value) (tag : Option TypeTag) :
    Secluded (checkTag line name value tag) := by
  cases tag with
  | none => exact .pure ()
  | some tag => exact .ite (.pure ()) (secluded_note _)

theorem secluded_draw (least greatest : Int) : Secluded (draw least greatest) :=
  fun _ _ _ => rfl

theorem secluded_bind (name : String) (value : Value) :
    Secluded (bind settings line name value) :=
  .ite ((secluded_evaluation line _).bind fun _ => .modify fun _ _ _ => rfl)
    (.modify fun _ _ _ => rfl)

theorem secluded_returned (routine : Routine) : Secluded (returned routine) := by
  refine .get (fun m => ?_) fun _ _ _ => rfl
  cases m.environment.get routine.result <;> exact .pure _

theorem secluded_assign (name : String) (value : Expr) (tag : Option TypeTag) :
    Secluded (assign settings line name value tag) :=
  (secluded_evaluate line value).bind fun v => (secluded_checkTag line name v tag).bind fun _ =>
    (secluded_note _).bind fun _ => secluded_bind settings line name v

theorem secluded_drawInto (name : String) (least greatest : Expr) :
    Secluded (drawInto settings line name least greatest) := by
  refine (secluded_integer line least).bind fun l =>
    (secluded_integer line greatest).bind fun g => ?_
  refine .ite (secluded_fail line _) ((secluded_draw l g).bind fun drawn => ?_)
  exact (secluded_note _).bind fun _ => secluded_bind settings line name _

theorem secluded_define (name : String) (routine : Routine) : Secluded (define name routine) := by
  intro input output
  refine .get fun m => ?_
  have hput : ({ m.withChannels input output with
        routines := (m.withChannels input output).routines.put name routine } : Machine) =
      { m with routines := m.routines.put name routine }.withChannels input output := rfl
  rw [hput]
  refine (Mirrors.set _).bind fun _ => ?_
  exact .ite (secluded_note _ input output) (secluded_note _ input output)

theorem secluded_defineConstant (name : String) (value : Value) :
    Secluded (defineConstant settings line name value) := by
  refine .get (fun m => .ite (secluded_fail line _) ?_) fun _ _ _ => rfl
  exact (secluded_note _).bind fun _ => .modify fun _ _ _ => rfl

theorem secluded_declare (d : Decl) : Secluded (declare settings d) := by
  cases d with
  | program | author | date => exact (secluded_note _).bind fun _ => .modify fun _ _ _ => rfl
  | const line name e =>
    exact (secluded_evaluate line e).bind fun value =>
      secluded_defineConstant settings line name value

theorem secluded_begin (name : String) (args : List Expr) :
    Secluded (Run.begin settings line name args) := by
  refine .get (fun m => ?_) fun _ _ _ => rfl
  cases m.routines.get? name with
  | none => exact secluded_fail line _
  | some routine =>
    refine .ite (secluded_fail line _) ((secluded_evaluateEach line args).bind fun values => ?_)
    refine .ite (secluded_fail line _) ((secluded_note _).bind fun _ => ?_)
    exact Secluded.bind (.modify fun _ _ _ => rfl) fun _ => .pure _

end steps

end Run

open Run

/-- Whether a statement takes part in the traffic: it prints a value, or reads a number. -/
def Stmt.communicates : Stmt → Bool
  | .print .. | .input .. => true
  | _ => false

theorem Stmt.secluded_begin (settings : Settings) {s : Stmt} (h : ¬ s.communicates) :
    Secluded (s.begin settings) := by
  cases s with
  | print | input => exact absurd rfl h
  | assign line name value tag =>
    exact (secluded_note _).bind fun _ => (secluded_assign settings line name value tag).bind
      fun _ => .pure _
  | branch line condition thenBody elseBody =>
    exact (secluded_note _).bind fun _ => (secluded_condition line condition).bind fun _ =>
      (secluded_note _).bind fun _ => .pure _
  | loop line name start stop body =>
    exact (secluded_note _).bind fun _ => (secluded_integer line start).bind fun _ =>
      (secluded_integer line stop).bind fun _ => (secluded_note _).bind fun _ => .pure _
  | rand line name least greatest =>
    exact (secluded_note _).bind fun _ => (secluded_drawInto settings line name least greatest).bind
      fun _ => .pure _
  | define line name params body result =>
    exact (secluded_note _).bind fun _ => (secluded_define name _).bind fun _ => .pure _
  | call line name args =>
    exact (secluded_note _).bind fun _ => Run.secluded_begin settings line name args

/-- A task that begins no statement is secluded. -/
theorem Task.secluded_perform (settings : Settings) {task : Task}
    (h : ∀ s, task ≠ .statement s) : Secluded (task.perform settings) := by
  cases task with
  | statement s => exact absurd rfl (h s)
  | program p => exact (secluded_note _).bind fun _ => .pure _
  | declarations ds =>
    cases ds with
    | nil => exact .pure _
    | cons d rest => exact (secluded_declare settings d).bind fun _ => .pure _
  | statements body => cases body <;> exact .pure _
  | block body => exact (secluded_note _).bind fun _ => .pure _
  | passes line name next stop body =>
    exact .ite ((secluded_bind settings line name _).bind fun _ => .pure _) (.pure _)
  | parameters line params values =>
    cases params with
    | nil => exact .pure _
    | cons param params =>
      cases values with
      | nil => exact .pure _
      | cons value values =>
        exact (secluded_note _).bind fun _ => (secluded_bind settings line param value).bind
          fun _ => .pure _
  | leave line name routine caller =>
    exact (secluded_returned routine).bind fun value => Secluded.bind (.modify fun _ _ _ => rfl)
      fun _ => (secluded_note _).bind fun _ => (secluded_bind settings line name value).bind
        fun _ => .pure _
  | finish => exact .get (fun m => (secluded_note _).bind fun _ => .pure _) fun _ _ _ => rfl

end DivisionScript
