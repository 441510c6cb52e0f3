import DivisionScript.Proofs.State
import DivisionScript.Run.Execution

/-!
# Run — Frame

What a computation leaves alone. `Keeps view act` says that `act` leaves a part of the state as it
was, whether or not it succeeds; `Atomic view act` says so only where `act` fails. The steps that
statements are made of keep the environment, the functions and the depth, except for writing a
name, which is atomic.
-/

namespace DivisionScript

/-- The functions and how many calls are in progress. -/
def Machine.calls (m : Machine) : Table Routine × Nat :=
  (m.routines, m.depth)

/-- All that statements work on but the output, the input and the random numbers. -/
def Machine.core (m : Machine) : Environment × Table Routine × Nat :=
  (m.environment, m.calls)

/-- What a function returns from an environment: the value of its result, zero if it has none. -/
def Routine.value (routine : Routine) (env : Environment) : Value :=
  match env.get routine.result with
  | .ok value => value
  | .error _ => .number 0.0

namespace Run

variable {α β γ δ : Type} {view : Machine → γ}

/-- The state that a computation leaves, whether or not it succeeded. -/
def left : EStateM.Result Failure Machine α → Machine
  | .ok _ m => m
  | .error _ m => m

/-- The computation leaves a part of the state as it was. -/
def Keeps (view : Machine → γ) (act : Run α) : Prop :=
  ∀ m, view (left (act m)) = view m

/-- A failure of the computation leaves a part of the state as it was. -/
def Atomic (view : Machine → γ) (act : Run α) : Prop :=
  ∀ ⦃m failure m'⦄, act m = .error failure m' → view m' = view m

theorem Keeps.ok {act : Run α} (h : Keeps view act) {m m' : Machine} {a : α}
    (e : act m = .ok a m') : view m' = view m := by
  have := h m
  rwa [e] at this

theorem Keeps.atomic {act : Run α} (h : Keeps view act) : Atomic view act := by
  intro m failure m' e
  have := h m
  rwa [e] at this

theorem Keeps.map {act : Run α} (h : Keeps view act) (f : γ → δ) :
    Keeps (fun m => f (view m)) act :=
  fun m => congrArg f (h m)

theorem Atomic.map {act : Run α} (h : Atomic view act) (f : γ → δ) :
    Atomic (fun m => f (view m)) act :=
  fun _ _ _ e => congrArg f (h e)

theorem Keeps.environment {act : Run α} (h : Keeps Machine.core act) :
    Keeps Machine.environment act :=
  h.map Prod.fst

theorem Keeps.calls {act : Run α} (h : Keeps Machine.core act) : Keeps Machine.calls act :=
  h.map Prod.snd

theorem Keeps.depth {act : Run α} (h : Keeps Machine.calls act) : Keeps Machine.depth act :=
  h.map Prod.snd

/-! ## Ways of building computations -/

theorem Keeps.pure (a : α) : Keeps view (pure a : Run α) :=
  fun _ => rfl

theorem Keeps.fail (line : Nat) (fault : Fault) : Keeps view (fail line fault : Run α) :=
  fun _ => rfl

theorem Keeps.bind {x : Run α} {f : α → Run β} (hx : Keeps view x) (hf : ∀ a, Keeps view (f a)) :
    Keeps view (x >>= f) := by
  intro m
  cases h : x m with
  | ok a m' =>
    rw [bind_ok h, hf a m']
    exact hx.ok h
  | error failure m' =>
    rw [bind_error h]
    exact hx.atomic h

/-- Only the last part of a computation has to be atomic where the others leave things alone. -/
theorem Atomic.bind {x : Run α} {f : α → Run β} (hx : Keeps view x)
    (hf : ∀ a, Atomic view (f a)) : Atomic view (x >>= f) := by
  intro m failure m' e
  cases h : x m with
  | ok a between =>
    rw [bind_ok h] at e
    exact (hf a e).trans (hx.ok h)
  | error failure' between =>
    rw [bind_error h] at e
    cases e
    exact hx.atomic h

theorem Keeps.get {f : Machine → Run β} (h : ∀ m, Keeps view (f m)) : Keeps view (get >>= f) :=
  fun m => h m m

theorem Atomic.get {f : Machine → Run β} (h : ∀ m, Atomic view (f m)) :
    Atomic view (MonadState.get >>= f) :=
  fun m _ _ e => h m e

/-! ## The steps -/

section steps

variable (settings : Settings) (line : Nat)

theorem keeps_note (event : Event) : Keeps Machine.core (note event) :=
  fun _ => rfl

theorem keeps_lift (x : Except Fault α) : Keeps view (lift line x) := by
  cases x with
  | ok a => exact .pure a
  | error fault => exact .fail line fault

theorem keeps_evaluation (act : Environment → Evaluation α) :
    Keeps Machine.core (evaluation line act) := by
  intro m
  rw [evaluation]
  cases act m.environment m.log <;> rfl

theorem keeps_evaluate (e : Expr) : Keeps Machine.core (evaluate line e) :=
  keeps_evaluation line _

theorem keeps_integer (e : Expr) : Keeps Machine.core (integer line e) :=
  (keeps_evaluate line e).bind fun _ => keeps_lift line _

theorem keeps_condition (e : Expr) : Keeps Machine.core (condition line e) :=
  (keeps_evaluate line e).bind fun _ => keeps_lift line _

theorem keeps_evaluateEach (args : List Expr) : Keeps Machine.core (evaluateEach line args) := by
  induction args with
  | nil => exact .pure []
  | cons e rest ih =>
    exact (keeps_evaluate line e).bind fun _ => ih.bind fun _ => .pure _

theorem keeps_checkTag (name : String) (value : Value) (tag : Option TypeTag) :
    Keeps Machine.core (checkTag line name value tag) := by
  cases tag with
  | none => exact .pure ()
  | some tag =>
    rw [checkTag]
    split
    · exact .pure ()
    · exact keeps_note _

theorem keeps_write (text : String) : Keeps Machine.core (write line text) := by
  intro m
  simp only [write]
  split <;> rfl

theorem keeps_printLine (value : Value) : Keeps Machine.core (printLine line value) :=
  (keeps_write line _).bind fun _ => keeps_note _

theorem keeps_readLine : Keeps Machine.core (readLine line) := by
  intro m
  rw [readLine]
  split
  · rfl
  · split <;> rfl

theorem keeps_readNumber (prompt : String) : Keeps Machine.core (readNumber line prompt) := by
  unfold readNumber
  dsimp only
  split
  · refine (keeps_write line _).bind fun _ => (keeps_readLine line).bind fun text => ?_
    split
    · exact (keeps_note _).bind fun _ => .pure _
    · exact .fail line _
  · refine (keeps_readLine line).bind fun text => ?_
    split
    · exact (keeps_note _).bind fun _ => .pure _
    · exact .fail line _

theorem keeps_draw (least greatest : Int) : Keeps Machine.core (draw least greatest) :=
  fun _ => rfl

theorem write_of_constant {name : String} {m : Machine}
    (h : m.environment.isConstant name = true) (value : Value) :
    evaluation line (fun env => env.write name value) m =
      .error ⟨.constant name, line⟩ { m with log := m.log.note (.constantKept name) } := by
  rw [evaluation, Environment.write, Environment.assign, if_pos h]
  rfl

theorem write_of_free {name : String} {m : Machine}
    (h : m.environment.isConstant name = false) (value : Value) :
    evaluation line (fun env => env.write name value) m =
      .ok (m.environment.set name value) m := by
  rw [evaluation, Environment.write, Environment.assign, if_neg (Bool.eq_false_iff.mp h)]
  rfl

/-- Writing a name either succeeds or changes nothing but the reports. -/
theorem atomic_bind (name : String) (value : Value) :
    Atomic Machine.core (bind settings line name value) := by
  rw [Run.bind]
  split
  -- a constant is refused before anything is written
  · refine .bind (keeps_evaluation line _) fun environment => ?_
    intro m failure m' e
    cases e
  · intro m failure m' e
    cases e

/-- Writing a name leaves the functions and the depth alone. -/
theorem keeps_bind (name : String) (value : Value) :
    Keeps Machine.calls (bind settings line name value) := by
  rw [Run.bind]
  split
  · exact (keeps_evaluation line _).calls.bind fun environment _ => rfl
  · exact fun _ => rfl

theorem keeps_bindEach (params : List String) (values : List Value) :
    Keeps Machine.calls (bindEach settings line params values) := by
  induction params generalizing values with
  | nil => exact .pure ()
  | cons param params ih =>
    cases values with
    | nil => exact .pure ()
    | cons value values =>
      exact (keeps_note _).calls.bind fun _ =>
        (keeps_bind settings line param value).bind fun _ => ih values

end steps

/-! ## What statements are made of -/

section parts

variable (settings : Settings) (line : Nat) (name : String)

theorem keeps_print (value : Expr) : Keeps Machine.core (print line value) :=
  (keeps_evaluate line value).bind fun _ => keeps_printLine line _

theorem atomic_assign (value : Expr) (tag : Option TypeTag) :
    Atomic Machine.core (assign settings line name value tag) := by
  refine .bind (keeps_evaluate line value) fun v => ?_
  refine .bind (keeps_checkTag line name v tag) fun _ => ?_
  exact .bind (keeps_note _) fun _ => atomic_bind settings line name v

theorem atomic_readInto (prompt : String) :
    Atomic Machine.core (readInto settings line name prompt) :=
  .bind (keeps_readNumber line prompt) fun _ => atomic_bind settings line name _

theorem atomic_drawInto (least greatest : Expr) :
    Atomic Machine.core (drawInto settings line name least greatest) := by
  refine .bind (keeps_integer line least) fun l => .bind (keeps_integer line greatest) fun g => ?_
  split
  · exact (Keeps.fail line _).atomic
  · refine .bind (keeps_draw l g) fun drawn => .bind (keeps_note _) fun _ => ?_
    exact atomic_bind settings line name _

theorem keeps_assign (value : Expr) (tag : Option TypeTag) :
    Keeps Machine.calls (assign settings line name value tag) := by
  refine (keeps_evaluate line value).calls.bind fun v => ?_
  refine (keeps_checkTag line name v tag).calls.bind fun _ => ?_
  exact (keeps_note _).calls.bind fun _ => keeps_bind settings line name v

theorem keeps_readInto (prompt : String) :
    Keeps Machine.calls (readInto settings line name prompt) :=
  (keeps_readNumber line prompt).calls.bind fun _ => keeps_bind settings line name _

theorem keeps_drawInto (least greatest : Expr) :
    Keeps Machine.calls (drawInto settings line name least greatest) := by
  refine (keeps_integer line least).calls.bind fun l => ?_
  refine (keeps_integer line greatest).calls.bind fun g => ?_
  split
  · exact .fail line _
  · refine (keeps_draw l g).calls.bind fun drawn => ?_
    exact (keeps_note _).calls.bind fun _ => keeps_bind settings line name _

/-- Defining a function changes the functions and nothing else but the reports. -/
theorem keeps_define (routine : Routine) :
    Keeps (fun m => (m.environment, m.depth)) (define name routine) := by
  intro m
  -- both reports keep everything, also from the state with the new function
  have hreport : Keeps Machine.core (if m.routines.contains name then
      note (.functionRedefined name)
    else note (.functionDefined name routine.params.length)) := by
    split <;> exact keeps_note _
  exact (hreport.map fun core => (core.1, core.2.2)) { m with routines := _ }

/-- A declaration changes neither the functions nor the depth. -/
theorem keeps_declare (d : Decl) : Keeps Machine.calls (declare settings d) := by
  cases d with
  | program | author | date => exact (keeps_note _).calls.bind fun _ _ => rfl
  | const line name e =>
    refine (keeps_evaluate line e).calls.bind fun value => .get fun m => ?_
    split
    · exact .fail line _
    · exact (keeps_note _).calls.bind fun _ _ => rfl

/-- A function returns a value from any state. -/
theorem returned_eq (routine : Routine) (m : Machine) :
    returned routine m = .ok (routine.value m.environment) m := by
  have hstate : (MonadState.get : Run Machine) m = .ok m m := rfl
  rw [returned, bind_ok hstate, Routine.value]
  cases m.environment.get routine.result with
  | ok value => rfl
  | error fault => rfl

theorem left_leaving (leave : Machine → Machine) (act : Run α) (m : Machine) :
    left (leaving leave act m) = leave (left (act m)) := by
  rw [leaving]
  cases act m <;> rfl

/-- Whatever a body does, the environment and the depth are put back. -/
theorem keeps_activate (routine : Routine) (values : List Value) (enter : List Stmt → Run Unit) :
    Keeps (fun m => (m.environment, m.depth)) (activate settings line routine values enter) := by
  intro m
  rw [activate, left_leaving]

theorem keeps_call (descent : Descent) (args : List Expr) :
    Keeps Machine.depth (call settings descent line name args) := by
  refine .get fun m => ?_
  split
  · exact .fail line _
  · split
    · exact .fail line _
    · refine (keeps_evaluateEach line args).calls.depth.bind fun values => ?_
      split
      · exact .fail line _
      · refine (keeps_note _).calls.depth.bind fun _ => ?_
        refine ((keeps_activate settings line _ values _).map Prod.snd).bind fun value => ?_
        refine (keeps_note _).calls.depth.bind fun _ => ?_
        exact (keeps_bind settings line name value).depth

/-- The body of a call runs on the live environment, but a failure in it is put back; what is left
is writing the result. -/
theorem atomic_call (descent : Descent) (args : List Expr) :
    Atomic Machine.environment (call settings descent line name args) := by
  refine .get fun m => ?_
  split
  · exact (Keeps.fail line _).atomic
  · split
    · exact (Keeps.fail line _).atomic
    · refine .bind (keeps_evaluateEach line args).environment fun values => ?_
      split
      · exact (Keeps.fail line _).atomic
      · refine .bind (keeps_note _).environment fun _ => ?_
        refine .bind ((keeps_activate settings line _ values _).map Prod.fst) fun value => ?_
        refine .bind (keeps_note _).environment fun _ => ?_
        exact (atomic_bind settings line name value).map Prod.fst

end parts

end Run

end DivisionScript
