import DivisionScript.Proofs.Run.Relabel

/-!
# Run — Translation

What becomes of a whole run when states, failures and tasks are replaced. If every task begins from
the image of a state as the task whose image it is begins from the state, then every step leads from
the image of a place to the image of the next one, and so orders and sessions end in the images of
the states that they leave.
-/

namespace DivisionScript

open Run

/-- What is put in the place of states, failures and tasks. -/
structure Translation where
  machine : Machine → Machine
  failure : Failure → Failure
  task : Task → Task

namespace Translation

variable (τ : Translation)

/-- A result with its state and its failure replaced. -/
abbrev result {α : Type} : EStateM.Result Failure Machine α → EStateM.Result Failure Machine α :=
  mapResult τ.machine τ.failure

/-- A place in a run with all that belongs to it replaced. -/
def config (c : Config) : Config :=
  ⟨τ.machine c.machine, c.tasks.map τ.task, c.failure.map τ.failure⟩

/-- The second computation does from the image of a state what the first one does from the state,
and what it leaves to be done is the image of what the first one leaves. -/
def Begins (x x' : Run (List Task)) : Prop :=
  Mirrors τ.machine τ.failure (List.map τ.task <$> x) x'

/-- Tasks begin and are given up in the same way from the images of states. -/
structure Faithful (settings : Settings) : Prop where
  perform : ∀ task, τ.Begins (task.perform settings) ((τ.task task).perform settings)
  giveUp : ∀ task m, (τ.task task).giveUp (τ.machine m) = τ.machine (task.giveUp m)

variable {τ} {settings : Settings}

namespace Begins

variable {α : Type}

theorem pure (tasks : List Task) : τ.Begins (pure tasks) (pure (tasks.map τ.task)) :=
  Mirrors.pure _

theorem bind {x x' : Run α} {f f' : α → Run (List Task)}
    (hx : Mirrors τ.machine τ.failure x x') (hf : ∀ a, τ.Begins (f a) (f' a)) :
    τ.Begins (x >>= f) (x' >>= f') := by
  rw [Begins, map_bind]
  exact hx.bind hf

theorem get {f f' : Machine → Run (List Task)} (h : ∀ m, τ.Begins (f m) (f' (τ.machine m))) :
    τ.Begins (MonadState.get >>= f) (MonadState.get >>= f') := by
  rw [Begins, map_bind]
  exact .get h

theorem fail {line line' : Nat} {fault fault' : Fault}
    (h : τ.failure ⟨fault, line⟩ = ⟨fault', line'⟩) :
    τ.Begins (Run.fail line fault) (Run.fail line' fault') :=
  fun m => congrArg (EStateM.Result.error · (τ.machine m)) h.symm

theorem ite {c : Prop} [Decidable c] {x x' y y' : Run (List Task)} (hx : τ.Begins x x')
    (hy : τ.Begins y y') : τ.Begins (if c then x else y) (if c then x' else y') := by
  split
  · exact hx
  · exact hy

/-- Where tasks stay as they are, a computation that is mirrored leaves them as they are. -/
theorem of_mirrors {x x' : Run (List Task)} (htask : τ.task = id)
    (h : Mirrors τ.machine τ.failure x x') : τ.Begins x x' := by
  rw [Begins, htask, List.map_id_fun, id_map]
  exact h

theorem ok {x x' : Run (List Task)} (h : τ.Begins x x') {m m' : Machine} {tasks : List Task}
    (hx : x m = .ok tasks m') : x' (τ.machine m) = .ok (tasks.map τ.task) (τ.machine m') := by
  have hmap : (List.map τ.task <$> x) m = .ok (tasks.map τ.task) m' := by
    rw [map_eq_pure_bind, bind_ok hx]
    rfl
  rw [h m, hmap]
  rfl

theorem error {x x' : Run (List Task)} (h : τ.Begins x x') {m m' : Machine} {failure : Failure}
    (hx : x m = .error failure m') :
    x' (τ.machine m) = .error (τ.failure failure) (τ.machine m') := by
  have hmap : (List.map τ.task <$> x) m = .error failure m' := by
    rw [map_eq_pure_bind, bind_error hx]
  rw [h m, hmap]
  rfl

end Begins

/-! ## Steps -/

section faithful

variable (h : τ.Faithful settings)
include h

theorem Faithful.step (c : Config) :
    (τ.config c).step settings = (c.step settings).map τ.config := by
  obtain ⟨m, tasks, failure⟩ := c
  cases tasks with
  | nil => rfl
  | cons task rest =>
    cases failure with
    | some failure =>
      show some (Config.mk ((τ.task task).giveUp (τ.machine m)) _ _) = _
      rw [h.giveUp]
      rfl
    | none =>
      cases hperform : task.perform settings m with
      | ok more m' =>
        rw [Config.step_ok hperform]
        refine (Config.step_ok ((h.perform task).ok hperform)).trans ?_
        rw [← List.map_append]
        rfl
      | error failure m' =>
        rw [Config.step_error hperform]
        exact Config.step_error ((h.perform task).error hperform)

theorem Faithful.reaches {c c' : Config} (hreaches : Config.Reaches settings c c') :
    Config.Reaches settings (τ.config c) (τ.config c') := by
  refine Relation.ReflTransGen.lift τ.config (fun c c' hstep => ?_) _ _ hreaches
  show (τ.config c).step settings = some (τ.config c')
  rw [h.step, hstep]
  rfl

/-! ## Orders and sessions -/

/-- The steps of an order end where the order does, and so do their images. -/
theorem Faithful.run {order order' : Order} (htask : order'.task = τ.task order.task)
    (m : Machine) : order'.run settings (τ.machine m) = τ.result (order.run settings m) := by
  have hperforms : Performs settings [order.task] (order.run settings) m := order.performs
  obtain ⟨c, hreaches, hover, hresult⟩ := hperforms.ends
  have hreaches' := h.reaches hreaches
  rw [config, List.map_singleton, ← htask] at hreaches'
  have hover' : (τ.config c).Halted := List.map_eq_nil_iff.mpr hover
  rw [Order.run_eq hreaches' hover', ← hresult]
  obtain ⟨m', tasks, failure⟩ := c
  cases failure <;> rfl

theorem Faithful.outcomes {f : Order → Order} (htask : ∀ order, (f order).task = τ.task order.task)
    (orders : List Order) (m : Machine) :
    outcomes settings (orders.map f) (τ.machine m) =
      (DivisionScript.outcomes settings orders m).map τ.result := by
  induction orders generalizing m with
  | nil => rfl
  | cons order orders ih =>
    have hleft (r : EStateM.Result Failure Machine Unit) :
        left (τ.result r) = τ.machine (left r) := by
      cases r <;> rfl
    rw [List.map_cons, DivisionScript.outcomes, DivisionScript.outcomes, List.map_cons,
      h.run (htask order), hleft, ih]

end faithful

end Translation

end DivisionScript
