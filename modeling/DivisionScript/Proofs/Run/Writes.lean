import DivisionScript.Proofs.Run.Effect
import DivisionScript.Proofs.Run.Step

/-!
# Run — Writes

The one name that a step writes. A statement writes its target where it begins, a loop its variable
where a pass begins, and a call the name of the function where it ends. A preorder that allows this
name to be written relates the environments before and after the step; the end of a call leads on
from the environment that it puts back.
-/

namespace DivisionScript

/-- The name that a statement writes where it begins, if it succeeds. -/
def Stmt.target? : Stmt → Option String
  | .assign _ name .. | .input _ name _ | .rand _ name .. => some name
  | _ => none

/-- The name that a task writes, if it succeeds. Declarations are left out. -/
def Task.target? : Task → Option String
  | .statement s => s.target?
  | .passes _ name next stop _ => if next ≤ stop then some name else none
  | .parameters _ (param :: _) (_ :: _) => some param
  | .leave _ name _ _ => some name
  | _ => none

namespace Run

variable {r : Environment → Environment → Prop} [IsPreorder Environment r]
variable {settings : Settings}

/-- A call that begins writes nothing yet. -/
theorem leads_begin (line : Nat) (name : String) (args : List Expr) :
    Leads r (Run.begin settings line name args) := by
  refine .get fun m => ?_
  split
  · exact .fail line _
  · split
    · exact .fail line _
    · refine .after (keeps_evaluateEach line args) fun values => ?_
      split
      · exact .fail line _
      · exact .after (keeps_note _) fun _ => Keeps.leads fun _ => rfl

/-- The end of a call leads on from the environment that it puts back. -/
theorem leads_leave {name : String} (hallows : Environment.Allows settings r name) (line : Nat)
    (routine : Routine) (caller : Environment) (m : Machine) :
    r caller (left (Task.perform settings (.leave line name routine caller) m)).environment := by
  have hrest (value : Value) : Leads r (do
      note (.returned name value)
      bind settings line name value
      pure ([] : List Task)) :=
    .after (keeps_note _) fun _ => (leads_bind line hallows value).bind fun _ => .pure _
  rw [Task.perform, bind_ok (returned_eq routine m)]
  exact hrest _ (Machine.leave caller m)

end Run

open Run

variable {r : Environment → Environment → Prop} [IsPreorder Environment r]
variable {settings : Settings}

theorem Stmt.leads_begin {s : Stmt}
    (hallows : ∀ name ∈ s.target?, Environment.Allows settings r name) :
    Leads r (s.begin settings) := by
  cases s with
  | assign line name value tag =>
    have hassign := leads_assign line (hallows name rfl) value tag
    exact .after (keeps_note _) fun _ => hassign.bind fun _ => .pure _
  | print line value =>
    exact .after (keeps_note _) fun _ => .after (keeps_print line value) fun _ => .pure _
  | input line name prompt =>
    have hread := leads_readInto line (hallows name rfl) prompt
    exact .after (keeps_note _) fun _ => hread.bind fun _ => .pure _
  | branch line condition thenBody elseBody =>
    exact .after (keeps_note _) fun _ => .after (keeps_condition line condition) fun _ =>
      .after (keeps_note _) fun _ => .pure _
  | loop line name start stop body =>
    exact .after (keeps_note _) fun _ => .after (keeps_integer line start) fun _ =>
      .after (keeps_integer line stop) fun _ => .after (keeps_note _) fun _ => .pure _
  | rand line name least greatest =>
    have hdraw := leads_drawInto line (hallows name rfl) least greatest
    exact .after (keeps_note _) fun _ => hdraw.bind fun _ => .pure _
  | define line name params body result =>
    have hdefine : Leads r (Run.define name ⟨params, body, result⟩) :=
      ((keeps_define name _).map Prod.fst).leads
    exact .after (keeps_note _) fun _ => hdefine.bind fun _ => .pure _
  | call line name args => exact .after (keeps_note _) fun _ => Run.leads_begin line name args

/-- A task that carries out no declaration leads on from the present environment, or from the one
that it puts back. -/
theorem Task.leads_perform {task : Task} (hnone : ∀ ds, task ≠ .declarations ds)
    (hallows : ∀ name ∈ task.target?, Environment.Allows settings r name) (m : Machine) :
    r (task.giveUp m).environment (left (task.perform settings m)).environment := by
  have hlive (hact : Leads r (task.perform settings)) :
      r m.environment (left (task.perform settings m)).environment :=
    hact m
  cases task with
  | declarations ds => exact absurd rfl (hnone ds)
  | leave line name routine caller => exact leads_leave (hallows name rfl) line routine caller m
  | program p => exact hlive (.after (keeps_note _) fun _ => .pure _)
  | statement s => exact hlive (Stmt.leads_begin hallows)
  | statements body =>
    refine hlive ?_
    cases body with
    | nil => exact .pure _
    | cons s rest => exact .pure _
  | block body => exact hlive (.after (keeps_note _) fun _ => .pure _)
  | passes line name next stop body =>
    refine hlive ?_
    rw [Task.perform]
    split
    · next hmore =>
      have hbind := leads_bind line (hallows name (if_pos hmore)) (.number (Number.ofWhole next))
      exact hbind.bind fun _ => .pure _
    · exact .pure _
  | parameters line params values =>
    refine hlive ?_
    cases params with
    | nil => exact .pure _
    | cons param params =>
      cases values with
      | nil => exact .pure _
      | cons value values =>
        have hbind := leads_bind line (hallows param rfl) value
        exact .after (keeps_note _) fun _ => hbind.bind fun _ => .pure _
  | finish => exact hlive (.get fun _ => .after (keeps_note _) fun _ => .pure _)

end DivisionScript
