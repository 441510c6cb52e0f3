import DivisionScript.Proofs.Run.Evaluation
import DivisionScript.Proofs.Run.Failure
import DivisionScript.Proofs.Run.Step

/-!
# Run — Raises

Which failures the steps of a run raise. Whatever a step evaluates, writes, prints or reads, its
failures have the line that it was given, and only the beginning of a call can fail because too many
calls are in progress.
-/

namespace DivisionScript

/-- A failure of the given line, but not for the calls in progress. -/
structure Failure.Plain (line : Nat) (failure : Failure) : Prop where
  line_eq : failure.line = line
  ordinary : failure.fault.Ordinary

namespace Run

variable {α : Type} {P : Failure → Prop}

theorem raises_note (event : Event) : Raises P (note event) :=
  fun _ _ _ => nofun

theorem raises_modify (f : Machine → Machine) : Raises P (modify f : Run PUnit) :=
  fun _ _ _ => nofun

/-! ## The steps -/

section steps

variable (settings : Settings) (line : Nat)

theorem raises_fail {fault : Fault} (h : fault.Ordinary) :
    Raises (Failure.Plain line) (fail line fault : Run α) := by
  rintro m failure m' ⟨⟩
  exact ⟨rfl, h⟩

theorem raises_lift {x : Except Fault α} (h : Shallow x) :
    Raises (Failure.Plain line) (lift line x) := by
  cases x with
  | ok a => exact .pure a
  | error fault => exact raises_fail line (h rfl)

theorem raises_evaluation {act : Environment → Evaluation α}
    (h : ∀ env, Evaluation.Built (act env)) :
    Raises (Failure.Plain line) (evaluation line act) := by
  intro m failure m' e
  rw [evaluation] at e
  cases hact : act m.environment m.log with
  | ok a log =>
    rw [hact] at e
    cases e
  | error fault log =>
    rw [hact] at e
    cases e
    exact ⟨rfl, (h m.environment).raises hact⟩

theorem raises_evaluate (e : Expr) : Raises (Failure.Plain line) (evaluate line e) :=
  raises_evaluation line e.built

theorem raises_integer (e : Expr) : Raises (Failure.Plain line) (integer line e) :=
  (raises_evaluate line e).bind fun v => raises_lift line v.shallow_asInteger

theorem raises_condition (e : Expr) : Raises (Failure.Plain line) (condition line e) :=
  (raises_evaluate line e).bind fun v => raises_lift line v.shallow_isTruthy

theorem raises_evaluateEach (args : List Expr) :
    Raises (Failure.Plain line) (evaluateEach line args) := by
  induction args with
  | nil => exact .pure []
  | cons e rest ih => exact (raises_evaluate line e).bind fun _ => ih.bind fun _ => .pure _

theorem raises_checkTag (name : String) (value : Value) (tag : Option TypeTag) :
    Raises P (checkTag line name value tag) := by
  cases tag with
  | none => exact .pure ()
  | some tag => exact .ite (.pure ()) (raises_note _)

theorem raises_bind (name : String) (value : Value) :
    Raises (Failure.Plain line) (bind settings line name value) := by
  refine .ite (.bind ?_ fun _ => raises_modify _) (raises_modify _)
  exact raises_evaluation line fun env => env.built_write name value

theorem raises_bindEach (params : List String) (values : List Value) :
    Raises (Failure.Plain line) (bindEach settings line params values) := by
  induction params generalizing values with
  | nil => exact .pure ()
  | cons param params ih =>
    cases values with
    | nil => exact .pure ()
    | cons value values =>
      exact (raises_note _).bind fun _ => (raises_bind settings line param value).bind fun _ =>
        ih values

theorem raises_write (text : String) : Raises (Failure.Plain line) (write line text) := by
  intro m failure m' e
  simp only [write] at e
  split at e
  · cases e
  · cases e
    exact ⟨rfl, by rintro limit ⟨⟩⟩

theorem raises_printLine (value : Value) : Raises (Failure.Plain line) (printLine line value) :=
  (raises_write line _).bind fun _ => raises_note _

theorem raises_readLine : Raises (Failure.Plain line) (readLine line) := by
  intro m failure m' e
  rw [readLine] at e
  split at e
  · cases e
    exact ⟨rfl, by rintro limit ⟨⟩⟩
  · split at e
    · cases e
    · cases e
      exact ⟨rfl, by rintro limit ⟨⟩⟩

theorem raises_readNumber (prompt : String) :
    Raises (Failure.Plain line) (readNumber line prompt) := by
  unfold readNumber
  dsimp only
  refine .ite ((raises_write line _).bind fun _ => ?_) ?_
  all_goals
    refine (raises_readLine line).bind fun text => ?_
    cases Number.ofString? (Text.trim text) with
    | some x => exact (raises_note _).bind fun _ => .pure x
    | none => exact raises_fail line nofun

theorem raises_draw (least greatest : Int) : Raises P (draw least greatest) :=
  fun _ _ _ => nofun

end steps

/-! ## What statements are made of -/

section parts

variable (settings : Settings) (line : Nat) (name : String)

theorem raises_print (value : Expr) : Raises (Failure.Plain line) (print line value) :=
  (raises_evaluate line value).bind fun _ => raises_printLine line _

theorem raises_assign (value : Expr) (tag : Option TypeTag) :
    Raises (Failure.Plain line) (assign settings line name value tag) := by
  refine (raises_evaluate line value).bind fun v => ?_
  refine (raises_checkTag line name v tag).bind fun _ => ?_
  exact (raises_note _).bind fun _ => raises_bind settings line name v

theorem raises_readInto (prompt : String) :
    Raises (Failure.Plain line) (readInto settings line name prompt) :=
  (raises_readNumber line prompt).bind fun _ => raises_bind settings line name _

theorem raises_drawInto (least greatest : Expr) :
    Raises (Failure.Plain line) (drawInto settings line name least greatest) := by
  refine (raises_integer line least).bind fun l => (raises_integer line greatest).bind fun g => ?_
  refine .ite (raises_fail line nofun) ((raises_draw l g).bind fun drawn => ?_)
  exact (raises_note _).bind fun _ => raises_bind settings line name _

theorem raises_define (routine : Routine) : Raises P (define name routine) := by
  refine .get fun m => .bind (fun _ _ _ => nofun) fun _ => ?_
  exact .ite (raises_note _) (raises_note _)

theorem raises_returned (routine : Routine) : Raises P (returned routine) := by
  intro m failure m' e
  rw [returned_eq] at e
  cases e

theorem raises_declare (d : Decl) : Raises (Failure.Plain d.line) (declare settings d) := by
  cases d with
  | program | author | date => exact (raises_note _).bind fun _ => raises_modify _
  | const line name e =>
    refine (raises_evaluate line e).bind fun value => .get fun m => ?_
    exact .ite (raises_fail line nofun) ((raises_note _).bind fun _ => raises_modify _)

/-- The beginning of a call fails for the calls in progress only when all else has succeeded. -/
theorem begin_eq_error {args : List Expr} {m m' : Machine} {failure : Failure}
    (h : Run.begin settings line name args m = .error failure m') :
    failure.Plain line ∨ failure = ⟨.callDepth settings.maxCallDepth.toNat, line⟩ ∧
      ∃ routine values, m.routines.get? name = some routine ∧
        args.length = routine.params.length ∧ evaluateEach line args m = .ok values m' ∧
        settings.maxCallDepth.toNat ≤ m.depth := by
  have hplain {fault : Fault} (e : (fail line fault : Run (List Task)) m = .error failure m')
      (hfault : fault.Ordinary) : failure.Plain line :=
    raises_fail line hfault e
  rw [Run.begin, get_bind] at h
  cases hroutine : m.routines.get? name with
  | none =>
    rw [hroutine] at h
    exact .inl (hplain h nofun)
  | some routine =>
    rw [hroutine] at h
    dsimp only at h
    split at h
    · exact .inl (hplain h nofun)
    · next harity =>
      rcases bind_eq_error.mp h with h | ⟨values, mid, hvalues, h⟩
      · exact .inl (raises_evaluateEach line args h)
      · split at h
        · next hdeep =>
          cases h
          exact .inr ⟨rfl, routine, values, rfl, Decidable.not_not.mp harity, hvalues, hdeep⟩
        · cases h

end parts

end Run

open Run

variable {settings : Settings}

/-- A statement that is no call never fails for the calls in progress by itself. -/
theorem Stmt.raises_plain {s : Stmt} (hcall : ¬ s.isCall) :
    Raises (Failure.Plain s.line) (s.begin settings) := by
  cases s with
  | assign line name value tag =>
    exact (raises_note _).bind fun _ => (raises_assign settings line name value tag).bind fun _ =>
      .pure []
  | print line value =>
    exact (raises_note _).bind fun _ => (raises_print line value).bind fun _ => .pure []
  | input line name prompt =>
    exact (raises_note _).bind fun _ => (raises_readInto settings line name prompt).bind fun _ =>
      .pure []
  | branch line condition thenBody elseBody =>
    exact (raises_note _).bind fun _ => (raises_condition line condition).bind fun _ =>
      (raises_note _).bind fun _ => .pure _
  | loop line name start stop body =>
    exact (raises_note _).bind fun _ => (raises_integer line start).bind fun _ =>
      (raises_integer line stop).bind fun _ => (raises_note _).bind fun _ => .pure _
  | rand line name least greatest =>
    exact (raises_note _).bind fun _ =>
      (raises_drawInto settings line name least greatest).bind fun _ => .pure []
  | define line name params body result =>
    exact (raises_note _).bind fun _ => (raises_define name _).bind fun _ => .pure []
  | call => exact absurd rfl hcall

/-- Whatever a statement fails of when it begins, the failure has its line. -/
theorem Stmt.raises_line (s : Stmt) :
    Raises (fun failure => failure.line = s.line) (s.begin settings) := by
  by_cases hcall : s.isCall
  · cases s with
    | call line name args =>
      refine (raises_note _).bind fun _ m failure m' h => ?_
      rcases begin_eq_error settings line name h with h | ⟨rfl, -⟩
      · exact h.line_eq
      · rfl
    | _ => cases hcall
  · exact (raises_plain hcall).mono fun _ h => h.line_eq

end DivisionScript
