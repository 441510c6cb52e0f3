import DivisionScript.Proofs.Run.Begin
import DivisionScript.Proofs.Run.Unfold

/-!
# Run — Termination

Every run comes to an end: from any state, the steps of a program, of a list of statements and of a
statement lead to a place where nothing is left to do, and what they have done is what execution
says. The induction is first on how many more calls may be entered, then on the statement, and at a
loop on how many passes are left.
-/

namespace DivisionScript

open Run

variable {settings : Settings} {m : Machine}

/-- The place in a run where a computation has been carried out and `rest` is still to be done. -/
def Config.of (rest : List Task) : EStateM.Result Failure Machine Unit → Config
  | .ok _ m => ⟨m, rest, none⟩
  | .error failure m => ⟨m, rest, some failure⟩

/-- Whatever is to be done after them, the tasks do in finitely many steps what `act` does. -/
def Performs (settings : Settings) (tasks : List Task) (act : Run Unit) (m : Machine) : Prop :=
  ∀ rest, Config.Reaches settings ⟨m, tasks ++ rest, none⟩ (Config.of rest (act m))

/-- What `begin` leaves to be done does in finitely many steps what `act` does, and `act` fails
where `begin` does. -/
def Continues (settings : Settings) (begin : Run (List Task)) (act : Run Unit) (m : Machine) :
    Prop :=
  match begin m with
  | .ok tasks m' => ∀ rest, Config.Reaches settings ⟨m', tasks ++ rest, none⟩ (.of rest (act m))
  | .error failure m' => act m = .error failure m'

section ways

variable {α γ : Type} {view : Machine → γ} {act next : Run Unit} {tasks others : List Task}

theorem Performs.nil : Performs settings [] (pure ()) m :=
  fun _ => .refl

theorem Continues.performs {task : Task} (h : Continues settings (task.perform settings) act m) :
    Performs settings [task] act m := by
  intro rest
  rw [Continues] at h
  cases hperform : task.perform settings m with
  | ok more m' =>
    rw [hperform] at h
    exact .head (Config.step_ok hperform) (h rest)
  | error failure m' =>
    rw [hperform] at h
    rw [h]
    exact .single (Config.step_error hperform)

theorem Performs.continues (h : Performs settings tasks act m) :
    Continues settings (pure tasks) act m :=
  h

/-- Computations that begin alike are compared where they differ. -/
theorem Continues.after {x : Run α} {begin : α → Run (List Task)} {f : α → Run Unit}
    (h : ∀ a m', x m = .ok a m' → Continues settings (begin a) (f a) m') :
    Continues settings (x >>= begin) (x >>= f) m := by
  rw [Continues]
  cases hm : x m with
  | ok a m' =>
    rw [bind_ok hm, bind_ok hm]
    exact h a m' hm
  | error failure m' =>
    rw [bind_error hm, bind_error hm]

theorem Continues.bind {x : Run α} {begin : α → Run (List Task)} {f : α → Run Unit}
    (hx : Keeps view x) (h : ∀ a m', view m' = view m → Continues settings (begin a) (f a) m') :
    Continues settings (x >>= begin) (x >>= f) m :=
  .after fun a m' hm => h a m' (hx.ok hm)

theorem Continues.get {begin : Machine → Run (List Task)} {f : Machine → Run Unit}
    (h : Continues settings (begin m) (f m) m) :
    Continues settings (MonadState.get >>= begin) (MonadState.get >>= f) m :=
  h

/-- A task that is done at once. -/
theorem Continues.last (x : Run Unit) : Continues settings (do x; pure []) x m := by
  rw [Continues]
  cases hm : x m with
  | ok a m' =>
    rw [bind_ok hm]
    exact fun rest => .refl
  | error failure m' => rw [bind_error hm]

/-- The tasks that do nothing more where a failure gives them up. -/
def Task.Quiet (task : Task) : Prop :=
  task.giveUp = id

theorem quiet_singleton {task : Task} (h : task.Quiet) : ∀ other ∈ [task], other.Quiet := by
  intro other hother
  rw [List.mem_singleton.mp hother]
  exact h

/-- Quiet tasks are given up without a trace. -/
theorem reaches_givenUp {failure : Failure} {rest : List Task} (h : ∀ task ∈ tasks, task.Quiet) :
    Config.Reaches settings ⟨m, tasks ++ rest, some failure⟩ ⟨m, rest, some failure⟩ := by
  induction tasks with
  | nil => exact .refl
  | cons task tasks ih =>
    have hquiet : task.giveUp = id := h task (List.mem_cons_self ..)
    refine .head Config.step_giveUp ?_
    rw [hquiet]
    exact ih fun other hother => h other (List.mem_cons_of_mem _ hother)

theorem Performs.append (h : Performs settings tasks act m)
    (hnext : ∀ m', act m = .ok () m' → Performs settings others next m')
    (hquiet : ∀ task ∈ others, task.Quiet) :
    Performs settings (tasks ++ others) (do act; next) m := by
  intro rest
  have hfirst := h (others ++ rest)
  rw [List.append_assoc]
  cases hact : act m with
  | ok a m' =>
    rw [hact] at hfirst
    rw [bind_ok hact]
    exact hfirst.trans (hnext m' hact rest)
  | error failure m' =>
    rw [hact] at hfirst
    rw [bind_error hact]
    exact hfirst.trans (reaches_givenUp hquiet)

end ways

/-! ## Calls -/

section calls

variable {line : Nat} {name : String} {routine : Routine}

theorem parameters_perform (params : List String) (values : List Value) :
    Performs settings [.parameters line params values] (bindEach settings line params values)
      m := by
  induction params generalizing values m with
  | nil => exact Continues.performs (Performs.continues .nil)
  | cons param params ih =>
    cases values with
    | nil => exact Continues.performs (Performs.continues .nil)
    | cons value values =>
      refine Continues.performs ?_
      exact .after fun _ _ _ => .after fun _ _ _ => (ih values).continues

theorem leave_performs (caller : Environment) (m : Machine) :
    Performs settings [.leave line name routine caller]
      (conclude settings line name routine caller) m := by
  refine Continues.performs ?_
  refine .after fun value _ _ => .after fun _ _ _ => .after fun _ _ _ => ?_
  exact .last _

/-- A call that has begun is carried out, if the body of the function is. -/
theorem activation_performs {values : List Value} {caller : Environment}
    (hbody : ∀ m' : Machine, m'.depth = m.depth →
      Performs settings [.block routine.body] (Run.statements settings routine.body) m') :
    Performs settings [.parameters line routine.params values, .block routine.body,
        .leave line name routine caller]
      (do
        inside caller do
          bindEach settings line routine.params values
          Run.statements settings routine.body
        conclude settings line name routine caller) m := by
  intro rest
  have hboth :
      Performs settings [.parameters line routine.params values, .block routine.body] _ m :=
    (parameters_perform routine.params values).append
      (fun m' h => hbody m' ((keeps_bindEach settings line _ _).depth.ok h))
      (quiet_singleton (by rfl))
  have hreaches := hboth (.leave line name routine caller :: rest)
  cases hresult : (do
      bindEach settings line routine.params values
      Run.statements settings routine.body) m with
  | ok _ after =>
    rw [hresult] at hreaches
    rw [bind_ok (inside_eq_ok.mpr hresult)]
    exact hreaches.trans (leave_performs caller after rest)
  | error failure after =>
    -- the end of the call is the one task left that does something when it is given up
    rw [hresult] at hreaches
    rw [bind_error (inside_eq_error.mpr ⟨after, hresult, rfl⟩)]
    exact hreaches.trans (.single Config.step_giveUp)

end calls

/-! ## Statements -/

section statements

variable {line : Nat} {name : String} {body : List Stmt} {count : Nat} {next stop : Int}

theorem each_performs (body : List Stmt)
    (hbody : ∀ s ∈ body, ∀ m' : Machine, m'.depth = m.depth →
      Performs settings [.statement s] (Run.statement settings s) m') :
    Performs settings [.statements body] (each settings body) m := by
  induction body generalizing m with
  | nil => exact Continues.performs (Performs.continues .nil)
  | cons s rest ih =>
    have hfirst := hbody s (List.mem_cons_self ..) m rfl
    refine Continues.performs (hfirst.append (fun m' h => ?_) (quiet_singleton (by rfl))).continues
    -- the first statement may have redefined functions, but it has not changed the depth
    have hdepth : m'.depth = m.depth := (keeps_depth_run s).ok h
    exact ih fun r hr inside hinside =>
      hbody r (List.mem_cons_of_mem _ hr) inside (hinside.trans hdepth)

theorem block_performs (body : List Stmt)
    (hbody : ∀ s ∈ body, ∀ m' : Machine, m'.depth = m.depth →
      Performs settings [.statement s] (Run.statement settings s) m') :
    Performs settings [.block body] (Run.statements settings body) m := by
  rw [statements_eq]
  refine Continues.performs (.bind (keeps_note _) fun _ m' hm' => Performs.continues ?_)
  have hdepth : m'.depth = m.depth := congrArg (·.2.2) hm'
  exact each_performs body fun s hs inside hinside => hbody s hs inside (hinside.trans hdepth)

/-- The induction is on how many passes are left. -/
theorem passes_perform
    (hbody : ∀ m' : Machine, m'.depth = m.depth →
      Performs settings [.block body] (Run.statements settings body) m')
    (hcount : count = (stop - next + 1).toNat) :
    Performs settings [.passes line name next stop body]
      (forEachFrom (pass settings line name body) count next) m := by
  induction count generalizing m next with
  | zero =>
    have hover : ¬ next ≤ stop := by omega
    refine Continues.performs ?_
    rw [Task.perform, if_neg hover]
    exact Performs.continues .nil
  | succ count ih =>
    have hmore : next ≤ stop := by omega
    refine Continues.performs ?_
    rw [Task.perform, if_pos hmore, forEachFrom, Run.pass, bind_assoc]
    refine .bind (keeps_bind settings line name _) fun _ m' hm' => ?_
    have hdepth : m'.depth = m.depth := congrArg Prod.snd hm'
    refine Performs.continues
      (.append (hbody m' hdepth) (fun m'' h => ?_) (quiet_singleton (by rfl)))
    have hdepth' : m''.depth = m.depth := ((keeps_depth_statements body).ok h).trans hdepth
    exact ih (fun inside hinside => hbody inside (hinside.trans hdepth')) (by omega)

/-- What a statement that has begun has left to be done is carried out, if the bodies are. -/
theorem Stmt.Begun.performs {s : Stmt} {tasks : List Task} {m' : Machine}
    (h : s.Begun settings m tasks m')
    (hbody : ∀ body, (∃ task ∈ tasks, task.body? = some body) →
      ∀ inside : Machine, inside.depth = m'.depth →
        Performs settings [.block body] (Run.statements settings body) inside) :
    Performs settings tasks (remainder settings tasks) m' := by
  cases h with
  | done => exact .nil
  | branch => exact hbody _ ⟨_, .head _, rfl⟩ m' rfl
  | loop => exact passes_perform (hbody _ ⟨_, .head _, rfl⟩) rfl
  | call => exact activation_performs (hbody _ ⟨_, .tail _ (.head _), rfl⟩)

/-- A statement is carried out. The statements of the bodies that it runs are smaller, or stand in
functions that are called where fewer calls may still be entered. -/
theorem statement_performs (s : Stmt) {m : Machine} :
    Performs settings [.statement s] (Run.statement settings s) m := by
  refine Continues.performs ?_
  rw [statement_eq, Continues, Task.perform]
  cases hbegin : s.begin settings m with
  | error failure m' => exact bind_error hbegin
  | ok tasks m' =>
    rw [bind_ok hbegin]
    have hbegun := Stmt.begun hbegin
    refine hbegun.performs fun body hbody inside hinside => ?_
    refine block_performs body fun r hr mid hmid => ?_
    have hless : Prod.Lex (· < ·) (· < ·) (mid.levels settings, sizeOf r)
        (m.levels settings, sizeOf s) := by
      rw [Machine.levels_eq (hmid.trans hinside)]
      exact hbegun.smaller hbody hr
    exact statement_performs r
termination_by (m.levels settings, sizeOf s)
decreasing_by exact hless

theorem statements_perform (body : List Stmt) :
    Performs settings [.block body] (Run.statements settings body) m :=
  block_performs body fun s _ _ _ => statement_performs s

end statements

/-! ## Programs -/

theorem declarations_perform (ds : List Decl) :
    Performs settings [.declarations ds] (declareEach settings ds) m := by
  induction ds generalizing m with
  | nil => exact Continues.performs (Performs.continues .nil)
  | cons d rest ih => exact Continues.performs (.after fun _ _ _ => ih.continues)

theorem finish_performs :
    Performs settings [.finish] (do let m ← get; note (.finished m.environment.size)) m :=
  Continues.performs (.get (.last _))

theorem program_performs (p : Program) :
    Performs settings [.program p] (Run.program settings p) m := by
  refine Continues.performs (.after fun _ m₁ _ => Performs.continues ?_)
  have hbody : ∀ m₂ : Machine, Performs settings [.block p.statements, .finish] _ m₂ :=
    fun m₂ => (statements_perform p.statements).append (fun m₃ _ => finish_performs)
      (quiet_singleton (by rfl))
  refine (declarations_perform p.declarations).append (fun m₂ _ => hbody m₂) ?_
  intro task htask
  rcases List.mem_cons.mp htask with rfl | htask
  · rfl
  · exact quiet_singleton (by rfl) task htask

/-- Tasks that are all there is to do end as the computation says. -/
theorem Performs.ends {task : Task} {act : Run Unit} (h : Performs settings [task] act m) :
    ∃ c, Config.Reaches settings ⟨m, [task], none⟩ c ∧ c.Halted ∧ c.result = act m := by
  refine ⟨Config.of [] (act m), h [], ?_, ?_⟩
  · cases act m <;> rfl
  · cases act m <;> rfl

/-- Every run ends. From any state, with any settings, a program, a list of statements and a single
statement reach after finitely many steps a place where nothing is left to be done, and they end
there as execution says. -/
theorem runs_end (settings : Settings) (m : Machine) :
    (∀ p : Program, ∃ c, Config.Reaches settings ⟨m, [.program p], none⟩ c ∧ c.Halted ∧
      c.result = Run.program settings p m) ∧
    (∀ body : List Stmt, ∃ c, Config.Reaches settings ⟨m, [.block body], none⟩ c ∧ c.Halted ∧
      c.result = Run.statements settings body m) ∧
    ∀ s : Stmt, ∃ c, Config.Reaches settings ⟨m, [.statement s], none⟩ c ∧ c.Halted ∧
      c.result = Run.statement settings s m := by
  refine ⟨?_, ?_, ?_⟩
  · exact fun p => (program_performs p).ends
  · exact fun body => (statements_perform body).ends
  · exact fun s => (statement_performs s).ends

end DivisionScript
