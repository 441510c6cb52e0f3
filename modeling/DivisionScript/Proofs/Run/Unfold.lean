import DivisionScript.Proofs.Run.Call
import DivisionScript.Proofs.Run.Depth
import DivisionScript.Proofs.Run.Step

/-!
# Run — Unfold

Execution without counting down: a statement begins, and what it leaves to be done is carried out by
running bodies as lists of statements. These equations hold because every computation leaves the
depth as it was, so the number of calls that may still be entered can be read off the state wherever
a body is run.
-/

namespace DivisionScript

namespace Run

/-- Runs statements one after another. -/
def each (settings : Settings) (body : List Stmt) : Run Unit :=
  body.forM (Run.statement settings)

/-- A pass of a loop. -/
def pass (settings : Settings) (line : Nat) (name : String) (body : List Stmt) (i : Int) :
    Run Unit := do
  bind settings line name (.number (Number.ofWhole i))
  Run.statements settings body

/-- Does something inside a call. The environment of the caller is put back where it fails. -/
def inside (caller : Environment) (act : Run Unit) : Run Unit := fun m =>
  match act m with
  | .ok a m' => .ok a m'
  | .error failure m' => .error failure (m'.leave caller)

/-- The end of a call: the environment of the caller is put back, and the name of the function gets
the value that it returns. -/
def conclude (settings : Settings) (line : Nat) (name : String) (routine : Routine)
    (caller : Environment) : Run Unit := do
  let value ← returned routine
  modify (Machine.leave caller)
  note (.returned name value)
  bind settings line name value

/-- Does what a statement that has begun has left to be done. -/
def remainder (settings : Settings) : List Task → Run Unit
  | [.block body] => Run.statements settings body
  | [.passes line name start stop body] => forRange start stop (pass settings line name body)
  | [.parameters line params values, .block body, .leave line' name routine caller] => do
    inside caller do
      bindEach settings line params values
      Run.statements settings body
    conclude settings line' name routine caller
  | _ => pure ()

variable {settings : Settings} {m : Machine}

theorem inside_eq_ok {caller : Environment} {act : Run Unit} {m' : Machine} :
    inside caller act m = .ok () m' ↔ act m = .ok () m' := by
  rw [inside]
  cases act m with
  | ok _ after => rfl
  | error failure after => exact iff_of_false nofun nofun

theorem inside_eq_error {caller : Environment} {act : Run Unit} {m' : Machine}
    {failure : Failure} :
    inside caller act m = .error failure m' ↔
      ∃ after, act m = .error failure after ∧ m' = after.leave caller := by
  rw [inside]
  cases act m with
  | ok _ after => exact iff_of_false nofun nofun
  | error failure' after =>
    constructor
    · rintro ⟨⟩
      exact ⟨after, rfl, rfl⟩
    · rintro ⟨_, ⟨⟩, rfl⟩
      rfl

/-! ## Lists of statements -/

theorem executeEach_eq_each {levels : Nat} (body : List Stmt)
    (hlevels : m.levels settings = levels) :
    executeEach settings (descent settings levels) body m = each settings body m := by
  subst hlevels
  induction body generalizing m with
  | nil => rfl
  | cons s rest ih =>
    rw [executeEach, each, List.forM]
    refine bind_congr_ok rfl fun _ m' h => ?_
    have hdepth : m'.depth = m.depth := (Stmt.keeps_depth settings _ s).ok h
    rw [← Machine.levels_eq hdepth]
    exact ih

theorem statements_eq (body : List Stmt) :
    Run.statements settings body = announced body (each settings body) := by
  funext m
  show executeBody settings (descent settings (m.levels settings)) body m = _
  rw [executeBody, announced, announced]
  refine bind_congr_ok rfl fun _ m' h => ?_
  have hdepth : m'.depth = m.depth := (keeps_note (.interpreting body.length)).calls.depth.ok h
  exact executeEach_eq_each body (Machine.levels_eq hdepth)

theorem keeps_depth_run (s : Stmt) : Keeps Machine.depth (Run.statement settings s) :=
  fun m => Stmt.keeps_depth settings _ s m

theorem keeps_depth_statements (body : List Stmt) :
    Keeps Machine.depth (Run.statements settings body) :=
  fun m => keeps_depth_body settings _ body m

theorem keeps_depth_runEach (body : List Stmt) : Keeps Machine.depth (each settings body) := by
  induction body with
  | nil => exact .pure ()
  | cons s rest ih => exact (keeps_depth_run s).bind fun _ => ih

/-! ## Loops -/

theorem keeps_depth_pass (line : Nat) (name : String) (body : List Stmt) (i : Int) :
    Keeps Machine.depth (pass settings line name body i) :=
  (keeps_bind settings line name _).depth.bind fun _ => keeps_depth_statements body

/-- The passes of a loop look at the depth of the state where they begin. -/
theorem forEachFrom_eq_pass {levels line : Nat} {name : String} (body : List Stmt) (count : Nat)
    (start : Int) (hlevels : m.levels settings = levels) :
    forEachFrom (fun i => do
        bind settings line name (.number (Number.ofWhole i))
        executeBody settings (descent settings levels) body) count start m =
      forEachFrom (pass settings line name body) count start m := by
  subst hlevels
  induction count generalizing m start with
  | zero => rfl
  | succ count ih =>
    have hpass : (do
          bind settings line name (.number (Number.ofWhole start))
          executeBody settings (descent settings (m.levels settings)) body) m =
        pass settings line name body start m := by
      refine bind_congr_ok rfl fun _ m' h => ?_
      rw [← Machine.levels_eq ((keeps_bind settings line name _).depth.ok h)]
      rfl
    rw [forEachFrom, forEachFrom]
    refine bind_congr_ok hpass fun _ m' h => ?_
    rw [← Machine.levels_eq ((keeps_depth_pass line name body start).ok h)]
    exact ih (start + 1)

/-- Where a loop fails, some passes have succeeded and the next one has failed. -/
theorem forEachFrom_eq_error {act : Int → Run Unit} {count : Nat} {start : Int} {m m' : Machine}
    {failure : Failure} :
    forEachFrom act count start m = .error failure m' ↔
      ∃ passed < count, ∃ mid, forEachFrom act passed start m = .ok () mid ∧
        act (start + passed) mid = .error failure m' := by
  induction count generalizing m start with
  | zero =>
    constructor
    · rintro ⟨⟩
    · rintro ⟨passed, ⟨⟩, -⟩
  | succ count ih =>
    rw [forEachFrom, bind_eq_error]
    constructor
    · rintro (h | ⟨_, mid, hfirst, h⟩)
      · refine ⟨0, Nat.succ_pos count, m, rfl, ?_⟩
        rwa [Int.natCast_zero, Int.add_zero]
      · obtain ⟨passed, hlt, mid', hpassed, h⟩ := ih.mp h
        refine ⟨passed + 1, Nat.succ_lt_succ hlt, mid', (bind_ok hfirst).trans hpassed, ?_⟩
        rwa [Int.natCast_succ, Int.add_comm ↑passed, ← Int.add_assoc]
    · rintro ⟨passed, hlt, mid, hpassed, h⟩
      cases passed with
      | zero =>
        cases hpassed
        rw [Int.natCast_zero, Int.add_zero] at h
        exact .inl h
      | succ passed =>
        obtain ⟨_, mid', hfirst, hrest⟩ := bind_eq_ok.mp hpassed
        rw [Int.natCast_succ, Int.add_comm ↑passed, ← Int.add_assoc] at h
        exact .inr ⟨_, mid', hfirst,
          ih.mpr ⟨passed, Nat.lt_of_succ_lt_succ hlt, mid, hrest, h⟩⟩

/-! ## Calls -/

/-- A call that has begun, with the body run as a list of statements. -/
theorem activate_eq_remainder {line : Nat} {name : String} {routine : Routine}
    {values : List Value} {enter : List Stmt → Run Unit}
    (henter : descent settings (m.levels settings) = some enter) :
    (do
      let value ← activate settings line routine values enter
      note (.returned name value)
      bind settings line name value) m =
    remainder settings [.parameters line routine.params values, .block routine.body,
      .leave line name routine m.environment] { m with depth := m.depth + 1 } := by
  let deep : Machine := { m with depth := m.depth + 1 }
  let body : Run Unit := do
    bindEach settings line routine.params values
    Run.statements settings routine.body
  have hkeeps : Keeps Machine.depth body :=
    (keeps_bindEach settings line _ _).depth.bind fun _ => keeps_depth_statements routine.body
  have hbody : (do
      bindEach settings line routine.params values
      enter routine.body) deep = body deep := by
    refine bind_congr_ok rfl fun _ m' h => enter_eq_statements henter ?_
    exact (keeps_bindEach settings line _ _).depth.ok h
  have hactivate : activate settings line routine values enter m =
      leaving (fun after => { after with environment := m.environment, depth := m.depth })
        (do
          (do
            bindEach settings line routine.params values
            enter routine.body)
          returned routine) deep := by
    rw [activate, bind_assoc]
  rw [remainder]
  cases hresult : body deep with
  | ok _ after =>
    have hafter : after.depth = m.depth + 1 := hkeeps.ok hresult
    have hvalue := returned_eq routine after
    have hdone : activate settings line routine values enter m =
        .ok (routine.value after.environment) (Machine.leave m.environment after) := by
      rw [hactivate, leaving, bind_ok (hbody.trans hresult), hvalue, Machine.leave, hafter]
      rfl
    have hinside : inside m.environment body deep = .ok () after := inside_eq_ok.mpr hresult
    rw [bind_ok hdone, bind_ok hinside, conclude, bind_ok hvalue]
    rfl
  | error failure after =>
    have hafter : after.depth = m.depth + 1 := hkeeps.atomic hresult
    have hdone : activate settings line routine values enter m =
        .error failure (Machine.leave m.environment after) := by
      rw [hactivate, leaving, bind_error (hbody.trans hresult), Machine.leave, hafter]
      rfl
    rw [bind_error hdone, bind_error (inside_eq_error.mpr ⟨after, hresult, rfl⟩)]

theorem call_eq {line : Nat} {name : String} {args : List Expr} :
    call settings (descent settings (m.levels settings)) line name args m =
      (Run.begin settings line name args >>= remainder settings) m := by
  rw [call, Run.begin, bind_assoc, get_bind, get_bind]
  cases m.routines.get? name with
  | none => rfl
  | some routine =>
    by_cases harity : args.length ≠ routine.params.length
    · simp only [if_pos harity]
      rfl
    · simp only [if_neg harity, bind_assoc]
      refine bind_congr_ok rfl fun values m' h => ?_
      have hcore : m'.core = m.core := (keeps_evaluateEach line args).ok h
      have henv : m'.environment = m.environment := congrArg Prod.fst hcore
      have hdepth : m'.depth = m.depth := congrArg (·.2.2) hcore
      rw [← henv, ← hdepth, ← Machine.levels_eq hdepth]
      cases hlevels : m'.levels settings with
      | zero =>
        have hdeep : settings.maxCallDepth.toNat ≤ m'.depth := by
          rw [Machine.levels] at hlevels
          omega
        rw [if_pos hdeep]
        rfl
      | succ levels =>
        have hroom : ¬ settings.maxCallDepth.toNat ≤ m'.depth := by
          rw [Machine.levels] at hlevels
          omega
        rw [if_neg hroom, descent, bind_assoc]
        refine bind_congr_ok rfl fun _ m'' hnote => ?_
        cases hnote
        refine activate_eq_remainder ?_
        show descent settings (m'.levels settings) = _
        rw [hlevels, descent]

/-! ## Statements -/

/-- A statement is carried out by beginning it and doing what is left of it. -/
theorem statement_eq (s : Stmt) :
    Run.statement settings s = s.begin settings >>= remainder settings := by
  have hdone (act : Run Unit) : (act >>= fun _ => pure [] >>= remainder settings) = act :=
    bind_pure_unit
  funext m
  show s.execute settings (descent settings (m.levels settings)) m = _
  cases s with
  | assign | print | input | rand | define =>
    rw [Stmt.execute, Stmt.begin, bind_assoc]
    simp only [bind_assoc, hdone]
  | branch line condition thenBody elseBody =>
    rw [Stmt.execute, Stmt.begin, bind_assoc]
    refine bind_congr_ok rfl fun _ m₁ h₁ => ?_
    rw [bind_assoc]
    refine bind_congr_ok rfl fun truthy m₂ h₂ => ?_
    rw [bind_assoc]
    refine bind_congr_ok rfl fun _ m₃ h₃ => ?_
    have hcore : m₃.core = m.core := ((keeps_note _).ok h₃).trans
      (((keeps_condition line condition).ok h₂).trans ((keeps_note _).ok h₁))
    rw [← Machine.levels_eq (congrArg (·.2.2) hcore)]
    cases truthy <;> rfl
  | loop line name start stop body =>
    rw [Stmt.execute, Stmt.begin, bind_assoc]
    refine bind_congr_ok rfl fun _ m₁ h₁ => ?_
    rw [bind_assoc]
    refine bind_congr_ok rfl fun start m₂ h₂ => ?_
    rw [bind_assoc]
    refine bind_congr_ok rfl fun stop m₃ h₃ => ?_
    rw [bind_assoc]
    refine bind_congr_ok rfl fun _ m₄ h₄ => ?_
    have hcore : m₄.core = m.core := ((keeps_note _).ok h₄).trans
      (((keeps_integer line _).ok h₃).trans
        (((keeps_integer line _).ok h₂).trans ((keeps_note _).ok h₁)))
    rw [← Machine.levels_eq (congrArg (·.2.2) hcore)]
    exact forEachFrom_eq_pass body _ start rfl
  | call line name args =>
    rw [Stmt.execute, Stmt.begin, bind_assoc]
    refine bind_congr_ok rfl fun _ m' h => ?_
    rw [← Machine.levels_eq ((keeps_note (.executing line)).calls.depth.ok h)]
    exact call_eq

end Run

end DivisionScript
