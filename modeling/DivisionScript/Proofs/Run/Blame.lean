import DivisionScript.Proofs.Run.Begin
import DivisionScript.Proofs.Run.Raises
import DivisionScript.Proofs.Run.Unfold

/-!
# Run — Blame

Where a failure comes from. A program that fails has either failed in the declaration of a constant,
or in a statement of the program, and then there is a chain of statements from that one down, each
in the body that the one before it was running, whose last one has failed by itself. The failure is
the one that this last statement has raised and has its line, and the state is the one that it has
left, but for the environments that the calls of the chain put back.
-/

namespace DivisionScript

open Run

/-- A statement fails by itself, and not in a statement of a body that it runs. -/
inductive Stmt.FailsItself (settings : Settings) (m : Machine) : Stmt → Failure → Machine → Prop
  /-- It evaluates, checks, writes, prints or reads, and no body has been run yet. -/
  | beginning {s : Stmt} {failure : Failure} {m' : Machine}
      (h : s.begin settings m = .error failure m') : FailsItself settings m s failure m'
  /-- After some passes the variable of a loop cannot be written. -/
  | counter {line : Nat} {name : String} {first last : Expr} {body : List Stmt} {start stop : Int}
      {passed : Nat} {failure : Failure} {m₁ m₂ m' : Machine}
      (hbegin : (Stmt.loop line name first last body).begin settings m =
        .ok [.passes line name start stop body] m₁)
      (hpassed : forEachFrom (pass settings line name body) passed start m₁ = .ok () m₂)
      (hmore : start + passed ≤ stop)
      (hbind : Run.bind settings line name (.number (Number.ofWhole (start + passed))) m₂ =
        .error failure m') :
      FailsItself settings m (.loop line name first last body) failure m'
  /-- A parameter of a function cannot be written. -/
  | parameter {line : Nat} {name : String} {args : List Expr} {routine : Routine}
      {values : List Value} {caller : Environment} {failure : Failure} {m₁ m' : Machine}
      (hbegin : (Stmt.call line name args).begin settings m =
        .ok [.parameters line routine.params values, .block routine.body,
          .leave line name routine caller] m₁)
      (hbind : bindEach settings line routine.params values m₁ = .error failure m') :
      FailsItself settings m (.call line name args) failure (m'.leave caller)
  /-- The body of a function has been run, but the name of the function cannot be written. -/
  | result {line : Nat} {name : String} {args : List Expr} {routine : Routine}
      {values : List Value} {caller : Environment} {failure : Failure} {m₁ m₂ m₃ m' : Machine}
      (hbegin : (Stmt.call line name args).begin settings m =
        .ok [.parameters line routine.params values, .block routine.body,
          .leave line name routine caller] m₁)
      (hbind : bindEach settings line routine.params values m₁ = .ok () m₂)
      (hbody : Run.statements settings routine.body m₂ = .ok () m₃)
      (hconclude : conclude settings line name routine caller m₃ = .error failure m') :
      FailsItself settings m (.call line name args) failure m'

/-- A statement comes to run a body from the state `inside`: one of the bodies of a branch, the body
of a loop in some pass, or the body of the function that it calls. If the body fails, the statement
makes `leave` of the state. -/
inductive Stmt.Enters (settings : Settings) (m : Machine) :
    Stmt → List Stmt → (inside : Machine) → (leave : Machine → Machine) → Prop
  | branch {line : Nat} {condition : Expr} {thenBody elseBody : List Stmt} {inside : Machine}
      (truthy : Bool)
      (hbegin : (Stmt.branch line condition thenBody elseBody).begin settings m =
        .ok [.block (if truthy then thenBody else elseBody)] inside) :
      Enters settings m (.branch line condition thenBody elseBody)
        (if truthy then thenBody else elseBody) inside id
  | pass {line : Nat} {name : String} {first last : Expr} {body : List Stmt} {start stop : Int}
      {passed : Nat} {m₁ m₂ inside : Machine}
      (hbegin : (Stmt.loop line name first last body).begin settings m =
        .ok [.passes line name start stop body] m₁)
      (hpassed : forEachFrom (pass settings line name body) passed start m₁ = .ok () m₂)
      (hmore : start + passed ≤ stop)
      (hbind : Run.bind settings line name (.number (Number.ofWhole (start + passed))) m₂ =
        .ok () inside) :
      Enters settings m (.loop line name first last body) body inside id
  | call {line : Nat} {name : String} {args : List Expr} {routine : Routine}
      {values : List Value} {caller : Environment} {m₁ inside : Machine}
      (hbegin : (Stmt.call line name args).begin settings m =
        .ok [.parameters line routine.params values, .block routine.body,
          .leave line name routine caller] m₁)
      (hbind : bindEach settings line routine.params values m₁ = .ok () inside) :
      Enters settings m (.call line name args) routine.body inside (Machine.leave caller)

/-- A statement fails, and the statements of a chain are to blame: the first one stands in a body
that the statement runs, those before it in that body have succeeded, and so on down to the last
one, which fails by itself. -/
inductive Stmt.Blames (settings : Settings) :
    (m : Machine) → Stmt → (chain : List Stmt) → Failure → Machine → Prop
  | itself {m m' : Machine} {s : Stmt} {failure : Failure}
      (h : s.FailsItself settings m failure m') : Blames settings m s [] failure m'
  | inside {m inside mid m' : Machine} {s r : Stmt} {before after chain : List Stmt}
      {failure : Failure} {leave : Machine → Machine}
      (henters : s.Enters settings m (before ++ r :: after) inside leave)
      (hbefore : announced (before ++ r :: after) (each settings before) inside = .ok () mid)
      (hr : Blames settings mid r chain failure m') :
      Blames settings m s (r :: chain) failure (leave m')

variable {settings : Settings} {s r : Stmt} {body : List Stmt} {m m' mid inside : Machine}
variable {failure : Failure} {leave : Machine → Machine}

/-! ## One statement -/

theorem Stmt.FailsItself.fails (h : s.FailsItself settings m failure m') :
    Run.statement settings s m = .error failure m' := by
  rw [statement_eq]
  cases h with
  | beginning h => exact bind_error h
  | @counter _ _ _ _ _ start stop passed _ _ _ _ hbegin hpassed hmore hbind =>
    rw [bind_ok hbegin]
    exact forEachFrom_eq_error.mpr ⟨passed, by omega, _, hpassed, bind_error hbind⟩
  | parameter hbegin hbind =>
    rw [bind_ok hbegin]
    exact bind_error (inside_eq_error.mpr ⟨_, bind_error hbind, rfl⟩)
  | result hbegin hbind hbody hconclude =>
    rw [bind_ok hbegin]
    exact (bind_ok (inside_eq_ok.mpr ((bind_ok hbind).trans hbody))).trans hconclude

theorem Stmt.Enters.fails (h : s.Enters settings m body inside leave)
    (hbody : Run.statements settings body inside = .error failure m') :
    Run.statement settings s m = .error failure (leave m') := by
  rw [statement_eq]
  cases h with
  | branch truthy hbegin => exact (bind_ok hbegin).trans hbody
  | @pass _ _ _ _ _ start stop passed _ _ _ hbegin hpassed hmore hbind =>
    rw [bind_ok hbegin]
    refine forEachFrom_eq_error.mpr ⟨passed, by omega, _, hpassed, ?_⟩
    exact (bind_ok hbind).trans hbody
  | call hbegin hbind =>
    rw [bind_ok hbegin]
    exact bind_error (inside_eq_error.mpr ⟨_, (bind_ok hbind).trans hbody, rfl⟩)

/-- A statement that fails has failed by itself or in a body that it has come to run. -/
theorem Stmt.fails_cases (h : Run.statement settings s m = .error failure m') :
    s.FailsItself settings m failure m' ∨
    ∃ body inside leave after, s.Enters settings m body inside leave ∧
      Run.statements settings body inside = .error failure after ∧ m' = leave after := by
  rw [statement_eq] at h
  rcases bind_eq_error.mp h with hbegin | ⟨tasks, m₁, hbegin, h⟩
  · exact .inl (.beginning hbegin)
  · cases s.begun hbegin with
    | done => cases h
    | branch truthy => exact .inr ⟨_, m₁, id, m', .branch truthy hbegin, h, rfl⟩
    | loop start stop =>
      obtain ⟨passed, hlt, m₂, hpassed, h⟩ := forEachFrom_eq_error.mp h
      have hmore : start + passed ≤ stop := by omega
      rcases bind_eq_error.mp h with hbind | ⟨_, inside, hbind, h⟩
      · exact .inl (.counter hbegin hpassed hmore hbind)
      · exact .inr ⟨_, inside, id, m', .pass hbegin hpassed hmore hbind, h, rfl⟩
    | call values =>
      rcases bind_eq_error.mp h with hinside | ⟨_, m₃, hinside, hconclude⟩
      · obtain ⟨after, hboth, rfl⟩ := inside_eq_error.mp hinside
        rcases bind_eq_error.mp hboth with hbind | ⟨_, m₂, hbind, hbody⟩
        · exact .inl (.parameter hbegin hbind)
        · exact .inr ⟨_, m₂, _, after, .call hbegin hbind, hbody, rfl⟩
      · obtain ⟨_, m₂, hbind, hbody⟩ := bind_eq_ok.mp (inside_eq_ok.mp hinside)
        exact .inl (.result hbegin hbind hbody hconclude)

/-- A statement that fails by itself fails in its line. -/
theorem Stmt.FailsItself.line_eq (h : s.FailsItself settings m failure m') :
    failure.line = s.line := by
  cases h with
  | beginning h => exact s.raises_line h
  | counter _ _ _ hbind => exact (raises_bind settings _ _ _ hbind).line_eq
  | parameter _ hbind => exact (raises_bindEach settings _ _ _ hbind).line_eq
  | result _ _ _ hconclude =>
    have hraises {line : Nat} {name : String} {routine : Routine} {caller : Environment} :
        Raises (Failure.Plain line) (conclude settings line name routine caller) :=
      (raises_returned routine).bind fun value => (raises_modify _).bind fun _ =>
        (raises_note _).bind fun _ => raises_bind settings line name value
    exact (hraises hconclude).line_eq

/-! ## Bodies -/

theorem Run.statements_eq_error :
    Run.statements settings body m = .error failure m' ↔
      ∃ before s after, body = before ++ s :: after ∧
        ∃ mid, announced body (each settings before) m = .ok () mid ∧
          Run.statement settings s mid = .error failure m' := by
  have hnoted (act : Run Unit) :
      announced body act m = act { m with log := m.log.note (.interpreting body.length) } :=
    rfl
  simp only [statements_eq, hnoted]
  exact forM_eq_error

/-- A statement of a body that is run is smaller than the one that runs it, or stands in the body of
a function that is called where fewer calls may still be entered. -/
theorem Stmt.Enters.smaller (h : s.Enters settings m body inside leave) (hr : r ∈ body) :
    Prod.Lex (· < ·) (· < ·) (inside.levels settings, sizeOf r) (m.levels settings, sizeOf s) := by
  cases h with
  | branch truthy hbegin => exact (Stmt.begun hbegin).smaller ⟨_, .head _, rfl⟩ hr
  | pass hbegin hpassed hmore hbind =>
    rw [Machine.levels_eq ((keeps_bind settings _ _ _).depth.ok hbind),
      Machine.levels_eq ((keeps_forEachFrom (keeps_depth_pass _ _ _) _ _).ok hpassed)]
    exact (Stmt.begun hbegin).smaller ⟨_, .head _, rfl⟩ hr
  | call hbegin hbind =>
    rw [Machine.levels_eq ((keeps_bindEach settings _ _ _).depth.ok hbind)]
    exact (Stmt.begun hbegin).smaller ⟨_, .tail _ (.head _), rfl⟩ hr

/-! ## Chains -/

theorem Stmt.Blames.fails {chain : List Stmt} (h : s.Blames settings m chain failure m') :
    Run.statement settings s m = .error failure m' := by
  induction h with
  | itself h => exact h.fails
  | inside henters hbefore _ ih =>
    exact henters.fails (Run.statements_eq_error.mpr ⟨_, _, _, rfl, _, hbefore, ih⟩)

/-- The failure has the line of the last statement of the chain. -/
theorem Stmt.Blames.line_eq {chain : List Stmt} (h : s.Blames settings m chain failure m') :
    failure.line = (chain.getLastD s).line := by
  induction h with
  | itself h => exact h.line_eq
  | inside _ _ _ ih => rwa [List.getLastD_cons]

/-- A state may get another environment and another depth where a failure leaves a statement. -/
theorem Stmt.Enters.leave_eq (h : s.Enters settings m body inside leave) (m' : Machine) :
    leave m' = { m' with environment := (leave m').environment, depth := (leave m').depth } := by
  cases h <;> rfl

/-- The last statement of the chain fails by itself, and nothing is carried out after it. -/
theorem Stmt.Blames.last {chain : List Stmt} (h : s.Blames settings m chain failure m') :
    ∃ reached abandoned, (chain.getLastD s).FailsItself settings reached failure abandoned ∧
      m' = { abandoned with environment := m'.environment, depth := m'.depth } := by
  induction h with
  | @itself m m' _ _ h => exact ⟨m, m', h, rfl⟩
  | @inside _ _ _ m' _ _ _ _ _ _ leave henters _ _ ih =>
    obtain ⟨reached, abandoned, hitself, hm'⟩ := ih
    refine ⟨reached, abandoned, by rwa [List.getLastD_cons], ?_⟩
    rw [henters.leave_eq m']
    exact congrArg (fun m : Machine =>
      { m with environment := (leave m').environment, depth := (leave m').depth }) hm'

/-- Going from a statement that fails to the one that fails in the body that it runs comes to an
end, since fewer calls may still be entered there, or the statement is smaller. -/
theorem Stmt.exists_blame (s : Stmt) (m : Machine) {m' : Machine}
    (h : Run.statement settings s m = .error failure m') :
    ∃ chain, s.Blames settings m chain failure m' := by
  rcases Stmt.fails_cases h with hitself | ⟨body, inside, leave, after, henters, hbody, rfl⟩
  · exact ⟨[], .itself hitself⟩
  · obtain ⟨before, r, rest, rfl, mid, hbefore, hr⟩ := Run.statements_eq_error.mp hbody
    have hsmaller := henters.smaller (List.mem_append_right before (List.mem_cons_self ..))
    have hdepth : mid.depth = inside.depth :=
      ((keeps_note _).calls.depth.bind fun _ => keeps_depth_runEach before).ok hbefore
    have hless : Prod.Lex (· < ·) (· < ·) (mid.levels settings, sizeOf r)
        (m.levels settings, sizeOf s) := by
      rwa [Machine.levels_eq hdepth]
    obtain ⟨chain, hchain⟩ := exists_blame r mid hr
    exact ⟨r :: chain, .inside henters hbefore hchain⟩
termination_by (m.levels settings, sizeOf s)
decreasing_by exact hless

theorem Stmt.fails_iff :
    Run.statement settings s m = .error failure m' ↔
      ∃ chain, s.Blames settings m chain failure m' := by
  constructor
  · exact Stmt.exists_blame s m
  · rintro ⟨chain, h⟩
    exact h.fails

/-! ## Programs -/

/-- Carries out some of the declarations with which a program begins. -/
def Program.opening (settings : Settings) (p : Program) (ds : List Decl) : Run Unit := do
  note (.running p.declarations.length p.statements.length)
  declareEach settings ds

theorem Run.declareEach_eq_forM (ds : List Decl) :
    declareEach settings ds = ds.forM (declare settings) := by
  induction ds with
  | nil => rfl
  | cons d rest ih => rw [declareEach, List.forM, ih]

/-- Only the declaration of a constant fails, when its expression is evaluated or because the
constant has been declared before. -/
theorem Run.declare_eq_error {d : Decl} :
    declare settings d m = .error failure m' ↔
      ∃ line name e, d = .const line name e ∧
        (evaluate line e m = .error failure m' ∨
          ∃ value, evaluate line e m = .ok value m' ∧ settings.enforceConstants ∧
            m'.environment.isConstant name ∧ failure = ⟨.constant name, line⟩) := by
  cases d with
  | program | author | date =>
    constructor
    · rintro ⟨⟩
    · rintro ⟨line, name, e, ⟨⟩, -⟩
  | const line name e =>
    rw [declare, bind_eq_error]
    have hdefine (value : Value) (mid : Machine) :
        defineConstant settings line name value mid = .error failure m' ↔
          mid = m' ∧ settings.enforceConstants ∧ m'.environment.isConstant name ∧
            failure = ⟨.constant name, line⟩ := by
      rw [defineConstant, get_bind]
      split
      · next h =>
        rw [Bool.and_eq_true] at h
        constructor
        · rintro ⟨⟩
          exact ⟨rfl, h.1, h.2, rfl⟩
        · rintro ⟨rfl, -, -, rfl⟩
          rfl
      · next h =>
        constructor
        · rintro ⟨⟩
        · rintro ⟨rfl, henforce, hconstant, -⟩
          exact absurd (Bool.and_eq_true _ _ |>.mpr ⟨henforce, hconstant⟩) h
    constructor
    · rintro (h | ⟨value, mid, hvalue, h⟩)
      · exact ⟨line, name, e, rfl, .inl h⟩
      · obtain ⟨rfl, h⟩ := (hdefine value mid).mp h
        exact ⟨line, name, e, rfl, .inr ⟨value, hvalue, h⟩⟩
    · rintro ⟨_, _, _, ⟨⟩, h | ⟨value, hvalue, h⟩⟩
      · exact .inl h
      · exact .inr ⟨value, m', hvalue, (hdefine value m').mpr ⟨rfl, h⟩⟩

/-- A program fails among its declarations or, when these have been carried out, in its
statements. -/
theorem Run.program_eq_error {p : Program} :
    Run.program settings p m = .error failure m' ↔
      p.opening settings p.declarations m = .error failure m' ∨
      ∃ declared, p.opening settings p.declarations m = .ok () declared ∧
        Run.statements settings p.statements declared = .error failure m' := by
  have hprogram : Run.program settings p = (do
      p.opening settings p.declarations
      Run.statements settings p.statements
      let m ← get
      note (.finished m.environment.size)) := by
    rw [Program.opening, bind_assoc]
    rfl
  have hfinish : Raises (fun _ => False) (do
      let m ← get
      note (.finished m.environment.size)) := .get fun _ => raises_note _
  rw [hprogram, bind_eq_error]
  refine or_congr_right ?_
  constructor
  · rintro ⟨_, declared, hopening, h⟩
    rcases bind_eq_error.mp h with h | ⟨_, _, -, h⟩
    · exact ⟨declared, hopening, h⟩
    · exact (hfinish h).elim
  · rintro ⟨declared, hopening, h⟩
    exact ⟨⟨⟩, declared, hopening, bind_error h⟩

theorem Program.opening_eq_error {p : Program} {ds : List Decl} :
    p.opening settings ds m = .error failure m' ↔
      ∃ before d after, ds = before ++ d :: after ∧
        ∃ mid, p.opening settings before m = .ok () mid ∧
          declare settings d mid = .error failure m' := by
  have hnoted (ds : List Decl) : p.opening settings ds m =
      declareEach settings ds { m with
        log := m.log.note (.running p.declarations.length p.statements.length) } :=
    rfl
  simp only [hnoted, Run.declareEach_eq_forM]
  exact forM_eq_error

/-- Every failure has its cause. A program fails, leaving a certain state, if and only if a constant
or a statement of the program is to blame for this. Either the declarations before that of a
constant have been carried out, and its own expression fails or the constant has been declared
before. Or all declarations and the statements before some statement of the program have been
carried out, and a chain leads down from this statement to one that fails by itself with this
failure. The line of the failure is that of the declaration, or of the last statement of the chain;
and nothing is carried out after that statement, except that calls put the environment and the depth
of their callers back. -/
theorem failures_have_causes (settings : Settings) (p : Program) (m m' : Machine)
    (failure : Failure) :
    Run.program settings p m = .error failure m' ↔
      (∃ before line name e after, p.declarations = before ++ .const line name e :: after ∧
        ∃ mid, p.opening settings before m = .ok () mid ∧ failure.line = line ∧
          (evaluate line e mid = .error failure m' ∨
            ∃ value, evaluate line e mid = .ok value m' ∧ settings.enforceConstants ∧
              m'.environment.isConstant name ∧ failure = ⟨.constant name, line⟩)) ∨
      ∃ before s after, p.statements = before ++ s :: after ∧
        ∃ declared mid, p.opening settings p.declarations m = .ok () declared ∧
          announced p.statements (each settings before) declared = .ok () mid ∧
          ∃ chain, s.Blames settings mid chain failure m' ∧
            failure.line = (chain.getLastD s).line ∧
            ∃ reached abandoned,
              (chain.getLastD s).FailsItself settings reached failure abandoned ∧
              m' = { abandoned with environment := m'.environment, depth := m'.depth } := by
  rw [Run.program_eq_error]
  refine or_congr ?_ ?_
  · rw [Program.opening_eq_error]
    constructor
    · rintro ⟨before, d, after, hds, mid, hbefore, hdeclare⟩
      obtain ⟨line, name, e, rfl, hcause⟩ := Run.declare_eq_error.mp hdeclare
      have hline : failure.line = line := by
        rcases hcause with hevaluate | ⟨value, -, -, -, rfl⟩
        · exact (raises_evaluate line e hevaluate).line_eq
        · rfl
      exact ⟨before, line, name, e, after, hds, mid, hbefore, hline, hcause⟩
    · rintro ⟨before, line, name, e, after, hds, mid, hbefore, -, h⟩
      exact ⟨before, _, after, hds, mid, hbefore, Run.declare_eq_error.mpr ⟨line, name, e, rfl, h⟩⟩
  · constructor
    · rintro ⟨declared, hopening, h⟩
      obtain ⟨before, s, after, hbody, mid, hbefore, h⟩ := Run.statements_eq_error.mp h
      obtain ⟨chain, hchain⟩ := Stmt.fails_iff.mp h
      exact ⟨before, s, after, hbody, declared, mid, hopening, hbefore, chain, hchain,
        hchain.line_eq, hchain.last⟩
    · rintro ⟨before, s, after, hbody, declared, mid, hopening, hbefore, chain, hchain, -⟩
      exact ⟨declared, hopening, Run.statements_eq_error.mpr
        ⟨before, s, after, hbody, mid, hbefore, hchain.fails⟩⟩

/-- A function fails in the body of another one: the failure has the line of the statement there. -/
theorem failure_in_nested_calls :
    let p : Program := ⟨[], [.call 3 "f" []]⟩
    let m : Machine :=
      { Machine.initial {} 0 ⟨[]⟩ .unlimited .off with
        routines := (Table.empty.put "g" ⟨[], [.print 1 (.identifier "x")], "g"⟩).put "f"
          ⟨[], [.call 2 "g" []], "f"⟩ }
    ∃ m', Run.program {} p m = .error ⟨.unbound "x", 1⟩ m' ∧
      ∃ before s after, p.statements = before ++ s :: after ∧
        ∃ mid chain, s.Blames {} mid chain ⟨.unbound "x", 1⟩ m' ∧ 1 = (chain.getLastD s).line := by
  intro p m
  have hrun : ∃ m', Run.program {} p m = .error ⟨.unbound "x", 1⟩ m' := ⟨_, rfl⟩
  obtain ⟨m', h⟩ := hrun
  rcases (failures_have_causes {} p m m' _).mp h with hdeclared | hstated
  · obtain ⟨before, line, name, e, after, hnone, -⟩ := hdeclared
    cases (List.append_eq_nil_iff.mp hnone.symm).2
  · obtain ⟨before, s, after, hbody, _, mid, -, -, chain, hchain, hline, -⟩ := hstated
    exact ⟨m', h, before, s, after, hbody, mid, chain, hchain, hline⟩

end DivisionScript
