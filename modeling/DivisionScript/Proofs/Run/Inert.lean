import DivisionScript.Proofs.Bare
import DivisionScript.Proofs.Run.Relabel

/-!
# Run — Inert

Tags, parentheses and declarations that only inform do nothing. What a session does with bare
programs from a bare state is what it does with the programs themselves, less the reports and what
is known about the program. A tag is looked at only to warn, parentheses are seen only by the
reports, and the declarations that are left out write to nothing else.
-/

namespace DivisionScript

/-! ## Bare states -/

/-- A function without tags and parentheses. -/
def Routine.bare (routine : Routine) : Routine :=
  { routine with body := bareEach routine.body }

/-- An order without tags, parentheses and declarations that only inform. -/
def Order.bare : Order → Order
  | program p => .program p.bare
  | statements body => .statements (bareEach body)
  | statement s => .statement s.bare

/-- The state with bare functions, which keeps no reports and knows nothing about the program. All
else is as it was. -/
def Machine.bare (m : Machine) : Machine :=
  { m with routines := m.routines.map Routine.bare, info := {}, log := .off }

/-- A result in a bare state. -/
abbrev bareResult {α : Type} :
    EStateM.Result Failure Machine α → EStateM.Result Failure Machine α :=
  mapResult Machine.bare id

@[simp] theorem Order.bare_bare (order : Order) : order.bare.bare = order.bare := by
  cases order <;> simp [bare]

/-- With a seed in the settings, states before anything has run differ in their reports alone. -/
theorem Machine.bare_initial {settings : Settings} {seed : UInt64} (h : settings.seed = some seed)
    (entropy entropy' : UInt64) (input : Input) (output : Output) (log log' : Log) :
    (initial settings entropy' input output log').bare =
      (initial settings entropy input output log).bare := by
  simp [bare, initial, h]

/-! ## Expressions -/

namespace Evaluation

variable {α : Type}

/-- Without reports, the second evaluation ends as the first one does with them. -/
abbrev Hushes (x x' : Evaluation α) : Prop :=
  Mirrors (fun _ : Log => .off) id x x'

theorem Built.hushes {act : Evaluation α} (h : Built act) : Hushes act act :=
  h.lineless (.silent id)

theorem hushes_lift (x : Except Fault α) : Hushes (lift x) (lift x) := by
  intro log
  cases x <;> rfl

/-- The two operands of an operator are evaluated and converted in the same way. -/
theorem hushes_operands {x x' y y' : Evaluation Value} {convert : Value → Except Fault α}
    {f : α → α → Evaluation Value} (hx : Hushes x x') (hy : Hushes y y')
    (hf : ∀ l r, Built (f l r)) :
    Hushes
      (do
        let l ← x
        let l ← lift (convert l)
        let r ← y
        let r ← lift (convert r)
        f l r)
      (do
        let l ← x'
        let l ← lift (convert l)
        let r ← y'
        let r ← lift (convert r)
        f l r) :=
  hx.bind fun _ => (hushes_lift _).bind fun l => hy.bind fun _ => (hushes_lift _).bind fun r =>
    (hf l r).hushes

end Evaluation

open Evaluation

/-- Parentheses report the value that they hold once more, and do nothing else. -/
theorem Expr.hushes_bare (e : Expr) (env : Environment) :
    Hushes (e.eval env) (e.bare.eval env) := by
  induction e with
  | number | string | identifier => exact (Expr.built _ env).hushes
  | group inner ih =>
    have hyield (value : Value) : Hushes (yield value) (pure value) := fun _ => rfl
    have hinner := ih.bind hyield
    rwa [bind_pure] at hinner
  | disjunction left right ihl ihr | conjunction left right ihl ihr
  | comparison left op right ihl ihr | sum left op right ihl ihr =>
    exact hushes_operands ihl ihr fun _ _ => .yield _
  | term left op right ihl ihr =>
    refine hushes_operands ihl ihr fun l r => .bind (.report op l r) fun _ => ?_
    exact .bind (.lift (op.shallow_apply l r)) fun _ => .yield _
  | power base exponent ihb ihe =>
    refine hushes_operands ihb ihe fun b e => ?_
    exact .bind (.lift (shallow_powerOf b e)) fun _ => .yield _
  | firstPower base ih =>
    refine ih.bind fun v => (hushes_lift _).bind fun b => (hushes_lift _).bind fun _ => ?_
    exact (Built.yield _).hushes
  | negate operand ih =>
    exact ih.bind fun v => (hushes_lift _).bind fun _ => (Built.yield _).hushes

namespace Run

variable {α : Type}

/-- From the bare state, the second computation does what the first one does. -/
abbrev Bares (x x' : Run α) : Prop :=
  Mirrors Machine.bare id x x'

/-! ## The steps -/

section steps

variable (settings : Settings) (line : Nat) (name : String)

/-- A bare state keeps no reports, so other reports may be made to it. -/
theorem bares_note (event event' : Event) : Bares (note event) (note event') :=
  fun _ => rfl

theorem bares_fail (fault : Fault) : Bares (fail line fault : Run α) (fail line fault) :=
  fun _ => rfl

theorem bares_lift (x : Except Fault α) : Bares (lift line x) (lift line x) := by
  intro m
  cases x <;> rfl

theorem bares_evaluation {act act' : Environment → Evaluation α}
    (h : ∀ env, Hushes (act env) (act' env)) :
    Bares (evaluation line act) (evaluation line act') := by
  intro m
  have hact : act' m.bare.environment m.bare.log = _ := h m.environment m.log
  rw [evaluation, evaluation, hact]
  cases act m.environment m.log <;> rfl

theorem bares_evaluate (e : Expr) : Bares (evaluate line e) (evaluate line e.bare) :=
  bares_evaluation line e.hushes_bare

theorem bares_integer (e : Expr) : Bares (integer line e) (integer line e.bare) :=
  (bares_evaluate line e).bind fun _ => bares_lift line _

theorem bares_condition (e : Expr) : Bares (condition line e) (condition line e.bare) :=
  (bares_evaluate line e).bind fun _ => bares_lift line _

theorem bares_evaluateEach (args : List Expr) :
    Bares (evaluateEach line args) (evaluateEach line (args.map Expr.bare)) := by
  induction args with
  | nil => exact .pure []
  | cons e rest ih => exact (bares_evaluate line e).bind fun _ => ih.bind fun _ => .pure _

/-- A tag leads to a warning at most. -/
theorem bares_checkTag (value : Value) (tag : Option TypeTag) :
    Bares (checkTag line name value tag) (checkTag line name value none) := by
  cases tag with
  | none => exact .pure ()
  | some tag =>
    show Bares (if value.type = tag then pure () else note _) (pure ())
    split
    · exact .pure ()
    · exact fun _ => rfl

theorem bares_bind (value : Value) :
    Bares (bind settings line name value) (bind settings line name value) := by
  refine .ite ?_ (.modify fun _ => rfl)
  refine (bares_evaluation line fun env => (env.built_write name value).hushes).bind fun _ => ?_
  exact .modify fun _ => rfl

theorem bares_bindEach (params : List String) (values : List Value) :
    Bares (bindEach settings line params values) (bindEach settings line params values) := by
  induction params generalizing values with
  | nil => exact .pure ()
  | cons param params ih =>
    cases values with
    | nil => exact .pure ()
    | cons value values =>
      refine (bares_note _ _).bind fun _ => ?_
      exact (bares_bind settings line param value).bind fun _ => ih values

theorem bares_write (text : String) : Bares (write line text) (write line text) := by
  intro m
  have houtput : m.bare.output = m.output := rfl
  simp only [write, houtput]
  split <;> rfl

theorem bares_readLine : Bares (readLine line) (readLine line) := by
  intro m
  have hinput : m.bare.input = m.input := rfl
  rw [readLine, readLine, hinput]
  cases m.input.next? with
  | none => rfl
  | some next =>
    dsimp only
    split <;> rfl

theorem bares_readNumber (prompt : String) :
    Bares (readNumber line prompt) (readNumber line prompt) := by
  unfold readNumber
  dsimp only
  -- with or without a prompt, the line is read in the same way
  refine .ite ((bares_write line _).bind fun _ => ?_) ?_
  all_goals
    refine (bares_readLine line).bind fun text => ?_
    cases Number.ofString? (Text.trim text) with
    | some x => exact (bares_note _ (.inputRead x)).bind fun _ => .pure x
    | none => exact bares_fail line _

theorem bares_returned (routine : Routine) : Bares (returned routine) (returned routine.bare) := by
  intro m
  rw [returned_eq, returned_eq]
  rfl

theorem bares_define (routine : Routine) :
    Bares (define name routine) (define name routine.bare) := by
  refine .get fun m => ?_
  have hput : ({ m.bare with routines := m.bare.routines.put name routine.bare } : Machine) =
      Machine.bare { m with routines := m.routines.put name routine } := by
    simp only [Machine.bare, Table.map_put]
  have hcontains : m.bare.routines.contains name = m.routines.contains name :=
    Table.contains_map ..
  rw [hput, hcontains]
  exact (Mirrors.set _).bind fun _ => .ite (bares_note _ _) (bares_note _ _)

end steps

/-! ## What statements are made of -/

section parts

variable (settings : Settings) (line : Nat) (name : String)

theorem bares_assign (value : Expr) (tag : Option TypeTag) :
    Bares (assign settings line name value tag) (assign settings line name value.bare none) := by
  refine (bares_evaluate line value).bind fun v => ?_
  refine (bares_checkTag line name v tag).bind fun _ => ?_
  exact (bares_note _ _).bind fun _ => bares_bind settings line name v

theorem bares_drawInto (least greatest : Expr) :
    Bares (drawInto settings line name least greatest)
      (drawInto settings line name least.bare greatest.bare) := by
  refine (bares_integer line least).bind fun l => ?_
  refine (bares_integer line greatest).bind fun g => .ite (bares_fail line _) ?_
  have hdraw : Bares (draw l g) (draw l g) := fun _ => rfl
  refine hdraw.bind fun drawn => (bares_note _ _).bind fun _ => ?_
  exact bares_bind settings line name _

theorem bares_leaving {leave leave' : Machine → Machine} {act act' : Run α}
    (hleave : ∀ m, leave' m.bare = (leave m).bare) (hact : Bares act act') :
    Bares (leaving leave act) (leaving leave' act') := by
  intro m
  rw [leaving, leaving, hact m]
  cases act m with
  | ok a mid => exact congrArg (EStateM.Result.ok a) (hleave mid)
  | error failure mid => exact congrArg (EStateM.Result.error _) (hleave mid)

theorem bares_activate {enter : List Stmt → Run Unit} (routine : Routine) (values : List Value)
    (henter : Bares (enter routine.body) (enter (bareEach routine.body))) :
    Bares (activate settings line routine values enter)
      (activate settings line routine.bare values enter) := by
  intro before
  have hleave (after : Machine) :
      ({ after.bare with environment := before.environment, depth := before.depth } : Machine) =
        Machine.bare { after with environment := before.environment, depth := before.depth } :=
    rfl
  refine bares_leaving hleave ?_ { before with depth := before.depth + 1 }
  refine (bares_bindEach settings line routine.params values).bind fun _ => ?_
  exact henter.bind fun _ => bares_returned routine

/-- Bare bodies are run like the bodies themselves. -/
def Descent.Bares (descent : Descent) : Prop :=
  ∀ enter ∈ descent, ∀ body, Run.Bares (enter body) (enter (bareEach body))

theorem bares_call {descent : Descent} (hdescent : Descent.Bares descent) (args : List Expr) :
    Bares (call settings descent line name args)
      (call settings descent line name (args.map Expr.bare)) := by
  refine .get fun m => ?_
  rw [show m.bare.routines.get? name = _ from Table.get?_map .., List.length_map]
  cases m.routines.get? name with
  | none => exact bares_fail line _
  | some routine =>
    refine .ite (bares_fail line _) ((bares_evaluateEach line args).bind fun values => ?_)
    cases descent with
    | none => exact bares_fail line _
    | some enter =>
      have henter := hdescent enter rfl routine.body
      refine (bares_note _ _).bind fun _ => ?_
      refine (bares_activate settings line routine values henter).bind fun value => ?_
      exact (bares_note _ _).bind fun _ => bares_bind settings line name value

theorem bares_forEachFrom {act act' : Int → Run Unit} (h : ∀ i, Bares (act i) (act' i))
    (count : Nat) (start : Int) :
    Bares (forEachFrom act count start) (forEachFrom act' count start) := by
  induction count generalizing start with
  | zero => exact .pure ()
  | succ count ih => exact (h start).bind fun _ => ih (start + 1)

end parts

/-! ## Statements -/

section statements

variable {settings : Settings} {descent : Descent}

theorem bares_announced {act act' : Run Unit} (body : List Stmt) (h : Bares act act') :
    Bares (announced body act) (announced (bareEach body) act') :=
  (bares_note _ _).bind fun _ => h

mutual

theorem bares_statement (hdescent : Descent.Bares descent) :
    (s : Stmt) → Bares (s.execute settings descent) (s.bare.execute settings descent)
  | .assign line name value tag => by
    rw [Stmt.bare, Stmt.execute, Stmt.execute]
    exact (bares_note _ _).bind fun _ => bares_assign settings line name value tag
  | .print line value => by
    rw [Stmt.bare, Stmt.execute, Stmt.execute]
    refine (bares_note _ _).bind fun _ => (bares_evaluate line value).bind fun v => ?_
    exact (bares_write line _).bind fun _ => bares_note _ _
  | .input line name prompt => by
    rw [Stmt.bare, Stmt.execute]
    refine (bares_note _ _).bind fun _ => (bares_readNumber line prompt).bind fun x => ?_
    exact bares_bind settings line name _
  | .branch line condition thenBody elseBody => by
    rw [Stmt.bare, Stmt.execute, Stmt.execute]
    refine (bares_note _ _).bind fun _ => (bares_condition line condition).bind fun truthy => ?_
    refine (bares_note _ _).bind fun _ => .ite ?_ ?_
    · exact bares_announced thenBody (bares_statements hdescent thenBody)
    · exact bares_announced elseBody (bares_statements hdescent elseBody)
  | .loop line name start stop body => by
    rw [Stmt.bare, Stmt.execute, Stmt.execute]
    refine (bares_note _ _).bind fun _ => (bares_integer line start).bind fun start => ?_
    refine (bares_integer line stop).bind fun stop => (bares_note _ _).bind fun _ => ?_
    refine bares_forEachFrom (fun i => (bares_bind settings line name _).bind fun _ => ?_) _ start
    exact bares_announced body (bares_statements hdescent body)
  | .rand line name least greatest => by
    rw [Stmt.bare, Stmt.execute, Stmt.execute]
    exact (bares_note _ _).bind fun _ => bares_drawInto settings line name least greatest
  | .define line name params body result => by
    rw [Stmt.bare, Stmt.execute, Stmt.execute]
    exact (bares_note _ _).bind fun _ => bares_define name ⟨params, body, result⟩
  | .call line name args => by
    rw [Stmt.bare, Stmt.execute, Stmt.execute]
    exact (bares_note _ _).bind fun _ => bares_call settings line name hdescent args

theorem bares_statements (hdescent : Descent.Bares descent) : (body : List Stmt) →
    Bares (executeEach settings descent body) (executeEach settings descent (bareEach body))
  | [] => .pure ()
  | s :: rest => by
    rw [bareEach, executeEach, executeEach]
    exact (bares_statement hdescent s).bind fun _ => bares_statements hdescent rest

end

theorem bares_body (hdescent : Descent.Bares descent) (body : List Stmt) :
    Bares (executeBody settings descent body) (executeBody settings descent (bareEach body)) :=
  bares_announced body (bares_statements hdescent body)

end statements

/-- The induction is on how many more calls may be entered. -/
theorem bares_descent (settings : Settings) (levels : Nat) :
    Descent.Bares (descent settings levels) := by
  induction levels with
  | zero => nofun
  | succ levels ih =>
    intro enter henter body
    cases henter
    exact bares_body ih body

/-! ## Programs and orders -/

section orders

variable (settings : Settings)

/-- A declaration that is dropped has written to nothing that a bare state keeps. -/
theorem bares_dropped {d : Decl} (h : d.bare? = none) : Bares (declare settings d) (pure ()) := by
  cases d with
  | program | author | date => exact fun _ => rfl
  | const => cases h

theorem bares_declareEach (ds : List Decl) :
    Bares (declareEach settings ds) (declareEach settings (ds.filterMap Decl.bare?)) := by
  induction ds with
  | nil => exact .pure ()
  | cons d rest ih =>
    cases d with
    | program | author | date => exact (bares_dropped settings rfl).bind fun _ => ih
    | const line name e =>
      refine Mirrors.bind ?_ fun _ => ih
      refine (bares_evaluate line e).bind fun value => .get fun m => .ite (bares_fail line _) ?_
      exact (bares_note _ _).bind fun _ => .modify fun _ => rfl

theorem bares_run (order : Order) : Bares (order.run settings) (order.bare.run settings) := by
  have hbody (body : List Stmt) :
      Bares (Run.statements settings body) (Run.statements settings (bareEach body)) :=
    .get fun m => bares_body (bares_descent settings (m.levels settings)) body
  cases order with
  | program p =>
    refine (bares_note _ _).bind fun _ => ?_
    refine (bares_declareEach settings p.declarations).bind fun _ => ?_
    exact (hbody p.statements).bind fun _ => .get fun _ => bares_note _ _
  | statements body => exact hbody body
  | statement s =>
    exact .get fun m => bares_statement (bares_descent settings (m.levels settings)) s

end orders

end Run

/-! ## Sessions -/

open Run

theorem outcomes_bare (settings : Settings) (orders : List Order) (m : Machine) :
    outcomes settings (orders.map Order.bare) m.bare =
      (outcomes settings orders m).map bareResult := by
  induction orders generalizing m with
  | nil => rfl
  | cons order orders ih =>
    have hrun : order.bare.run settings m.bare = bareResult (order.run settings m) :=
      bares_run settings order m
    have hleft : left (bareResult (order.run settings m)) = (left (order.run settings m)).bare := by
      cases order.run settings m <;> rfl
    rw [List.map_cons, outcomes, outcomes, List.map_cons, hrun, hleft, ih]

/-- Orders and states that are alike when bare go through a session alike. -/
theorem outcomes_bare_congr {settings : Settings} {orders orders' : List Order} {m m' : Machine}
    (horders : orders'.map Order.bare = orders.map Order.bare) (hm : m'.bare = m.bare) :
    (outcomes settings orders' m').map bareResult =
      (outcomes settings orders m).map bareResult := by
  rw [← outcomes_bare, ← outcomes_bare, horders, hm]

/-- Tags, parentheses and declarations that only inform have no influence on a session. If all of
them are left out of its orders, also inside bodies, arguments and bounds, every order has the same
result, success or the same fault in the same line, and leaves the same environment, random numbers,
input, output and depth, and the same functions up to what is left out; only the reports and what is
known about the program may differ. The same holds if only some of them are left out or others put
in, and of two sessions that are opened with one seed, whatever they report and whatever else random
numbers would have come from. -/
theorem inert_syntax_changes_nothing (settings : Settings) (orders : List Order) (m : Machine) :
    (outcomes settings (orders.map Order.bare) m).map bareResult =
      (outcomes settings orders m).map bareResult ∧
    (∀ orders' m', orders'.map Order.bare = orders.map Order.bare → m'.bare = m.bare →
      (outcomes settings orders' m').map bareResult =
        (outcomes settings orders m).map bareResult) ∧
    ∀ seed entropy entropy' input output log log', settings.seed = some seed →
      (outcomes settings (orders.map Order.bare)
        (.initial settings entropy' input output log')).map bareResult =
      (outcomes settings orders (.initial settings entropy input output log)).map bareResult := by
  have hbare : (orders.map Order.bare).map Order.bare = orders.map Order.bare := by
    rw [List.map_map]
    exact List.map_congr_left fun order _ => order.bare_bare
  refine ⟨outcomes_bare_congr hbare rfl, fun orders' m' => outcomes_bare_congr, ?_⟩
  intro seed entropy entropy' input output log log' hseed
  exact outcomes_bare_congr hbare
    (Machine.bare_initial hseed entropy entropy' input output log log')

/-- The name of a program, parentheses in the body of a function and in an argument, and a tag that
does not fit are left out; the call fails as before in the same line of the body. -/
theorem failing_call_left_bare :
    let settings : Settings := { seed := some 7 }
    let orders : List Order :=
      [.program ⟨[.program 1 "p"],
        [.define 2 "f" ["a"] [.print 4 (.group (.identifier "y"))] "f"]⟩,
      .statement (.call 7 "f" [.group (.string "s")]),
      .statement (.assign 8 "x" (.group (.string "s")) (some .number))]
    let bare : List Order :=
      [.program ⟨[], [.define 2 "f" ["a"] [.print 4 (.identifier "y")] "f"]⟩,
      .statement (.call 7 "f" [.string "s"]),
      .statement (.assign 8 "x" (.string "s") none)]
    let start (log : Log) : Machine := .initial settings 0 ⟨[]⟩ .unlimited log
    (∃ m₁ m₂ m₃, outcomes settings orders (start (.keeping .debug)) =
      [.ok () m₁, .error ⟨.unbound "y", 4⟩ m₂, .ok () m₃]) ∧
    settings.seed = some 7 ∧
    (outcomes settings bare (start .off)).map bareResult =
      (outcomes settings orders (start (.keeping .debug))).map bareResult := by
  intro settings orders bare start
  have hseed : settings.seed = some 7 := rfl
  have hbare : orders.map Order.bare = bare := rfl
  refine ⟨⟨_, _, _, rfl⟩, hseed, ?_⟩
  rw [← hbare]
  exact (inert_syntax_changes_nothing settings orders (start .off)).2.2 7 0 0 ⟨[]⟩ .unlimited
    (.keeping .debug) .off hseed

end DivisionScript
