import DivisionScript.Proofs.Program
import DivisionScript.Proofs.Run.Evaluation
import DivisionScript.Proofs.Run.Session

/-!
# Run — Relabel

Lines have no influence on a run. If the lines of programs and of the functions that a state knows
are replaced, every order does the same to the state as before, and fails with the same fault where
it fails; the line of the failure is replaced like the others. A computation that is carried over in
this way is put together from steps that are.
-/

namespace DivisionScript

/-! ## Tables with other entries -/

namespace Table

variable {α β : Type}

/-- The table with every entry replaced. -/
def map (g : α → β) (t : Table α) : Table β where
  entries := t.entries.map fun entry => (entry.1, g entry.2)
  distinct := by simpa [Function.comp_def] using t.distinct

theorem get?_map (g : α → β) (t : Table α) (name : String) :
    (t.map g).get? name = (t.get? name).map g := by
  show (t.entries.map fun entry => (entry.1, g entry.2)).lookup name = _
  rw [get?]
  induction t.entries with
  | nil => rfl
  | cons entry rest ih =>
    rw [List.map_cons, List.lookup_cons, List.lookup_cons]
    split
    · rfl
    · exact ih

theorem contains_map (g : α → β) (t : Table α) (name : String) :
    (t.map g).contains name = t.contains name := by
  rw [contains, get?_map, Option.isSome_map, contains]

theorem map_putEntry (g : α → β) (name : String) (a : α) (entries : List (String × α)) :
    (putEntry name a entries).map (fun entry => (entry.1, g entry.2)) =
      putEntry name (g a) (entries.map fun entry => (entry.1, g entry.2)) := by
  induction entries with
  | nil => rfl
  | cons entry rest ih =>
    rw [putEntry, List.map_cons, putEntry]
    split
    · rfl
    · rw [List.map_cons, ih]

theorem map_put (g : α → β) (t : Table α) (name : String) (a : α) :
    (t.put name a).map g = (t.map g).put name (g a) := by
  simp only [put, map, map_putEntry]

theorem map_congr {g g' : α → β} {t : Table α} (h : ∀ entry ∈ t.entries, g entry.2 = g' entry.2) :
    t.map g = t.map g' := by
  have hentries : (t.entries.map fun entry => (entry.1, g entry.2)) =
      t.entries.map fun entry => (entry.1, g' entry.2) :=
    List.map_congr_left fun entry hentry => by rw [h entry hentry]
  simp only [map, hentries]

end Table

/-! ## States and failures with other lines -/

/-- A failure with its line replaced. -/
def Failure.relabel (f : Nat → Nat) (failure : Failure) : Failure :=
  { failure with line := f failure.line }

/-- A function with every line replaced. -/
def Routine.relabel (f : Nat → Nat) (routine : Routine) : Routine :=
  { routine with body := relabelEach f routine.body }

/-- An order with every line replaced. -/
def Order.relabel (f : Nat → Nat) : Order → Order
  | program p => .program (p.relabel f)
  | statements body => .statements (relabelEach f body)
  | statement s => .statement (s.relabel f)

theorem Order.relabel_id (order : Order) : order.relabel id = order := by
  cases order with
  | program p => exact congrArg program p.relabel_id
  | statements body => exact congrArg statements (relabelEach_id body)
  | statement s => exact congrArg statement s.relabel_id

namespace Relabelling

variable (ρ : Relabelling)

/-- A state whose functions have other lines, and whose log has other reports. All else is as it
was. -/
def machine (m : Machine) : Machine :=
  { m with routines := m.routines.map (Routine.relabel ρ.line), log := ρ.log m.log }

/-- Where lines stay as they are, only the reports are other ones. -/
theorem machine_eq (hline : ρ.line = id) (m : Machine) :
    ρ.machine m = { m with log := ρ.log m.log } := by
  have hroutine : Routine.relabel id = id := by
    funext routine
    rw [Routine.relabel, relabelEach_id]
    rfl
  have hroutines : m.routines.map (Routine.relabel id) = m.routines := by
    rw [hroutine, Table.map]
    simp
  rw [machine, hline, hroutines]

/-- A result in such a state, with the line of a failure replaced. -/
def result {α : Type} : EStateM.Result Failure Machine α → EStateM.Result Failure Machine α :=
  mapResult ρ.machine (Failure.relabel ρ.line)

end Relabelling

namespace Run

variable {α : Type}

/-- From the state with other lines, the second computation does what the first one does. -/
abbrev Relabels (ρ : Relabelling) (x x' : Run α) : Prop :=
  Mirrors ρ.machine (Failure.relabel ρ.line) x x'

/-! ## The steps -/

section steps

variable (ρ : Relabelling) (settings : Settings) (line : Nat) (name : String)

theorem relabels_note (event : Event) :
    Relabels ρ (note event) (note (event.relabel ρ.line)) := by
  intro m
  have hlog := ρ.log_note m.log event
  exact congrArg (fun log => EStateM.Result.ok () { ρ.machine m with log }) hlog.symm

theorem relabels_fail (fault : Fault) :
    Relabels ρ (fail line fault : Run α) (fail (ρ.line line) fault) :=
  fun _ => rfl

theorem relabels_lift (x : Except Fault α) :
    Relabels ρ (lift line x) (lift (ρ.line line) x) := by
  intro m
  cases x <;> rfl

theorem relabels_evaluation {act : Environment → Evaluation α}
    (h : ∀ env, Evaluation.Built (act env)) :
    Relabels ρ (evaluation line act) (evaluation (ρ.line line) act) := by
  intro m
  have hact : act (ρ.machine m).environment (ρ.machine m).log = _ :=
    (h m.environment).lineless ρ m.log
  rw [evaluation, evaluation, hact]
  cases act m.environment m.log <;> rfl

theorem relabels_evaluate (e : Expr) :
    Relabels ρ (evaluate line e) (evaluate (ρ.line line) e) :=
  relabels_evaluation ρ line e.built

theorem relabels_integer (e : Expr) : Relabels ρ (integer line e) (integer (ρ.line line) e) :=
  (relabels_evaluate ρ line e).bind fun _ => relabels_lift ρ line _

theorem relabels_condition (e : Expr) :
    Relabels ρ (condition line e) (condition (ρ.line line) e) :=
  (relabels_evaluate ρ line e).bind fun _ => relabels_lift ρ line _

theorem relabels_evaluateEach (args : List Expr) :
    Relabels ρ (evaluateEach line args) (evaluateEach (ρ.line line) args) := by
  induction args with
  | nil => exact .pure []
  | cons e rest ih =>
    exact (relabels_evaluate ρ line e).bind fun _ => ih.bind fun _ => .pure _

theorem relabels_checkTag (value : Value) (tag : Option TypeTag) :
    Relabels ρ (checkTag line name value tag) (checkTag (ρ.line line) name value tag) := by
  cases tag with
  | none => exact .pure ()
  | some tag => exact .ite (.pure ()) (relabels_note ρ _)

theorem relabels_bind (value : Value) :
    Relabels ρ (bind settings line name value) (bind settings (ρ.line line) name value) := by
  refine .ite ?_ (.modify fun _ => rfl)
  refine (relabels_evaluation ρ line fun env => env.built_write name value).bind fun _ => ?_
  exact .modify fun _ => rfl

theorem relabels_bindEach (params : List String) (values : List Value) :
    Relabels ρ (bindEach settings line params values)
      (bindEach settings (ρ.line line) params values) := by
  induction params generalizing values with
  | nil => exact .pure ()
  | cons param params ih =>
    cases values with
    | nil => exact .pure ()
    | cons value values =>
      exact (relabels_note ρ _).bind fun _ => (relabels_bind ρ settings line param value).bind
        fun _ => ih values

theorem relabels_write (text : String) :
    Relabels ρ (write line text) (write (ρ.line line) text) := by
  intro m
  have houtput : (ρ.machine m).output = m.output := rfl
  simp only [write, houtput]
  split <;> rfl

theorem relabels_printLine (value : Value) :
    Relabels ρ (printLine line value) (printLine (ρ.line line) value) :=
  (relabels_write ρ line _).bind fun _ => relabels_note ρ _

theorem relabels_readLine : Relabels ρ (readLine line) (readLine (ρ.line line)) := by
  intro m
  have hinput : (ρ.machine m).input = m.input := rfl
  rw [readLine, readLine, hinput]
  cases m.input.next? with
  | none => rfl
  | some next =>
    dsimp only
    split <;> rfl

theorem relabels_readNumber (prompt : String) :
    Relabels ρ (readNumber line prompt) (readNumber (ρ.line line) prompt) := by
  unfold readNumber
  dsimp only
  -- with or without a prompt, the line is read in the same way
  refine .ite ((relabels_write ρ line _).bind fun _ => ?_) ?_
  all_goals
    refine (relabels_readLine ρ line).bind fun text => ?_
    cases Number.ofString? (Text.trim text) with
    | some x => exact (relabels_note ρ (.inputRead x)).bind fun _ => .pure x
    | none => exact relabels_fail ρ line _

theorem relabels_draw (least greatest : Int) :
    Relabels ρ (draw least greatest) (draw least greatest) :=
  fun _ => rfl

theorem relabels_returned (routine : Routine) :
    Relabels ρ (returned routine) (returned (routine.relabel ρ.line)) := by
  intro m
  rw [returned_eq, returned_eq]
  rfl

end steps

/-! ## What statements are made of -/

section parts

variable (ρ : Relabelling) (settings : Settings) (line : Nat) (name : String)

theorem relabels_print (value : Expr) :
    Relabels ρ (print line value) (print (ρ.line line) value) :=
  (relabels_evaluate ρ line value).bind fun _ => relabels_printLine ρ line _

theorem relabels_assign (value : Expr) (tag : Option TypeTag) :
    Relabels ρ (assign settings line name value tag)
      (assign settings (ρ.line line) name value tag) := by
  refine (relabels_evaluate ρ line value).bind fun v => ?_
  refine (relabels_checkTag ρ line name v tag).bind fun _ => ?_
  exact (relabels_note ρ _).bind fun _ => relabels_bind ρ settings line name v

theorem relabels_readInto (prompt : String) :
    Relabels ρ (readInto settings line name prompt)
      (readInto settings (ρ.line line) name prompt) :=
  (relabels_readNumber ρ line prompt).bind fun _ => relabels_bind ρ settings line name _

theorem relabels_drawInto (least greatest : Expr) :
    Relabels ρ (drawInto settings line name least greatest)
      (drawInto settings (ρ.line line) name least greatest) := by
  refine (relabels_integer ρ line least).bind fun l => ?_
  refine (relabels_integer ρ line greatest).bind fun g => ?_
  refine .ite (relabels_fail ρ line _) ((relabels_draw ρ l g).bind fun drawn => ?_)
  exact (relabels_note ρ _).bind fun _ => relabels_bind ρ settings line name _

theorem relabels_define (routine : Routine) :
    Relabels ρ (define name routine) (define name (routine.relabel ρ.line)) := by
  refine .get fun m => ?_
  have hput : ({ ρ.machine m with
        routines := (ρ.machine m).routines.put name (routine.relabel ρ.line) } : Machine) =
      ρ.machine { m with routines := m.routines.put name routine } := by
    simp only [Relabelling.machine, Table.map_put]
  have hcontains : (ρ.machine m).routines.contains name = m.routines.contains name :=
    Table.contains_map ..
  rw [hput, hcontains]
  exact (Mirrors.set _).bind fun _ => .ite (relabels_note ρ _) (relabels_note ρ _)

theorem relabels_leaving {leave leave' : Machine → Machine} {act act' : Run α}
    (hleave : ∀ m, leave' (ρ.machine m) = ρ.machine (leave m)) (hact : Relabels ρ act act') :
    Relabels ρ (leaving leave act) (leaving leave' act') := by
  intro m
  rw [leaving, leaving, hact m]
  cases act m with
  | ok a mid => exact congrArg (EStateM.Result.ok a) (hleave mid)
  | error failure mid => exact congrArg (EStateM.Result.error _) (hleave mid)

theorem relabels_activate {enter enter' : List Stmt → Run Unit} (routine : Routine)
    (values : List Value) (henter : Relabels ρ (enter routine.body)
      (enter' (relabelEach ρ.line routine.body))) :
    Relabels ρ (activate settings line routine values enter)
      (activate settings (ρ.line line) (routine.relabel ρ.line) values enter') := by
  intro before
  have hleave (after : Machine) :
      ({ ρ.machine after with
          environment := before.environment, depth := before.depth } : Machine) =
        ρ.machine { after with environment := before.environment, depth := before.depth } :=
    rfl
  refine relabels_leaving ρ hleave ?_ { before with depth := before.depth + 1 }
  refine (relabels_bindEach ρ settings line routine.params values).bind fun _ => ?_
  exact henter.bind fun _ => relabels_returned ρ routine

/-- Bodies with other lines are run alike. -/
def Descent.Relabels (ρ : Relabelling) (descent : Descent) : Prop :=
  ∀ enter ∈ descent, ∀ body, Run.Relabels ρ (enter body) (enter (relabelEach ρ.line body))

theorem relabels_call {descent : Descent} (hdescent : Descent.Relabels ρ descent)
    (args : List Expr) :
    Relabels ρ (call settings descent line name args)
      (call settings descent (ρ.line line) name args) := by
  refine .get fun m => ?_
  rw [show (ρ.machine m).routines.get? name = _ from Table.get?_map ..]
  cases m.routines.get? name with
  | none => exact relabels_fail ρ line _
  | some routine =>
    refine .ite (relabels_fail ρ line _) ?_
    refine (relabels_evaluateEach ρ line args).bind fun values => ?_
    cases descent with
    | none => exact relabels_fail ρ line _
    | some enter =>
      have henter := hdescent enter rfl routine.body
      refine (relabels_note ρ _).bind fun _ => ?_
      refine (relabels_activate ρ settings line routine values henter).bind fun value => ?_
      exact (relabels_note ρ _).bind fun _ => relabels_bind ρ settings line name value

theorem relabels_forEachFrom {act act' : Int → Run Unit} (h : ∀ i, Relabels ρ (act i) (act' i))
    (count : Nat) (start : Int) :
    Relabels ρ (forEachFrom act count start) (forEachFrom act' count start) := by
  induction count generalizing start with
  | zero => exact .pure ()
  | succ count ih => exact (h start).bind fun _ => ih (start + 1)

theorem relabels_announced {act act' : Run Unit} (body : List Stmt) (h : Relabels ρ act act') :
    Relabels ρ (announced body act) (announced (relabelEach ρ.line body) act') := by
  have hlength := length_relabelEach ρ.line body
  rw [announced, announced, hlength]
  exact (relabels_note ρ _).bind fun _ => h

end parts

/-! ## Statements -/

section statements

variable {ρ : Relabelling} {settings : Settings} {descent : Descent}

mutual

theorem relabels_statement (hdescent : Descent.Relabels ρ descent) : (s : Stmt) →
    Relabels ρ (s.execute settings descent) ((s.relabel ρ.line).execute settings descent)
  | .assign line name value tag => by
    rw [Stmt.relabel, Stmt.execute, Stmt.execute]
    exact (relabels_note ρ _).bind fun _ => relabels_assign ρ settings line name value tag
  | .print line value => by
    rw [Stmt.relabel, Stmt.execute, Stmt.execute]
    exact (relabels_note ρ _).bind fun _ => relabels_print ρ line value
  | .input line name prompt => by
    rw [Stmt.relabel, Stmt.execute, Stmt.execute]
    exact (relabels_note ρ _).bind fun _ => relabels_readInto ρ settings line name prompt
  | .branch line condition thenBody elseBody => by
    rw [Stmt.relabel, Stmt.execute, Stmt.execute]
    refine (relabels_note ρ _).bind fun _ => ?_
    refine (relabels_condition ρ line condition).bind fun truthy => ?_
    refine (relabels_note ρ _).bind fun _ => .ite ?_ ?_
    · exact relabels_announced ρ thenBody (relabels_statements hdescent thenBody)
    · exact relabels_announced ρ elseBody (relabels_statements hdescent elseBody)
  | .loop line name start stop body => by
    rw [Stmt.relabel, Stmt.execute, Stmt.execute]
    refine (relabels_note ρ _).bind fun _ => ?_
    refine (relabels_integer ρ line start).bind fun start => ?_
    refine (relabels_integer ρ line stop).bind fun stop => ?_
    refine (relabels_note ρ _).bind fun _ => relabels_forEachFrom ρ (fun i => ?_) _ start
    refine (relabels_bind ρ settings line name _).bind fun _ => ?_
    exact relabels_announced ρ body (relabels_statements hdescent body)
  | .rand line name least greatest => by
    rw [Stmt.relabel, Stmt.execute, Stmt.execute]
    exact (relabels_note ρ _).bind fun _ => relabels_drawInto ρ settings line name least greatest
  | .define line name params body result => by
    rw [Stmt.relabel, Stmt.execute, Stmt.execute]
    exact (relabels_note ρ _).bind fun _ => relabels_define ρ name ⟨params, body, result⟩
  | .call line name args => by
    rw [Stmt.relabel, Stmt.execute, Stmt.execute]
    exact (relabels_note ρ _).bind fun _ => relabels_call ρ settings line name hdescent args

theorem relabels_statements (hdescent : Descent.Relabels ρ descent) : (body : List Stmt) →
    Relabels ρ (executeEach settings descent body)
      (executeEach settings descent (relabelEach ρ.line body))
  | [] => .pure ()
  | s :: rest => by
    rw [relabelEach, executeEach, executeEach]
    exact (relabels_statement hdescent s).bind fun _ => relabels_statements hdescent rest

end

theorem relabels_body (hdescent : Descent.Relabels ρ descent) (body : List Stmt) :
    Relabels ρ (executeBody settings descent body)
      (executeBody settings descent (relabelEach ρ.line body)) :=
  relabels_announced ρ body (relabels_statements hdescent body)

end statements

/-- The induction is on how many more calls may be entered. -/
theorem relabels_descent (ρ : Relabelling) (settings : Settings) (levels : Nat) :
    Descent.Relabels ρ (descent settings levels) := by
  induction levels with
  | zero => rintro enter ⟨⟩
  | succ levels ih =>
    rintro enter ⟨⟩ body
    exact relabels_body ih body

/-! ## Programs and orders -/

section orders

variable (ρ : Relabelling) (settings : Settings)

theorem relabels_declare (d : Decl) :
    Relabels ρ (declare settings d) (declare settings (d.relabel ρ.line)) := by
  cases d with
  | program | author | date =>
    exact (relabels_note ρ _).bind fun _ => .modify fun _ => rfl
  | const line name e =>
    refine (relabels_evaluate ρ line e).bind fun value => .get fun m => ?_
    refine .ite (relabels_fail ρ line _) ?_
    exact (relabels_note ρ _).bind fun _ => .modify fun _ => rfl

theorem relabels_declareEach (ds : List Decl) :
    Relabels ρ (declareEach settings ds) (declareEach settings (ds.map (Decl.relabel ρ.line))) := by
  induction ds with
  | nil => exact .pure ()
  | cons d rest ih => exact (relabels_declare ρ settings d).bind fun _ => ih

theorem relabels_run (order : Order) :
    Relabels ρ (order.run settings) ((order.relabel ρ.line).run settings) := by
  have hbody (body : List Stmt) : Relabels ρ (Run.statements settings body)
      (Run.statements settings (relabelEach ρ.line body)) :=
    .get fun m => relabels_body (relabels_descent ρ settings (m.levels settings)) body
  cases order with
  | program p =>
    have hlengths : (p.relabel ρ.line).declarations.length = p.declarations.length ∧
        (p.relabel ρ.line).statements.length = p.statements.length :=
      ⟨List.length_map .., length_relabelEach ..⟩
    show Relabels ρ (Run.program settings p) (Run.program settings (p.relabel ρ.line))
    rw [Run.program, Run.program, hlengths.1, hlengths.2]
    refine (relabels_note ρ _).bind fun _ => ?_
    refine (relabels_declareEach ρ settings p.declarations).bind fun _ => ?_
    exact (hbody p.statements).bind fun _ => .get fun _ => relabels_note ρ _
  | statements body => exact hbody body
  | statement s =>
    exact .get fun m => relabels_statement (relabels_descent ρ settings (m.levels settings)) s

end orders

end Run

/-! ## Sessions -/

open Run

/-- How orders end that are carried out one after another, whether or not those before them have
failed. -/
def outcomes (settings : Settings) :
    List Order → Machine → List (EStateM.Result Failure Machine Unit)
  | [], _ => []
  | order :: orders, m =>
    let result := order.run settings m
    result :: outcomes settings orders (left result)

/-- The lines of the declarations and statements of an order. -/
def Order.lines : Order → List Nat
  | program p => p.lines
  | statements body => (allOfEach body).map Stmt.line
  | statement s => s.all.map Stmt.line

/-- The lines of the statements in the bodies of the functions that a state knows. -/
def Machine.lines (m : Machine) : List Nat :=
  m.routines.entries.flatMap fun entry => (allOfEach entry.2.body).map Stmt.line

section sessions

variable {settings : Settings} {f g : Nat → Nat}

theorem left_result (ρ : Relabelling) (r : EStateM.Result Failure Machine Unit) :
    left (ρ.result r) = ρ.machine (left r) := by
  cases r <;> rfl

theorem outcomes_relabel (settings : Settings) (ρ : Relabelling) (orders : List Order)
    (m : Machine) :
    outcomes settings (orders.map (Order.relabel ρ.line)) (ρ.machine m) =
      (outcomes settings orders m).map ρ.result := by
  induction orders generalizing m with
  | nil => rfl
  | cons order orders ih =>
    have hrun : (order.relabel ρ.line).run settings (ρ.machine m) =
        ρ.result (order.run settings m) :=
      relabels_run ρ settings order m
    rw [List.map_cons, outcomes, outcomes, List.map_cons, hrun, left_result, ih]

/-- Only the lines of an order count. -/
theorem Order.relabel_congr (order : Order) (h : ∀ line ∈ order.lines, f line = g line) :
    order.relabel f = order.relabel g := by
  cases order with
  | program p => exact congrArg program (p.relabel_congr h)
  | statements body =>
    exact congrArg statements (relabelEach_congr body (List.forall_mem_map.mp h))
  | statement s => exact congrArg statement (s.relabel_congr (List.forall_mem_map.mp h))

theorem Machine.relabel_congr (m : Machine) (h : ∀ line ∈ m.lines, f line = g line) :
    (Relabelling.silent f).machine m = (Relabelling.silent g).machine m := by
  have hroutines : m.routines.map (Routine.relabel f) = m.routines.map (Routine.relabel g) := by
    refine Table.map_congr fun entry hentry => ?_
    have hbody : relabelEach f entry.2.body = relabelEach g entry.2.body := by
      refine relabelEach_congr _ fun s hs => h _ (List.mem_flatMap.mpr ⟨entry, hentry, ?_⟩)
      exact List.mem_map_of_mem hs
    rw [Routine.relabel, Routine.relabel, hbody]
  exact congrArg (fun routines => { m with routines, log := .off }) hroutines

/-- If a failure had a line of its own making, other lines that agree with the given ones wherever
these occur would change it. -/
theorem line_mem_of_error {orders : List Order} {m m' : Machine} {failure : Failure}
    (h : .error failure m' ∈ outcomes settings orders m) :
    failure.line ∈ orders.flatMap Order.lines ++ m.lines := by
  refine Decidable.byContradiction fun hline => ?_
  let known := orders.flatMap Order.lines ++ m.lines
  let f : Nat → Nat := fun line => if line ∈ known then line else line + 1
  have hagree : ∀ line ∈ known, f line = id line := fun line hmem => if_pos hmem
  rw [List.forall_mem_append] at hagree
  have horders : orders.map (Order.relabel f) = orders.map (Order.relabel id) := by
    refine List.map_congr_left fun order horder => order.relabel_congr fun line hmem => ?_
    exact hagree.1 line (List.mem_flatMap.mpr ⟨order, horder, hmem⟩)
  have hresults := (outcomes_relabel settings (.silent f) orders m).symm.trans
    ((congrArg₂ (outcomes settings) horders (m.relabel_congr hagree.2)).trans
      (outcomes_relabel settings (.silent id) orders m))
  have hsame := List.map_inj_left.mp hresults _ h
  have hfailure : failure.relabel f = failure.relabel id := by
    injection hsame
  have hmoved : failure.line + 1 = failure.line := by
    have := congrArg Failure.line hfailure
    rwa [Failure.relabel, Failure.relabel, show f failure.line = _ from if_neg hline] at this
  omega

end sessions

/-- Lines have no influence on a session. If every line of the orders and of the functions known
before is replaced, every order ends as before: with the same environment, program information,
random numbers, input, output and depth, with success where it succeeded, and with the same fault
where it failed. The bodies of functions and the failures have the lines that they have been given,
and so have the reports. The line of a failure is that of a declaration or a statement of the
session. -/
theorem lines_change_nothing (settings : Settings) (f : Nat → Nat) (orders : List Order)
    (m : Machine) :
    outcomes settings (orders.map (Order.relabel f)) ((Relabelling.full f).machine m) =
      (outcomes settings orders m).map (Relabelling.full f).result ∧
    ∀ failure m', .error failure m' ∈ outcomes settings orders m →
      failure.line ∈ orders.flatMap Order.lines ++ m.lines :=
  ⟨outcomes_relabel settings (.full f) orders m, fun _ _ h => line_mem_of_error h⟩

/-- The body of a function fails in its line, and in the line that is put in its place. -/
theorem failure_moves_with_line :
    let body : List Stmt := [.print 2 (.identifier "y")]
    let orders : List Order := [.statement (.define 1 "f" [] body "f"), .statement (.call 4 "f" [])]
    let m := Machine.initial {} 0 ⟨[]⟩ .unlimited .off
    (∃ m', (outcomes {} (orders.map (Order.relabel (· + 10)))
      ((Relabelling.full (· + 10)).machine m))[1]? = some (.error ⟨.unbound "y", 12⟩ m')) ∧
    2 ∈ orders.flatMap Order.lines ++ m.lines := by
  intro body orders m
  have hrun : ∃ m', (outcomes {} orders m)[1]? = some (.error ⟨.unbound "y", 2⟩ m') := ⟨_, rfl⟩
  obtain ⟨m', h⟩ := hrun
  obtain ⟨houtcomes, hlines⟩ := lines_change_nothing {} (· + 10) orders m
  refine ⟨⟨(Relabelling.full (· + 10)).machine m', ?_⟩, hlines _ m' (List.mem_of_getElem? h)⟩
  rw [houtcomes, List.getElem?_map, h]
  rfl

end DivisionScript
