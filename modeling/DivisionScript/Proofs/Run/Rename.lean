import Mathlib.Data.List.Nodup
import Mathlib.Logic.Embedding.Basic
import Mathlib.Logic.Equiv.Basic
import DivisionScript.Proofs.Rename
import DivisionScript.Proofs.Run.Translation

/-!
# Run — Rename

Runs do not know which names they are given, only which of them are the same. If different names are
put in the place of different names, everywhere and for functions as for variables, a run goes step
by step as before: it prints, reads and draws the same, and the names in its environment, in its
table of functions and in its failure are replaced. Variables and functions have to be renamed alike
for one reason only: what a call returns is bound to the name of the function.
-/

namespace DivisionScript

variable {α β : Type} (r : String ↪ String)

/-! ## Tables and environments with other names -/

namespace Table

/-- The table with every name replaced. -/
def rename (t : Table α) : Table α where
  entries := t.entries.map fun entry => (r entry.1, entry.2)
  distinct := by simpa [Function.comp_def] using List.Nodup.map r.injective t.distinct

@[simp] theorem size_rename (t : Table α) : (t.rename r).size = t.size :=
  List.length_map ..

theorem get?_rename (t : Table α) (name : String) : (t.rename r).get? (r name) = t.get? name := by
  show (t.entries.map fun entry => (r entry.1, entry.2)).lookup (r name) = _
  rw [get?]
  induction t.entries with
  | nil => rfl
  | cons entry rest ih =>
    have hsame : (r name == r entry.1) = (name == entry.1) := by simp
    rw [List.map_cons, List.lookup_cons, List.lookup_cons, hsame]
    split
    · rfl
    · exact ih

theorem contains_rename (t : Table α) (name : String) :
    (t.rename r).contains (r name) = t.contains name := by
  rw [contains, get?_rename, contains]

theorem map_rename_putEntry (name : String) (a : α) (entries : List (String × α)) :
    (putEntry name a entries).map (fun entry => (r entry.1, entry.2)) =
      putEntry (r name) a (entries.map fun entry => (r entry.1, entry.2)) := by
  induction entries with
  | nil => rfl
  | cons entry rest ih =>
    rw [putEntry, List.map_cons, putEntry]
    by_cases h : entry.1 = name
    · rw [if_pos h, if_pos (congrArg r h), List.map_cons]
    · rw [if_neg h, if_neg (mt r.injective.eq_iff.mp h), List.map_cons, ih]

theorem rename_put (t : Table α) (name : String) (a : α) :
    (t.put name a).rename r = (t.rename r).put (r name) a := by
  simp only [put, rename, map_rename_putEntry]

end Table

namespace Environment

/-- The environment with every name replaced. -/
def rename (env : Environment) : Environment :=
  ⟨env.bindings.rename r⟩

/-- The new name of a variable is bound as the variable was. -/
theorem binding?_rename (env : Environment) (name : String) :
    (env.rename r).binding? (r name) = env.binding? name :=
  Table.get?_rename ..

theorem isConstant_rename (env : Environment) (name : String) :
    (env.rename r).isConstant (r name) = env.isConstant name := by
  rw [isConstant, binding?_rename, isConstant]

theorem rename_set (env : Environment) (name : String) (value : Value) :
    (env.set name value).rename r = (env.rename r).set (r name) value := by
  rw [set, set, isConstant_rename, rename, Table.rename_put]
  rfl

theorem rename_defineConstant (env : Environment) (name : String) (value : Value) :
    (env.defineConstant name value).rename r = (env.rename r).defineConstant (r name) value := by
  rw [defineConstant, rename, Table.rename_put]
  rfl

end Environment

/-! ## Faults and reports with other names -/

/-- A fault with the name that it carries replaced. -/
def Fault.rename (r : String → String) : Fault → Fault
  | unbound name => unbound (r name)
  | undefinedFunction name => undefinedFunction (r name)
  | arity name expected found => arity (r name) expected found
  | constant name => constant (r name)
  | fault => fault

/-- A failure with the name that it carries replaced. -/
def Failure.rename (r : String → String) (failure : Failure) : Failure :=
  { failure with fault := failure.fault.rename r }

/-- A report of a run with the name that it carries replaced. Other reports are as they were. -/
def Event.rename (r : String → String) : Event → Event
  | .lookingUp name => .lookingUp (r name)
  | .constantDefined name value => .constantDefined (r name) value
  | .constantKept name => .constantKept (r name)
  | .tagMismatch line name tag type => .tagMismatch line (r name) tag type
  | .assigning name value => .assigning (r name) value
  | .looping name start stop => .looping (r name) start stop
  | .drew name drawn least greatest => .drew (r name) drawn least greatest
  | .functionDefined name params => .functionDefined (r name) params
  | .functionRedefined name => .functionRedefined (r name)
  | .calling name depth => .calling (r name) depth
  | .bindingParameter name value => .bindingParameter (r name) value
  | .returned name value => .returned (r name) value
  | event => event

/-- The reports kept so far with their names replaced. -/
def Log.rename (r : String → String) (log : Log) : Log :=
  { log with newestFirst := log.newestFirst.map (Event.rename r) }

theorem Log.rename_note (r : String → String) (log : Log) (event : Event) :
    (log.note event).rename r = (log.rename r).note (event.rename r) := by
  have hlevel : (event.rename r).level = event.level := by cases event <;> rfl
  have hkeeps : (log.rename r).keeps event.level = log.keeps event.level := rfl
  rw [note, note, hlevel, hkeeps]
  split <;> rfl

/-- A result that carries no name where it is a fault. -/
def Nameless (x : Except Fault α) : Prop :=
  ∀ r, x.mapError (Fault.rename r) = x

theorem Value.nameless_asNumber (v : Value) : Nameless v.asNumber := by
  intro r
  rw [asNumber.eq_def]
  split
  · rfl
  · split <;> rfl

theorem Value.nameless_isTruthy (v : Value) : Nameless v.isTruthy := by
  intro r
  have hnumber := v.nameless_asNumber r
  rw [isTruthy]
  cases h : v.asNumber with
  | ok x => rfl
  | error fault =>
    rw [h] at hnumber
    exact congrArg Except.error (Except.error.inj hnumber)

theorem Value.nameless_asInteger (v : Value) : Nameless v.asInteger := by
  intro r
  have hnumber := v.nameless_asNumber r
  rw [asInteger]
  cases h : v.asNumber with
  | error fault =>
    rw [h] at hnumber
    exact congrArg Except.error (Except.error.inj hnumber)
  | ok x =>
    dsimp only
    split
    · rfl
    · split <;> rfl

theorem TermOp.nameless_apply (op : TermOp) (x y : Float) : Nameless (op.apply x y) := by
  intro r
  cases op with
  | mul => rfl
  | div =>
    rw [apply]
    split <;> rfl

theorem nameless_powerOf (base exponent : Float) : Nameless (powerOf base exponent) := by
  intro r
  rw [powerOf]
  split <;> rfl

/-! ## Evaluation -/

namespace Evaluation

/-- The second evaluation does with other names what the first one does. -/
abbrev Renames (r : String ↪ String) (x x' : Evaluation α) : Prop :=
  Mirrors (Log.rename r) (Fault.rename r) x x'

theorem renames_note (event : Event) : Renames r (note event) (note (event.rename r)) :=
  fun log => congrArg (EStateM.Result.ok ()) (log.rename_note r event).symm

theorem renames_lift (x : Except Fault α) :
    Renames r (lift x) (lift (x.mapError (Fault.rename r))) := by
  intro log
  cases x <;> rfl

theorem Nameless.renames {x : Except Fault α} (h : Nameless x) : Renames r (lift x) (lift x) := by
  have hx := renames_lift r x
  rwa [h r] at hx

theorem renames_yield (value : Value) : Renames r (yield value) (yield value) :=
  (renames_note r (.evaluated value)).bind fun _ => .pure value

/-- No number has a name, so operands are converted alike. -/
theorem renames_operands {x x' y y' : Evaluation Value} {convert : Value → Except Fault α}
    {f : α → α → Evaluation β} (hx : Renames r x x') (hy : Renames r y y')
    (hconvert : ∀ v, Nameless (convert v)) (hf : ∀ a b, Renames r (f a b) (f a b)) :
    Renames r (do
        let a ← x
        let a ← lift (convert a)
        let b ← y
        let b ← lift (convert b)
        f a b)
      (do
        let a ← x'
        let a ← lift (convert a)
        let b ← y'
        let b ← lift (convert b)
        f a b) :=
  hx.bind fun v => (Nameless.renames r (hconvert v)).bind fun _ => hy.bind fun w =>
    (Nameless.renames r (hconvert w)).bind fun _ => hf _ _

theorem renames_report (op : TermOp) (x y : Float) :
    Renames r (op.report x y) (op.report x y) := by
  cases op with
  | mul => exact .pure ()
  | div => exact .ite (renames_note r (.dividingByZero x)) (.pure ())

/-- An unbound variable is looked up under its new name and found unbound as well. -/
theorem renames_get (env : Environment) (name : String) :
    Renames r (lift (env.get name)) (lift ((env.rename r).get (r name))) := by
  rw [Environment.get, Environment.get, Environment.binding?_rename]
  cases env.binding? name with
  | some b => exact renames_lift r (.ok b.value)
  | none => exact renames_lift r (.error (.unbound name))

theorem renames_eval (env : Environment) (e : Expr) :
    Renames r (e.eval env) ((e.rename r).eval (env.rename r)) := by
  induction e with
  | number x => exact renames_yield r _
  | string text => exact renames_yield r _
  | identifier name =>
    exact (renames_note r (.lookingUp name)).bind fun _ => (renames_get r env name).bind
      fun value => renames_yield r value
  | group inner ih => exact ih.bind fun _ => renames_yield r _
  | disjunction left right ihl ihr | conjunction left right ihl ihr =>
    exact renames_operands r ihl ihr Value.nameless_isTruthy fun _ _ => renames_yield r _
  | comparison left op right ihl ihr | sum left op right ihl ihr =>
    exact renames_operands r ihl ihr Value.nameless_asNumber fun _ _ => renames_yield r _
  | term left op right ihl ihr =>
    refine renames_operands r ihl ihr Value.nameless_asNumber fun x y => ?_
    exact (renames_report r op x y).bind fun _ =>
      (Nameless.renames r (op.nameless_apply x y)).bind fun _ => renames_yield r _
  | power base exponent ihb ihe =>
    refine renames_operands r ihb ihe Value.nameless_asNumber fun b e => ?_
    exact (Nameless.renames r (nameless_powerOf b e)).bind fun _ => renames_yield r _
  | firstPower base ih =>
    refine ih.bind fun v => (Nameless.renames r v.nameless_asNumber).bind fun b => ?_
    exact (Nameless.renames r (nameless_powerOf b 1.0)).bind fun _ => renames_yield r _
  | negate operand ih =>
    exact ih.bind fun v => (Nameless.renames r v.nameless_asNumber).bind fun _ => renames_yield r _

end Evaluation

/-! ## States, tasks and orders with other names -/

/-- A function with every name replaced. -/
def Routine.rename (routine : Routine) : Routine :=
  ⟨routine.params.map r, renameEach (.all r) routine.body, r routine.result⟩

/-- A state whose variables and functions have other names, as have its reports. All else is as it
was. -/
def Machine.rename (m : Machine) : Machine :=
  { m with
    environment := m.environment.rename r
    routines := (m.routines.map (Routine.rename r)).rename r
    log := m.log.rename r }

/-- A task with every name replaced. -/
def Task.rename : Task → Task
  | program p => .program (p.rename (.all r))
  | declarations ds => .declarations (ds.map (Decl.rename (.all r)))
  | statement s => .statement (s.rename (.all r))
  | statements body => .statements (renameEach (.all r) body)
  | block body => .block (renameEach (.all r) body)
  | passes line name next stop body =>
    .passes line (r name) next stop (renameEach (.all r) body)
  | parameters line params values => .parameters line (params.map r) values
  | leave line name routine caller => .leave line (r name) (routine.rename r) (caller.rename r)
  | finish => .finish

/-- An order with names replaced. -/
def Order.rename (ρ : Renaming) : Order → Order
  | program p => .program (p.rename ρ)
  | statements body => .statements (renameEach ρ body)
  | statement s => .statement (s.rename ρ)

/-- Every name is replaced. -/
def Translation.renamed : Translation :=
  ⟨Machine.rename r, Failure.rename r, Task.rename r⟩

namespace Run

/-- From the state with other names, the second computation does what the first one does. -/
abbrev Renames (r : String ↪ String) (x x' : Run α) : Prop :=
  Mirrors (Machine.rename r) (Failure.rename r) x x'

/-! ## The steps -/

section steps

variable (settings : Settings) (line : Nat) (name : String)

theorem renames_note (event : Event) : Renames r (note event) (note (event.rename r)) := by
  intro m
  have hlog := m.log.rename_note r event
  exact congrArg (fun log => EStateM.Result.ok () { m.rename r with log }) hlog.symm

theorem renames_fail (fault : Fault) :
    Renames r (fail line fault : Run α) (fail line (fault.rename r)) :=
  fun _ => rfl

theorem renames_lift {x : Except Fault α} (h : Nameless x) :
    Renames r (lift line x) (lift line x) := by
  intro m
  have hx := h r
  cases x with
  | ok a => rfl
  | error fault =>
    have hfault : fault.rename r = fault := Except.error.inj hx
    exact congrArg (fun fault => EStateM.Result.error (Failure.mk fault line) (m.rename r))
      hfault.symm

theorem renames_evaluate (e : Expr) :
    Renames r (evaluate line e) (evaluate line (e.rename r)) := by
  intro m
  have heval : (e.rename r).eval (m.rename r).environment (m.rename r).log = _ :=
    Evaluation.renames_eval r m.environment e m.log
  rw [evaluate, evaluate, evaluation, evaluation, heval]
  cases e.eval m.environment m.log <;> rfl

theorem renames_integer (e : Expr) : Renames r (integer line e) (integer line (e.rename r)) :=
  (renames_evaluate r line e).bind fun v => renames_lift r line v.nameless_asInteger

theorem renames_condition (e : Expr) : Renames r (condition line e) (condition line (e.rename r)) :=
  (renames_evaluate r line e).bind fun v => renames_lift r line v.nameless_isTruthy

theorem renames_evaluateEach (args : List Expr) :
    Renames r (evaluateEach line args) (evaluateEach line (args.map (Expr.rename r))) := by
  induction args with
  | nil => exact .pure []
  | cons e rest ih => exact (renames_evaluate r line e).bind fun _ => ih.bind fun _ => .pure _

theorem renames_checkTag (value : Value) (tag : Option TypeTag) :
    Renames r (checkTag line name value tag) (checkTag line (r name) value tag) := by
  cases tag with
  | none => exact .pure ()
  | some tag => exact .ite (.pure ()) (renames_note r (.tagMismatch line name tag value.type))

theorem renames_set (value : Value) :
    Renames r (modify fun m => { m with environment := m.environment.set name value })
      (modify fun m => { m with environment := m.environment.set (r name) value }) := by
  intro m
  have hset := m.environment.rename_set r name value
  exact congrArg (fun environment => EStateM.Result.ok () { m.rename r with environment }) hset.symm

/-- A constant is a constant under its new name, so it is refused under that name. -/
theorem renames_bind (value : Value) :
    Renames r (bind settings line name value) (bind settings line (r name) value) := by
  refine .ite (fun m => ?_) (renames_set r name value)
  have hrenamed : (m.rename r).environment.isConstant (r name) = m.environment.isConstant name :=
    m.environment.isConstant_rename r name
  cases h : m.environment.isConstant name with
  | true =>
    rw [bind_error (write_of_constant line h value),
      bind_error (write_of_constant line (hrenamed.trans h) value)]
    exact congrArg (fun log => EStateM.Result.error _ { m.rename r with log })
      (m.log.rename_note r (.constantKept name)).symm
  | false =>
    rw [bind_ok (write_of_free line h value),
      bind_ok (write_of_free line (hrenamed.trans h) value)]
    exact renames_set r name value m

theorem renames_write (text : String) : Renames r (write line text) (write line text) := by
  intro m
  have houtput : (m.rename r).output = m.output := rfl
  simp only [write, houtput]
  split <;> rfl

theorem renames_readLine : Renames r (readLine line) (readLine line) := by
  intro m
  have hinput : (m.rename r).input = m.input := rfl
  rw [readLine, readLine, hinput]
  cases m.input.next? with
  | none => rfl
  | some next =>
    dsimp only
    split <;> rfl

theorem renames_readNumber (prompt : String) :
    Renames r (readNumber line prompt) (readNumber line prompt) := by
  unfold readNumber
  dsimp only
  -- with or without a prompt, the line is read in the same way
  refine .ite ((renames_write r line _).bind fun _ => ?_) ?_
  all_goals
    refine (renames_readLine r line).bind fun text => ?_
    cases Number.ofString? (Text.trim text) with
    | some x => exact (renames_note r (.inputRead x)).bind fun _ => .pure x
    | none => exact renames_fail r line (.inputNotNumber _)

theorem renames_draw (least greatest : Int) :
    Renames r (draw least greatest) (draw least greatest) :=
  fun _ => rfl

theorem renames_returned (routine : Routine) :
    Renames r (returned routine) (returned (routine.rename r)) := by
  intro m
  rw [returned_eq, returned_eq]
  have hvalue : (routine.rename r).value (m.rename r).environment =
      routine.value m.environment := by
    have hfound := m.environment.binding?_rename r routine.result
    rw [Routine.value, Routine.value, Environment.get, Environment.get,
      show (m.rename r).environment.binding? (routine.rename r).result = _ from hfound]
    cases m.environment.binding? routine.result <;> rfl
  rw [hvalue]
  rfl

end steps

/-! ## What statements are made of -/

section parts

variable (settings : Settings) (line : Nat) (name : String)

theorem renames_print (value : Expr) :
    Renames r (print line value) (print line (value.rename r)) :=
  (renames_evaluate r line value).bind fun v => (renames_write r line _).bind fun _ =>
    renames_note r (.printed v)

theorem renames_assign (value : Expr) (tag : Option TypeTag) :
    Renames r (assign settings line name value tag)
      (assign settings line (r name) (value.rename r) tag) := by
  refine (renames_evaluate r line value).bind fun v => ?_
  refine (renames_checkTag r line name v tag).bind fun _ => ?_
  exact (renames_note r (.assigning name v)).bind fun _ => renames_bind r settings line name v

theorem renames_readInto (prompt : String) :
    Renames r (readInto settings line name prompt) (readInto settings line (r name) prompt) :=
  (renames_readNumber r line prompt).bind fun _ => renames_bind r settings line name _

theorem renames_drawInto (least greatest : Expr) :
    Renames r (drawInto settings line name least greatest)
      (drawInto settings line (r name) (least.rename r) (greatest.rename r)) := by
  refine (renames_integer r line least).bind fun l => ?_
  refine (renames_integer r line greatest).bind fun g => ?_
  refine .ite (renames_fail r line (.invalidRange l g)) ((renames_draw r l g).bind fun drawn => ?_)
  exact (renames_note r (.drew name drawn l g)).bind fun _ => renames_bind r settings line name _

theorem renames_define (routine : Routine) :
    Renames r (define name routine) (define (r name) (routine.rename r)) := by
  refine .get fun m => ?_
  have hput : ({ m.rename r with
        routines := (m.rename r).routines.put (r name) (routine.rename r) } : Machine) =
      Machine.rename r { m with routines := m.routines.put name routine } := by
    simp only [Machine.rename, Table.map_put, Table.rename_put]
  have hcontains : (m.rename r).routines.contains (r name) = m.routines.contains name :=
    (Table.contains_rename r _ name).trans (Table.contains_map ..)
  have hparams : (routine.rename r).params.length = routine.params.length := List.length_map ..
  rw [hput, hcontains, hparams]
  refine (Mirrors.set _).bind fun _ => .ite (renames_note r (.functionRedefined name)) ?_
  exact renames_note r (.functionDefined name _)

theorem renames_declare (d : Decl) :
    Renames r (declare settings d) (declare settings (d.rename (.all r))) := by
  cases d with
  | program _ name => exact (renames_note r (.programName name)).bind fun _ => .modify fun _ => rfl
  | author _ name => exact (renames_note r (.programAuthor name)).bind fun _ => .modify fun _ => rfl
  | date _ text => exact (renames_note r (.programDate text)).bind fun _ => .modify fun _ => rfl
  | const line name e =>
    refine (renames_evaluate r line e).bind fun value => .get fun m => ?_
    rw [show (m.rename r).environment.isConstant ((Renaming.all r).bindings name) = _ from
      m.environment.isConstant_rename r name]
    refine .ite (renames_fail r line (.constant name)) ?_
    refine (renames_note r (.constantDefined name value)).bind fun _ m => ?_
    exact congrArg (fun environment => EStateM.Result.ok () { m.rename r with environment })
      (m.environment.rename_defineConstant r name value).symm

end parts

end Run

/-! ## Tasks -/

namespace Translation

open Run

variable (settings : Settings)

/-- A function is found under its new name, and its parameters are as many as they were. -/
theorem renamed_begin (line : Nat) (name : String) (args : List Expr) :
    (renamed r).Begins (Run.begin settings line name args)
      (Run.begin settings line (r name) (args.map (Expr.rename r))) := by
  refine .get fun m => ?_
  have hfind : (m.rename r).routines.get? (r name) =
      (m.routines.get? name).map (Routine.rename r) :=
    (Table.get?_rename r _ name).trans (Table.get?_map ..)
  rw [show ((renamed r).machine m).routines.get? (r name) = _ from hfind]
  cases m.routines.get? name with
  | none => exact .fail rfl
  | some routine =>
    have hparams : (routine.rename r).params.length = routine.params.length := List.length_map ..
    simp only [Option.map_some, List.length_map, hparams]
    refine .ite (.fail rfl) (.bind (renames_evaluateEach r line args) fun values => ?_)
    refine .ite (.fail rfl) (.bind (renames_note r (.calling name m.depth)) fun _ => ?_)
    exact .bind (.modify fun _ => rfl) fun _ => .pure _

theorem renamed_statement (s : Stmt) :
    (renamed r).Begins (s.begin settings) ((s.rename (.all r)).begin settings) := by
  cases s with
  | assign line name value tag =>
    exact .bind (renames_note r (.executing line)) fun _ =>
      .bind (renames_assign r settings line name value tag) fun _ => .pure _
  | print line value =>
    exact .bind (renames_note r (.executing line)) fun _ =>
      .bind (renames_print r line value) fun _ => .pure _
  | input line name prompt =>
    exact .bind (renames_note r (.executing line)) fun _ =>
      .bind (renames_readInto r settings line name prompt) fun _ => .pure _
  | branch line condition thenBody elseBody =>
    refine .bind (renames_note r (.executing line)) fun _ => ?_
    refine .bind (renames_condition r line condition) fun truthy => ?_
    refine .bind (renames_note r (.branching truthy)) fun _ => ?_
    cases truthy <;> exact .pure _
  | loop line name start stop body =>
    refine .bind (renames_note r (.executing line)) fun _ => ?_
    refine .bind (renames_integer r line start) fun start => ?_
    refine .bind (renames_integer r line stop) fun stop => ?_
    exact .bind (renames_note r (.looping name start stop)) fun _ => .pure _
  | rand line name least greatest =>
    exact .bind (renames_note r (.executing line)) fun _ =>
      .bind (renames_drawInto r settings line name least greatest) fun _ => .pure _
  | define line name params body result =>
    exact .bind (renames_note r (.executing line)) fun _ =>
      .bind (renames_define r name ⟨params, body, result⟩) fun _ => .pure _
  | call line name args =>
    exact .bind (renames_note r (.executing line)) fun _ => renamed_begin r settings line name args

/-- Every task begins with other names as it does with its own. -/
theorem renamed_perform (task : Task) :
    (renamed r).Begins (task.perform settings) ((task.rename r).perform settings) := by
  cases task with
  | program p =>
    have hlengths : (p.rename (.all r)).declarations.length = p.declarations.length ∧
        (p.rename (.all r)).statements.length = p.statements.length :=
      ⟨List.length_map .., length_renameEach ..⟩
    rw [Task.rename, Task.perform, Task.perform, hlengths.1, hlengths.2]
    exact .bind (renames_note r (.running _ _)) fun _ => .pure _
  | declarations ds =>
    cases ds with
    | nil => exact .pure _
    | cons d rest => exact .bind (renames_declare r settings d) fun _ => .pure _
  | statement s => exact renamed_statement r settings s
  | statements body => cases body <;> exact .pure _
  | block body =>
    rw [Task.rename, Task.perform, Task.perform, length_renameEach]
    exact .bind (renames_note r (.interpreting _)) fun _ => .pure _
  | passes line name next stop body =>
    exact .ite (.bind (renames_bind r settings line name _) fun _ => .pure _) (.pure _)
  | parameters line params values =>
    cases params with
    | nil => exact .pure _
    | cons param params =>
      cases values with
      | nil => exact .pure _
      | cons value values =>
        exact .bind (renames_note r (.bindingParameter param value)) fun _ =>
          .bind (renames_bind r settings line param value) fun _ => .pure _
  | leave line name routine caller =>
    exact .bind (renames_returned r routine) fun value => .bind (fun _ => rfl) fun _ =>
      .bind (renames_note r (.returned name value)) fun _ =>
        .bind (renames_bind r settings line name value) fun _ => .pure _
  | finish =>
    refine .get fun m => ?_
    rw [show ((renamed r).machine m).environment.size = m.environment.size from
      Table.size_rename ..]
    exact .bind (renames_note r (.finished m.environment.size)) fun _ => .pure _

theorem renamed_faithful : (renamed r).Faithful settings where
  perform := renamed_perform r settings
  giveUp task m := by cases task <;> rfl

end Translation

theorem Order.task_rename (order : Order) : (order.rename (.all r)).task = order.task.rename r := by
  cases order <;> rfl

/-- The names in an order that are not given to functions. -/
def Order.boundNames : Order → List String
  | program p => p.boundNames
  | statements body => boundNamesOfEach body
  | statement s => s.boundNames

/-- If the variables of an order have kept their names, only its functions have other ones. -/
theorem Order.rename_onlyRoutines {order : Order} {r : String → String}
    (h : ∀ name ∈ order.boundNames, r name = name) :
    order.rename (.all r) = order.rename (.onlyRoutines r) := by
  cases order with
  | program p => exact congrArg program (p.rename_congr h)
  | statements body => exact congrArg statements (renameEach_congr body h)
  | statement s => exact congrArg statement (s.rename_congr h)

/-- A result in a state with other names, with the name that a failure carries replaced. -/
abbrev renamedResult (r : String ↪ String) :
    EStateM.Result Failure Machine Unit → EStateM.Result Failure Machine Unit :=
  (Translation.renamed r).result

/-- A run starts without names. -/
theorem Machine.rename_initial (settings : Settings) (entropy : UInt64) (input : Input)
    (output : Output) (log : Log) :
    (Machine.initial settings entropy input output log).rename r =
      .initial settings entropy input output (log.rename r) :=
  congrArg (fun log => { Machine.initial settings entropy input output log with log })
    (log.rename_note r (.started settings))

/-- Names have no influence on a session but by being the same or not. If every name of the orders
and of the state is replaced, different names by different ones, every order ends as before: with
the same program information, random numbers, input, output and depth, with success where it
succeeded, and with the same fault of the same line where it failed; the names in the environment,
in the table of functions and in the fault are the new ones. So it is after every single step. An
interpreter that starts knows no names, so with a seed two sessions start alike. If the variables of
the orders keep their names, it is enough to rename functions where they are defined and called: all
that changes beside the table of functions are the names that the results of calls are bound to. -/
theorem names_change_nothing (settings : Settings) (r : String ↪ String) :
    (∀ orders m, outcomes settings (orders.map (Order.rename (.all r))) (m.rename r) =
      (outcomes settings orders m).map (renamedResult r)) ∧
    (∀ c : Config, ((Translation.renamed r).config c).step settings =
      (c.step settings).map (Translation.renamed r).config) ∧
    (settings.seed.isSome → ∀ orders entropy entropy' input output threshold,
      outcomes settings (orders.map (Order.rename (.all r)))
          (.initial settings entropy' input output ⟨threshold, []⟩) =
        (outcomes settings orders (.initial settings entropy input output ⟨threshold, []⟩)).map
          (renamedResult r)) ∧
    ∀ orders m, (∀ order ∈ orders, ∀ name ∈ order.boundNames, r name = name) →
      outcomes settings (orders.map (Order.rename (.onlyRoutines r))) (m.rename r) =
        (outcomes settings orders m).map (renamedResult r) := by
  have hfaithful := Translation.renamed_faithful r settings
  have hall (orders : List Order) (m : Machine) :
      outcomes settings (orders.map (Order.rename (.all r))) (m.rename r) =
        (outcomes settings orders m).map (renamedResult r) :=
    hfaithful.outcomes (Order.task_rename r) orders m
  refine ⟨hall, hfaithful.step, ?_, ?_⟩
  · intro hseed orders entropy entropy' input output threshold
    obtain ⟨seed, hseed⟩ := Option.isSome_iff_exists.mp hseed
    have hstart : Machine.initial settings entropy' input output ⟨threshold, []⟩ =
        (Machine.initial settings entropy input output ⟨threshold, []⟩).rename r := by
      rw [Machine.rename_initial, Machine.initial, Machine.initial, hseed]
      rfl
    rw [hstart, hall]
  · intro orders m hfixed
    have hsame : orders.map (Order.rename (.onlyRoutines r)) =
        orders.map (Order.rename (.all r)) :=
      List.map_congr_left fun order horder => (Order.rename_onlyRoutines (hfixed order horder)).symm
    rw [hsame, hall]

/-- A function gets another name. A call with a missing argument fails as before, with the new name
in its fault. -/
theorem renamed_function_fails_alike :
    let r : String ↪ String := (Equiv.swap "f" "g").toEmbedding
    let settings : Settings := { seed := some 7 }
    let orders : List Order :=
      [.statement (.define 1 "f" ["x"] [] "x"), .statement (.call 3 "f" [])]
    let m (entropy : UInt64) : Machine := .initial settings entropy ⟨[]⟩ .unlimited .off
    (∃ m', (outcomes settings (orders.map (Order.rename (.onlyRoutines r))) (m 0))[1]? =
      some (.error ⟨.arity "g" 1 0, 3⟩ m')) ∧
    ∃ m', (outcomes settings (orders.map (Order.rename (.all r))) (m 1))[1]? =
      some (.error ⟨.arity "g" 1 0, 3⟩ m') := by
  intro r settings orders m
  obtain ⟨-, -, hseeded, hroutines⟩ := names_change_nothing settings r
  have hrun : ∃ m', (outcomes settings orders (m 0))[1]? =
      some (.error ⟨.arity "f" 1 0, 3⟩ m') := ⟨_, rfl⟩
  obtain ⟨m', hrun⟩ := hrun
  have hfixed : ∀ order ∈ orders, ∀ name ∈ order.boundNames, r name = name := by decide
  refine ⟨⟨m'.rename r, ?_⟩, m'.rename r, ?_⟩
  · have hsame := hroutines orders (m 0) hfixed
    rw [show (m 0).rename r = m 0 from rfl] at hsame
    rw [hsame, List.getElem?_map]
    exact congrArg (Option.map (renamedResult r)) hrun
  · have hsame : outcomes settings (orders.map (Order.rename (.all r))) (m 1) = _ :=
      hseeded rfl orders 0 1 ⟨[]⟩ .unlimited none
    rw [hsame, List.getElem?_map]
    exact congrArg (Option.map (renamedResult r)) hrun

end DivisionScript
