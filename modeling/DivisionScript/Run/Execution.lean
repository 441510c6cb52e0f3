import DivisionScript.Run.Machine

/-!
# Run — Execution

What statements, declarations and programs do to the state of a run. Statements are read by
structural recursion; the only other way down is a call, and how many calls may still be entered is
counted down, so every run ends.
-/

namespace DivisionScript

/-- How the body of a function is run, one call further down; `none` when no more calls may be in
progress. -/
abbrev Descent := Option (List Stmt → Run Unit)

namespace Run

/-- Warns when a value is not of the type that an assignment is tagged with. -/
def checkTag (line : Nat) (name : String) (value : Value) : Option TypeTag → Run Unit
  | none => pure ()
  | some tag =>
    if value.type = tag then pure () else note (.tagMismatch line name tag value.type)

/-- Writes the value of an expression to a name. -/
def assign (settings : Settings) (line : Nat) (name : String) (value : Expr)
    (tag : Option TypeTag) : Run Unit := do
  let value ← evaluate line value
  checkTag line name value tag
  note (.assigning name value)
  bind settings line name value

/-- Prints the value of an expression. -/
def print (line : Nat) (value : Expr) : Run Unit := do
  let value ← evaluate line value
  printLine line value

/-- Reads a number and writes it to a name. -/
def readInto (settings : Settings) (line : Nat) (name prompt : String) : Run Unit := do
  let x ← readNumber line prompt
  bind settings line name (.number x)

/-- Runs the statements of a list, announced by how many they are. -/
def announced (statements : List Stmt) (act : Run Unit) : Run Unit := do
  note (.interpreting statements.length)
  act

/-- Does something with each of `count` whole numbers in turn, from `start` on. -/
def forEachFrom (act : Int → Run Unit) : (count : Nat) → (start : Int) → Run Unit
  | 0, _ => pure ()
  | count + 1, start => do
    act start
    forEachFrom act count (start + 1)

/-- Does something with each whole number from `start` to `stop`. -/
def forRange (start stop : Int) (act : Int → Run Unit) : Run Unit :=
  forEachFrom act (stop - start + 1).toNat start

/-- The values of the arguments of a call, from left to right. -/
def evaluateEach (line : Nat) : List Expr → Run (List Value)
  | [] => pure []
  | e :: rest => do
    let value ← evaluate line e
    let values ← evaluateEach line rest
    pure (value :: values)

/-- Writes the arguments of a call to the parameters of the function. -/
def bindEach (settings : Settings) (line : Nat) : List String → List Value → Run Unit
  | param :: params, value :: values => do
    note (.bindingParameter param value)
    bind settings line param value
    bindEach settings line params values
  | _, _ => pure ()

/-- What a call returns: the value of the function's result, zero if it has none. -/
def returned (routine : Routine) : Run Value := do
  let m ← get
  match m.environment.get routine.result with
  | .ok value => pure value
  | .error _ => pure (.number 0.0)

/-- Runs the body of a function on the live environment with the parameters written to it. The
environment is put back afterwards. -/
def activate (settings : Settings) (line : Nat) (routine : Routine) (values : List Value)
    (enter : List Stmt → Run Unit) : Run Value := fun before =>
  let leave := fun after : Machine =>
    { after with environment := before.environment, depth := before.depth }
  let body : Run Value := do
    bindEach settings line routine.params values
    enter routine.body
    returned routine
  leaving leave body { before with depth := before.depth + 1 }

/-- A call: the function has to exist, then the number of arguments has to fit, then the arguments
are evaluated, and only then is the depth of the call looked at. -/
def call (settings : Settings) (descent : Descent) (line : Nat) (name : String)
    (args : List Expr) : Run Unit := do
  let m ← get
  match m.routines.get? name with
  | none => fail line (.undefinedFunction name)
  | some routine =>
    if args.length ≠ routine.params.length then
      fail line (.arity name routine.params.length args.length)
    else
      let values ← evaluateEach line args
      match descent with
      | none => fail line (.callDepth settings.maxCallDepth.toNat)
      | some enter =>
        note (.calling name m.depth)
        let value ← activate settings line routine values enter
        note (.returned name value)
        bind settings line name value

/-- Adds a function to the table, or replaces the one of its name. -/
def define (name : String) (routine : Routine) : Run Unit := do
  let m ← get
  set { m with routines := m.routines.put name routine }
  if m.routines.contains name then
    note (.functionRedefined name)
  else
    note (.functionDefined name routine.params.length)

/-- Takes a random number between the values of two expressions and writes it to a name. -/
def drawInto (settings : Settings) (line : Nat) (name : String) (least greatest : Expr) :
    Run Unit := do
  let least ← integer line least
  let greatest ← integer line greatest
  if least > greatest then
    fail line (.invalidRange least greatest)
  else
    let drawn ← draw least greatest
    note (.drew name drawn least greatest)
    bind settings line name (.number (Number.ofWhole drawn))

end Run

open Run

mutual

/-- Runs a statement. -/
def Stmt.execute (settings : Settings) (descent : Descent) : Stmt → Run Unit
  | .assign line name value tag => do
    note (.executing line)
    Run.assign settings line name value tag
  | .print line value => do
    note (.executing line)
    Run.print line value
  | .input line name prompt => do
    note (.executing line)
    readInto settings line name prompt
  | .branch line condition thenBody elseBody => do
    note (.executing line)
    let truthy ← Run.condition line condition
    note (.branching truthy)
    if truthy then
      announced thenBody (executeEach settings descent thenBody)
    else
      announced elseBody (executeEach settings descent elseBody)
  | .loop line name start stop body => do
    note (.executing line)
    let start ← integer line start
    let stop ← integer line stop
    note (.looping name start stop)
    forRange start stop fun i => do
      bind settings line name (.number (Number.ofWhole i))
      announced body (executeEach settings descent body)
  | .rand line name least greatest => do
    note (.executing line)
    drawInto settings line name least greatest
  | .define line name params body result => do
    note (.executing line)
    Run.define name ⟨params, body, result⟩
  | .call line name args => do
    note (.executing line)
    Run.call settings descent line name args

/-- Runs statements one after another. -/
def executeEach (settings : Settings) (descent : Descent) : List Stmt → Run Unit
  | [] => pure ()
  | s :: rest => do
    s.execute settings descent
    executeEach settings descent rest

end

/-- Runs the statements of a body. -/
def executeBody (settings : Settings) (descent : Descent) (body : List Stmt) : Run Unit :=
  announced body (executeEach settings descent body)

/-- How bodies of functions are run when `levels` more calls may be entered. -/
def descent (settings : Settings) : (levels : Nat) → Descent
  | 0 => none
  | levels + 1 => some fun body m => executeBody settings (descent settings levels) body m

/-- How many more calls may be entered in a state. -/
def Machine.levels (settings : Settings) (m : Machine) : Nat :=
  settings.maxCallDepth.toNat - m.depth

namespace Run

/-- Runs a single statement. -/
def statement (settings : Settings) (s : Stmt) : Run Unit := do
  let m ← get
  s.execute settings (descent settings (m.levels settings))

/-- Runs a list of statements. -/
def statements (settings : Settings) (body : List Stmt) : Run Unit := do
  let m ← get
  executeBody settings (descent settings (m.levels settings)) body

/-- Writes a constant. It has to be new where constants are enforced. -/
def defineConstant (settings : Settings) (line : Nat) (name : String) (value : Value) :
    Run Unit := do
  let m ← get
  if settings.enforceConstants && m.environment.isConstant name then
    fail line (.constant name)
  else
    note (.constantDefined name value)
    modify fun m => { m with environment := m.environment.defineConstant name value }

/-- Carries out a declaration. -/
def declare (settings : Settings) : Decl → Run Unit
  | .program _ name => do
    note (.programName name)
    modify fun m => { m with info := { m.info with name := some name } }
  | .author _ name => do
    note (.programAuthor name)
    modify fun m => { m with info := { m.info with author := some name } }
  | .date _ text => do
    note (.programDate text)
    modify fun m => { m with info := { m.info with date := some text } }
  | .const line name value => do
    let value ← evaluate line value
    defineConstant settings line name value

/-- Carries out declarations one after another. -/
def declareEach (settings : Settings) : List Decl → Run Unit
  | [] => pure ()
  | d :: rest => do
    declare settings d
    declareEach settings rest

/-- Runs a program: its declarations, then its statements. -/
def program (settings : Settings) (p : Program) : Run Unit := do
  note (.running p.declarations.length p.statements.length)
  declareEach settings p.declarations
  statements settings p.statements
  let m ← get
  note (.finished m.environment.size)

end Run

end DivisionScript
