import DivisionScript.Log.Event
import DivisionScript.Random.Generator
import DivisionScript.Run.Channel
import DivisionScript.Run.Environment
import DivisionScript.Run.Evaluation

/-!
# Run — Machine

The state that a run changes, and the small steps on it that statements are made of: evaluating an
expression, writing a name, printing, and reading a number. A step that fails keeps what it has
changed so far, since what was printed and read before a failure stays printed and read.
-/

namespace DivisionScript

/-- Writes a name unless it is a constant, which is reported. -/
def Environment.write (env : Environment) (name : String) (value : Value) :
    Evaluation Environment :=
  match env.assign name value with
  | .ok env => pure env
  | .error fault => do
    Evaluation.note (.constantKept name)
    throw fault

/-- A function of a program: its parameters, its body and the name whose value it returns. -/
structure Routine where
  params : List String
  body : List Stmt
  result : String

/-- What the declarations of a program say about it. -/
structure ProgramInfo where
  name : Option String := none
  author : Option String := none
  date : Option String := none
deriving DecidableEq, Repr

/-- The state of a run. -/
structure Machine where
  environment : Environment
  routines : Table Routine
  info : ProgramInfo
  generator : Random.Generator
  /-- How many calls are in progress. -/
  depth : Nat
  input : Input
  output : Output
  log : Log

/-- A computation that changes the state of a run and may fail. -/
abbrev Run (α : Type) := EStateM Failure Machine α

namespace Machine

/-- The state before anything has run. Without a seed in the settings, the random numbers come from
`entropy`. -/
def initial (settings : Settings) (entropy : UInt64) (input : Input) (output : Output)
    (log : Log) : Machine where
  environment := .empty
  routines := .empty
  info := {}
  generator := .ofSeed (settings.seed.getD entropy)
  depth := 0
  input := input
  output := output
  log := log.note (.started settings)

end Machine

namespace Run

/-- Reports. -/
def note (event : Event) : Run Unit :=
  modify fun m => { m with log := m.log.note event }

/-- Fails with a fault of the given line. -/
def fail {α : Type} (line : Nat) (fault : Fault) : Run α :=
  throw ⟨fault, line⟩

/-- A result that needs no state. -/
def lift {α : Type} (line : Nat) : Except Fault α → Run α
  | .ok a => pure a
  | .error fault => fail line fault

/-- The result of an evaluation in the present environment, with its reports. -/
def evaluation {α : Type} (line : Nat) (act : Environment → Evaluation α) : Run α := fun m =>
  match act m.environment m.log with
  | .ok a log => .ok a { m with log }
  | .error fault log => .error ⟨fault, line⟩ { m with log }

/-- The value of an expression. -/
def evaluate (line : Nat) (e : Expr) : Run Value :=
  evaluation line fun env => e.eval env

/-- The whole number that an expression denotes. -/
def integer (line : Nat) (e : Expr) : Run Int := do
  let value ← evaluate line e
  lift line value.asInteger

/-- Whether an expression is true. -/
def condition (line : Nat) (e : Expr) : Run Bool := do
  let value ← evaluate line e
  lift line value.isTruthy

/-- Writes a name; the settings say whether a constant is refused or overwritten. -/
def bind (settings : Settings) (line : Nat) (name : String) (value : Value) : Run Unit := do
  if settings.enforceConstants then
    let environment ← evaluation line fun env => env.write name value
    modify fun m => { m with environment }
  else
    modify fun m => { m with environment := m.environment.set name value }

/-- Writes a text to the output. -/
def write (line : Nat) (text : String) : Run Unit := fun m =>
  let (output, fits) := m.output.write text
  if fits then .ok () { m with output } else .error ⟨.outputFull, line⟩ { m with output }

/-- Prints a value on a line of its own. -/
def printLine (line : Nat) (value : Value) : Run Unit := do
  write line (value.text ++ "\n")
  note (.printed value)

/-- Takes one line of the input. A line that is not text is taken all the same. -/
def readLine (line : Nat) : Run String := fun m =>
  match m.input.next? with
  | none => .error ⟨.endOfInput, line⟩ m
  | some (bytes, input) =>
    match Input.lineText? bytes with
    | some text => .ok text { m with input }
    | none => .error ⟨.inputNotText, line⟩ { m with input }

/-- Shows a prompt, unless it is empty, and reads a number from one line of the input. -/
def readNumber (line : Nat) (prompt : String) : Run Float := do
  if prompt ≠ "" then
    write line (prompt ++ ": ")
  let text := Text.trim (← readLine line)
  match Number.ofString? text with
  | some x =>
    note (.inputRead x)
    pure x
  | none => fail line (.inputNotNumber text)

/-- Takes a random number between two bounds. -/
def draw (least greatest : Int) : Run Int := fun m =>
  let (n, generator) := m.generator.draw least greatest
  .ok n { m with generator }

/-- Runs `act`, and whether or not it succeeds, applies `leave` to the state that it leaves. -/
def leaving {α : Type} (leave : Machine → Machine) (act : Run α) : Run α := fun m =>
  match act m with
  | .ok a m' => .ok a (leave m')
  | .error failure m' => .error failure (leave m')

end Run

end DivisionScript
