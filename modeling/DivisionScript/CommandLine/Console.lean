import DivisionScript.CommandLine.Files
import DivisionScript.Program.Outline
import DivisionScript.Program.Structure
import DivisionScript.Run.Execution
import DivisionScript.Source

/-!
# Command line — Console

Programs that are run from the command line. All of them read the same input and write the same two
outputs; beyond that each run starts anew.
-/

namespace DivisionScript.CommandLine

/-- What commands read from and write to. -/
structure Console where
  input : Input
  output : Output
  errors : String
  log : Log
  /-- The time at which the log began, in milliseconds. -/
  clock : Nat
  /-- Where a program without a seed takes its random numbers from. -/
  entropy : UInt64

/-- How a command ends. -/
inductive Ending where
  | success
  /-- A trouble outside the text of a program. -/
  | trouble
  /-- The command line asks for nothing that can be told. -/
  | usage
  /-- The text of a program is wrong. -/
  | badSource
  /-- A run fails. -/
  | badRun
deriving DecidableEq, Repr

/-- The exit status of an ending. -/
def Ending.status : Ending → UInt8
  | success => 0
  | trouble => 1
  | usage => 2
  | badSource => 65
  | badRun => 70

namespace Console

/-- The text of the log file so far, if there is one. -/
def logText? (c : Console) : Option String :=
  c.log.threshold.map fun _ => LogFile.text c.clock c.log.events

/-- Writes to the first output. -/
def display (c : Console) (text : String) : Console :=
  { c with output := (c.output.write text).1 }

/-- Writes a line to the second output. -/
def complain (c : Console) (text : String) : Console :=
  { c with errors := c.errors ++ text ++ "\n" }

/-- Ends with a trouble. -/
def stop (c : Console) (t : Trouble) : Console × Ending :=
  ({ c with errors := c.errors ++ t.report }, .trouble)

/-- What a run has left of the console. -/
def after (c : Console) (m : Machine) : Console :=
  { c with input := m.input, output := m.output, log := m.log }

/-- Lists the items of a text: tokens on the first output, errors on the second. -/
def list (c : Console) (ending : Ending) : List Item → Console × Ending
  | [] => (c, ending)
  | .ok t :: items => (c.display (t.listing ++ "\n")).list ending items
  | .error e :: items => (c.complain (SourceError.lexical e).message).list .badSource items

/-- Lists the items of a text; an error among them is the ending. -/
def tokenize (c : Console) (source : String) : Console × Ending :=
  let items := Source.items source
  { c with log := c.log.noteAll items.events }.list .success items.result

/-- Shows the program that a text spells, as an outline or as JSON. -/
def parse (c : Console) (json : Bool) (source : String) : Console × Ending :=
  let parsed := Source.program source
  let c := { c with log := c.log.noteAll parsed.events }
  match parsed.result with
  | .ok p =>
    (c.display (if json then p.toJson.spread ++ "\n" else String.ofList p.outline), .success)
  | .error e => (c.complain e.message, .badSource)

/-- Runs the program that a text spells. -/
def run (c : Console) (settings : Settings) (source : String) : Console × Ending :=
  let parsed := Source.program source
  let c := { c with log := c.log.noteAll parsed.events }
  match parsed.result with
  | .error e => (c.complain e.message, .badSource)
  | .ok p =>
    let start := Machine.initial settings c.entropy c.input c.output c.log
    match Run.program settings p start with
    | .ok _ m => (c.after m, .success)
    | .error failure m => ((c.after m).complain failure.message, .badRun)

end Console

/-- What a line at the prompt asks for. -/
inductive PromptLine where
  | nothing
  | leave
  /-- Run the program of a file. -/
  | load (name : String)
  /-- Run the line itself. -/
  | source (text : String)
deriving DecidableEq, Repr

/-- What a line at the prompt asks for, whatever white space is around it. -/
def PromptLine.of (line : String) : PromptLine :=
  match Text.trimChars line.toList with
  | [] => .nothing
  | 'r' :: 'u' :: 'n' :: ' ' :: name => .load (Text.trim (String.ofList name))
  | cs =>
    let text := String.ofList cs
    if text = "exit" ∨ text = "quit" then .leave else .source text

/-- What a command sees of the world. -/
structure World (m : Type → Type) where
  /-- What opening a path leads to once the log file, if there is one, holds the given text. -/
  openPath : (log : Option String) → (path : String) → m Opened
  /-- All that standard input holds. -/
  input : m (List UInt8)
  entropy : m UInt64
  /-- The time of day, in milliseconds. -/
  clock : m Nat

/-- The world of a command that starts at midnight in a directory. -/
def World.ofTree (tree : FileTree) (input : List UInt8) : World Id where
  openPath log := (tree.withLog log).openPath
  input := input
  entropy := 0
  clock := 0

namespace Console

/-- Opens a file, which may be the log file itself: it holds all that has been reported so far. -/
def openPath {m : Type → Type} (w : World m) (c : Console) (path : String) : m Opened :=
  w.openPath c.logText? path

/-- The console with new random numbers for the next program. -/
def renewed (c : Console) : Console :=
  { c with entropy := Random.Generator.nextSeed c.entropy }

/-- Asks for lines and runs each, until one asks to leave or the input ends. Every question takes a
line of the input, so one more than it has are enough `lines`. A program that fails does not end the
session. -/
def repl {m : Type → Type} [Monad m] (w : World m) (settings : Settings) :
    (lines : Nat) → Console → m (Console × Ending)
  | 0, c => pure (c.display "$ ", .success)
  | lines + 1, c => do
    let c := c.display "$ "
    match c.input.next? with
    | none => pure (c, .success)
    | some (bytes, input) =>
      let c := { c with input }.renewed
      match Input.lineText? bytes with
      | none => pure (c.stop .inputNotText)
      | some line =>
        match PromptLine.of line with
        | .nothing => c.repl w settings lines
        | .leave => pure (c, .success)
        | .source text => (c.run settings text).1.repl w settings lines
        | .load name =>
          let path := joinPath settings.programDir name
          match (← c.openPath w path).source path with
          | .error t => (c.complain t.summary).repl w settings lines
          | .ok text => (c.run settings text).1.repl w settings lines

end Console

end DivisionScript.CommandLine
