import DivisionScript.CommandLine.Arguments
import DivisionScript.CommandLine.Console
import DivisionScript.Settings.Reading

/-!
# Command line — Command

A whole command, from its arguments to its exit status. The arguments come first, then the log, then
the settings, then the subcommand; the first of them that fails ends the command.
-/

namespace DivisionScript.CommandLine

/-- What a command leaves behind. -/
structure Outcome where
  ending : Ending
  output : ByteArray
  errors : String
  /-- The text of the log file, if there is one. -/
  log : Option String

/-- The name and the number of the program. -/
def versionText : String :=
  "skeptical 0.1.0\n"

/-- How the command line is written. -/
def usageText : String :=
  "Usage: skeptical [OPTIONS] <COMMAND>\n\n" ++
  "Commands:\n" ++
  "  tokenize <FILENAME>        List the tokens of a program\n" ++
  "  parse [--json] <FILENAME>  Show the tree of a program\n" ++
  "  run <FILENAME>             Run a program\n" ++
  "  repl                       Run programs from a prompt\n\n" ++
  "Options:\n" ++
  "  --log                      Write a log to skeptical.log\n" ++
  "  --config <FILE>            Read settings from a JSON file\n" ++
  "  --max-call-depth <N>       Limit how many calls may be in progress\n" ++
  "  --seed <N>                 Fix the random numbers\n" ++
  "  --advisory-constants       Let constants be reassigned\n" ++
  "  --program-dir <DIRECTORY>  Where the prompt looks for programs\n" ++
  "  -h, --help                 Show this text\n" ++
  "  -V, --version              Show the version\n"

namespace Outcome

/-- A command that only shows a text. -/
def shown (text : String) : Outcome :=
  ⟨.success, text.toUTF8, "", none⟩

/-- A command line that asks for nothing that can be told. -/
def misused : Outcome :=
  ⟨.usage, .empty, usageText, none⟩

/-- A console at the end of a command. -/
def ofConsole (c : Console) (ending : Ending) : Outcome :=
  ⟨ending, c.output.stored, c.errors, c.logText?⟩

end Outcome

variable {m : Type → Type} [Monad m]

/-- The settings of a command: those of the file that the options name, if they name one, and then
what the options say themselves. -/
def loadSettings (w : World m) (options : Options) (c : Console) :
    m (Except Trouble Settings) := do
  match options.config with
  | none => pure (.ok (options.applyTo {}))
  | some path =>
    let text := (← c.openPath w path).settingsText
    let loaded := text.bind fun text => (Settings.ofJsonText text).mapError .notSettings
    pure <| match loaded with
      | .ok s => .ok (options.applyTo s)
      | .error trouble => .error (.settings path trouble)

/-- Opens a program file and goes on with its text. -/
def withSource (w : World m) (path : String) (c : Console) (next : String → Console × Ending) :
    m (Console × Ending) := do
  match (← c.openPath w path).source path with
  | .ok text => pure (next text)
  | .error t => pure (c.stop t)

/-- The console with the standard input. -/
def withInput (w : World m) (c : Console) : m Console := do
  pure { c with input := .ofBytes (← w.input), entropy := ← w.entropy }

/-- Carries out a subcommand. -/
def perform (w : World m) (settings : Settings) (c : Console) : Action → m (Console × Ending)
  | .tokenize file => withSource w file c fun text => c.tokenize text
  | .parse file json => withSource w file c fun text => c.parse json text
  | .run file => do
    match (← c.openPath w file).source file with
    | .ok text => pure ((← withInput w c).run settings text)
    | .error t => pure (c.stop t)
  | .repl => do
    let c ← withInput w c
    c.repl w settings (c.input.lines.length + 1)

/-- Carries out a subcommand with its options. The log file cannot be made where a directory has its
name. -/
def act (w : World m) (options : Options) (action : Action) : m Outcome := do
  let log := if options.log then Log.keeping .debug else Log.off
  let c : Console := ⟨.ofBytes [], .unlimited, "", log, ← w.clock, 0⟩
  let blocked ← if options.log then
      match ← w.openPath none LogFile.name with
      | .directory => pure true
      | _ => pure false
    else pure false
  if blocked then
    let (c, ending) := c.stop .noLog
    pure ⟨ending, c.output.stored, c.errors, none⟩
  else
    match ← loadSettings w options c with
    | .error t =>
      let (c, ending) := c.stop t
      pure (.ofConsole c ending)
    | .ok settings =>
      let (c, ending) ← perform w settings c action
      pure (.ofConsole c ending)

/-- Carries out what the arguments of a command line ask for. -/
def command (w : World m) (args : List String) : m Outcome :=
  match Request.ofArguments? args with
  | none => pure .misused
  | some .version => pure (.shown versionText)
  | some .help => pure (.shown usageText)
  | some (.act options action) => act w options action

end DivisionScript.CommandLine
