import DivisionScript.Json.Reading
import DivisionScript.Text.Quoted
import DivisionScript.Text.Utf8

/-!
# Command line — Trouble

The troubles that a command can have with files and with its input, and the reports on them. A
trouble has a context, what could not be done, and a chain of causes.
-/

namespace DivisionScript.CommandLine

/-- Why settings could not be loaded. -/
inductive SettingsTrouble where
  | unreadable (reason : String)
  | notSettings (refusal : Json.Refusal)

/-- A trouble of a command that has nothing to do with the text of a program. -/
inductive Trouble where
  | unopened (path reason : String)
  /-- What the name denotes is a directory. -/
  | unmapped (path : String)
  | notText (path : String) (flaw : Text.Flaw)
  | settings (path : String) (trouble : SettingsTrouble)
  | noLog
  /-- A line of the input is not text. -/
  | inputNotText

namespace Trouble

/-- The wording of the system for a directory that is opened as a file. -/
def isDirectory : String :=
  "Is a directory (os error 21)"

/-- The wording for bytes that are not text. -/
def notUtf8 : String :=
  "stream did not contain valid UTF-8"

/-- What a command could not do. -/
def context : Trouble → String
  | unopened path _ => "Failed to open file " ++ Text.quote path
  | unmapped path => "Failed to map file " ++ Text.quote path
  | notText path _ => "File " ++ Text.quote path ++ " is not valid UTF-8"
  | settings path _ => "Failed to load configuration " ++ Text.quote path
  | noLog => "Failed to create skeptical.log"
  | inputNotText => notUtf8

/-- The wording of a kind of problem with a JSON text. -/
def refusalText : Json.Refusal → String
  | .ended => "unexpected end of text"
  | .malformed => "malformed JSON"
  | .unfit => "unknown field or unfit value"

/-- Why, from the nearest cause to the last one. -/
def causes : Trouble → List String
  | unopened _ reason => [reason]
  | unmapped _ => ["No such device (os error 19)"]
  | notText _ flaw => [flaw.message]
  | settings _ (.unreadable reason) => [reason]
  | settings _ (.notSettings refusal) =>
    ["Invalid configuration: " ++ refusalText refusal, refusalText refusal]
  | noLog => [isDirectory]
  | inputNotText => []

/-- Causes with their numbers, each on a line of its own. -/
def numbered (n : Nat) : List String → String
  | [] => ""
  | cause :: causes => "    " ++ toString n ++ ": " ++ cause ++ "\n" ++ numbered (n + 1) causes

/-- The report with which a command ends: causes are numbered if there are several. -/
def report (t : Trouble) : String :=
  "Error: " ++ t.context ++ "\n" ++
    match t.causes with
    | [] => ""
    | [cause] => "\nCaused by:\n    " ++ cause ++ "\n"
    | causes => "\nCaused by:\n" ++ numbered 0 causes

/-- The trouble on one line. -/
def summary (t : Trouble) : String :=
  t.causes.foldl (fun text cause => text ++ ": " ++ cause) t.context

end Trouble

end DivisionScript.CommandLine
