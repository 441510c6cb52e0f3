import DivisionScript.Log.Event

/-!
# Command line — Log file

The file in which a command keeps its log: its name and its text, a heading with the time of day and
then a line for each report.
-/

namespace DivisionScript.CommandLine.LogFile

/-- The name of the log file. -/
def name : String :=
  "skeptical.log"

/-- A number with zeros before it, up to so many digits. -/
def padded (digits n : Nat) : String :=
  String.ofList ((Nat.toDigits 10 n).leftpad digits '0')

/-- The time of day after so many milliseconds: hours, minutes, seconds and thousandths. -/
def timeOfDay (ms : Nat) : String :=
  padded 2 (ms / 3600000 % 24) ++ ":" ++ padded 2 (ms / 60000 % 60) ++ ":" ++
    padded 2 (ms / 1000 % 60) ++ "." ++ padded 3 (ms % 1000)

/-- The first line of a log that begins at the given time. -/
def heading (ms : Nat) : String :=
  timeOfDay ms ++ " " ++ Level.info.name ++ " - Logger initialized, writing to " ++ name ++ "\n"

/-- The line about a report. -/
def line (event : Event) : String :=
  event.level.name ++ " - " ++ event.message ++ "\n"

/-- The text of a log that began at the given time. -/
def text (ms : Nat) (events : List Event) : String :=
  heading ms ++ String.join (events.map line)

end DivisionScript.CommandLine.LogFile
