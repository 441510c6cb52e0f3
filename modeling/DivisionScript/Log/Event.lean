import DivisionScript.Grammar.Program
import DivisionScript.Run.Value
import DivisionScript.Settings.Basic

/-!
# Log — Event

What the language reports about its own work: one event per report, its level and its wording.
-/

namespace DivisionScript

/-- How important a report is. -/
inductive Level where
  | debug | info | warn
deriving DecidableEq, Repr

namespace Level

/-- The name of a level in a log. -/
def name : Level → String
  | debug => "DEBUG" | info => "INFO" | warn => "WARN"

/-- A level as a number; the more important, the greater. -/
def rank : Level → Nat
  | debug => 0 | info => 1 | warn => 2

end Level

/-- A report. -/
inductive Event where
  /-- A text of so many bytes is about to be scanned. -/
  | scanning (bytes : Nat)
  | tokenScanned (kind : TokenKind) (line : Nat)
  | tokenMade (token : Token)
  | lexicalError (error : LexicalError)
  | scanned (tokens : Nat)
  /-- So many tokens are about to be parsed. -/
  | parsing (tokens : Nat)
  | parsingProgram
  | enteringDeclaration
  | enteringStatement (line : Nat)
  | parsed (declarations statements : Nat)
  | syntaxError (error : SyntaxError)
  | lookingUp (name : String)
  | dividingByZero (dividend : Float)
  | evaluated (value : Value)
  | started (settings : Settings)
  | running (declarations statements : Nat)
  | finished (bindings : Nat)
  | interpreting (statements : Nat)
  | programName (name : String)
  | programAuthor (name : String)
  | programDate (text : String)
  | constantDefined (name : String) (value : Value)
  | constantKept (name : String)
  | executing (line : Nat)
  | tagMismatch (line : Nat) (name : String) (tag type : TypeTag)
  | assigning (name : String) (value : Value)
  | printed (value : Value)
  | inputRead (x : Float)
  | branching (truthy : Bool)
  | looping (name : String) (start stop : Int)
  | drew (name : String) (drawn least greatest : Int)
  | functionDefined (name : String) (params : Nat)
  | functionRedefined (name : String)
  | calling (name : String) (depth : Nat)
  | bindingParameter (name : String) (value : Value)
  | returned (name : String) (value : Value)

namespace Event

/-- The level of a report. -/
def level : Event → Level
  | scanning _ | lexicalError _ | parsing _ | parsingProgram | parsed .. | syntaxError _
  | started _ | running .. | finished _ | programName _ | programAuthor _ | programDate _
  | functionDefined .. | functionRedefined _ | returned .. => .info
  | tagMismatch .. => .warn
  | _ => .debug

/-- The wording of a report. -/
def message : Event → String
  | scanning bytes => "Scanner created over " ++ toString bytes ++ " bytes"
  | tokenScanned kind line =>
    "Scanned token (" ++ kind.diagnostic ++ ") on line " ++ toString line
  | tokenMade t =>
    "Creating new token: type=" ++ t.kind.diagnostic ++ ", lexeme=" ++ t.lexeme ++ ", line=" ++
      toString t.line
  | lexicalError e =>
    "Creating Lex error: line=" ++ toString e.line ++ ", msg=" ++ e.cause.message
  | scanned tokens => "Scanned " ++ toString tokens ++ " tokens"
  | parsing tokens => "Parser created with " ++ toString tokens ++ " tokens"
  | parsingProgram => "Beginning parse phase"
  | enteringDeclaration => "Entering declaration"
  | enteringStatement line => "Entering statement at line " ++ toString line
  | parsed declarations statements =>
    "Parsed " ++ toString declarations ++ " declaration(s) and " ++ toString statements ++
      " statement(s)"
  | syntaxError e => "Creating Parse error: line=" ++ toString e.line ++ ", msg=" ++ e.message
  | lookingUp name => "Looking up variable '" ++ name ++ "'"
  | dividingByZero dividend => "Division of " ++ Number.plain.text dividend ++ " by zero"
  | evaluated value => "Expression evaluated to: " ++ value.text
  | started settings => "Initializing Interpreter with " ++ settings.diagnostic
  | running declarations statements =>
    "Running program with " ++ toString declarations ++ " declaration(s) and " ++
      toString statements ++ " statement(s)"
  | finished bindings => "Program finished with " ++ toString bindings ++ " binding(s)"
  | interpreting statements => "Interpreting " ++ toString statements ++ " statements"
  | programName name => "Program id: " ++ name
  | programAuthor name => "Author: " ++ name
  | programDate text => "Date: " ++ text
  | constantDefined name value => "Constant '" ++ name ++ "' = " ++ value.text
  | constantKept name => "Rejected write to constant '" ++ name ++ "'"
  | executing line => "Executing statement at line " ++ toString line
  | tagMismatch line name tag type =>
    "[line " ++ toString line ++ "] '" ++ name ++ "' is declared " ++ tag.spelling ++
      " but assigned a " ++ type.spelling
  | assigning name value => "Assigning " ++ value.text ++ " to '" ++ name ++ "'"
  | printed value => "Printed value: " ++ value.text
  | inputRead x => "Read input value " ++ Number.plain.text x
  | branching true => "Condition is truthy; executing then branch"
  | branching false => "Condition is falsy; executing else branch"
  | looping name start stop =>
    "Loop '" ++ name ++ "' from " ++ toString start ++ " to " ++ toString stop
  | drew name drawn least greatest =>
    "rand '" ++ name ++ "' drew " ++ toString drawn ++ " from [" ++ toString least ++ ", " ++
      toString greatest ++ "]"
  | functionDefined name params =>
    "Function '" ++ name ++ "' defined with " ++ toString params ++ " parameters"
  | functionRedefined name => "Function '" ++ name ++ "' redefined"
  | calling name depth => "Calling '" ++ name ++ "' at depth " ++ toString depth
  | bindingParameter name value => "Binding parameter '" ++ name ++ "' to " ++ value.text
  | returned name value => "Function '" ++ name ++ "' returned: " ++ value.text

end Event

/-- The reports kept so far. -/
structure Log where
  /-- The least level that is kept; `none` keeps nothing. -/
  threshold : Option Level
  newestFirst : List Event

namespace Log

/-- A log that keeps nothing. -/
def off : Log :=
  ⟨none, []⟩

/-- A log that keeps the reports from a level on. -/
def keeping (threshold : Level) : Log :=
  ⟨some threshold, []⟩

/-- The reports in order. -/
def events (log : Log) : List Event :=
  log.newestFirst.reverse

/-- Whether a report of the given level is kept. -/
def keeps (log : Log) (level : Level) : Bool :=
  match log.threshold with
  | none => false
  | some threshold => threshold.rank ≤ level.rank

/-- Adds a report if its level is kept. -/
def note (log : Log) (event : Event) : Log :=
  if log.keeps event.level then ⟨log.threshold, event :: log.newestFirst⟩ else log

/-- Adds reports in order. -/
def noteAll (log : Log) (events : List Event) : Log :=
  events.foldl note log

@[simp] theorem threshold_note (log : Log) (event : Event) :
    (log.note event).threshold = log.threshold := by
  rw [note]; split <;> rfl

end Log

end DivisionScript
