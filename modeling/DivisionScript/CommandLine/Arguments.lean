import DivisionScript.Settings.Basic

/-!
# Command line — Arguments

What the arguments of a command line ask for. Options may stand before and after the name of the
subcommand; each may stand once on either side, and the later side wins. Arguments are read from
left to right, so a question for the version or for help is answered as soon as it is met, and a
mistake after it is never seen.
-/

namespace DivisionScript.CommandLine

/-- The options that take a value. -/
inductive Setting where
  | config | maxCallDepth | seed | programDir
deriving DecidableEq, Repr

/-- The option of a name. -/
def Setting.ofName? : String → Option Setting
  | "config" => some config
  | "max-call-depth" => some maxCallDepth
  | "seed" => some seed
  | "program-dir" => some programDir
  | _ => none

/-- The options that are given or not. -/
inductive Flag where
  | log | advisoryConstants
deriving DecidableEq, Repr

/-- The flag of a name. -/
def Flag.ofName? : String → Option Flag
  | "log" => some log
  | "advisory-constants" => some advisoryConstants
  | _ => none

/-- The options given. -/
structure Options where
  log : Bool := false
  advisoryConstants : Bool := false
  config : Option String := none
  maxCallDepth : Option UInt64 := none
  seed : Option UInt64 := none
  programDir : Option String := none
deriving DecidableEq, Repr

/-- The whole number of 64 bits that decimal digits denote, perhaps after a plus sign. -/
def unsigned? (text : String) : Option UInt64 :=
  let digits := match text.toList with
    | '+' :: digits => digits
    | digits => digits
  if digits = [] ∨ digits.any (!·.isDigit) then
    none
  else
    let n := digits.foldl (fun n c => 10 * n + (c.toNat - '0'.toNat)) 0
    if n < 0x10000000000000000 then some n.toUInt64 else none

/-- A name of a file or directory; an empty text is none. -/
def path? (text : String) : Option String :=
  if text = "" then none else some text

namespace Options

/-- Gives a flag; a second time is a mistake. -/
def raise? (o : Options) : Flag → Option Options
  | .log => if o.log then none else some { o with log := true }
  | .advisoryConstants =>
    if o.advisoryConstants then none else some { o with advisoryConstants := true }

/-- Gives an option its value; a second time is a mistake. -/
def store? (o : Options) (text : String) : Setting → Option Options
  | .config =>
    if o.config.isSome then none
    else (path? text).map fun path => { o with config := some path }
  | .maxCallDepth =>
    if o.maxCallDepth.isSome then none
    else (unsigned? text).map fun n => { o with maxCallDepth := some n }
  | .seed =>
    if o.seed.isSome then none
    else (unsigned? text).map fun n => { o with seed := some n }
  | .programDir =>
    if o.programDir.isSome then none
    else (path? text).map fun path => { o with programDir := some path }

/-- The options of two sides; the later side wins. -/
def overriding (later earlier : Options) : Options where
  log := later.log || earlier.log
  advisoryConstants := later.advisoryConstants || earlier.advisoryConstants
  config := later.config <|> earlier.config
  maxCallDepth := later.maxCallDepth <|> earlier.maxCallDepth
  seed := later.seed <|> earlier.seed
  programDir := later.programDir <|> earlier.programDir

/-- Settings with what the options say about them. -/
def applyTo (o : Options) (s : Settings) : Settings where
  maxCallDepth := o.maxCallDepth.getD s.maxCallDepth
  enforceConstants := s.enforceConstants && !o.advisoryConstants
  seed := o.seed <|> s.seed
  programDir := o.programDir.getD s.programDir

end Options

/-- The form of an argument. -/
inductive Form where
  /-- Two hyphens alone. -/
  | escape
  /-- A name after two hyphens, perhaps with a value after an equals sign. -/
  | long (name : String) (value : Option String)
  /-- Characters after one hyphen. -/
  | short (first : Char)
  | plain

/-- The form of an argument; a hyphen alone is plain. -/
def Form.of (arg : String) : Form :=
  match arg.toList with
  | ['-', '-'] => .escape
  | '-' :: '-' :: cs =>
    match cs.dropWhile (· ≠ '=') with
    | [] => .long (String.ofList cs) none
    | _ :: value => .long (String.ofList (cs.takeWhile (· ≠ '='))) (some (String.ofList value))
  | '-' :: c :: _ => .short c
  | _ => .plain

/-- A part of a command line: an argument, or an option with its value. -/
inductive Part where
  | setting (which : Setting) (text : String)
  /-- An option without a value. -/
  | flag (name : String)
  | short (first : Char)
  | plain (text : String)
  /-- Two hyphens alone, which end the options. -/
  | escape
  /-- An argument after two hyphens. -/
  | operand (text : String)
  /-- An option whose value is missing, or a value where none is taken. -/
  | mistake

/-- The parts of a command line. The value of an option does not start with a hyphen, unless it is
one or follows an equals sign. -/
def parts : List String → List Part
  | [] => []
  | arg :: args =>
    match Form.of arg with
    | .escape => .escape :: args.map .operand
    | .plain => .plain arg :: parts args
    | .short c => .short c :: parts args
    | .long name value =>
      match Setting.ofName? name, value with
      | some which, some text => .setting which text :: parts args
      | none, some _ => [.mistake]
      | none, none => .flag name :: parts args
      | some which, none =>
        match args with
        | [] => [.mistake]
        | text :: args =>
          match Form.of text with
          | .plain => .setting which text :: parts args
          | _ => [.mistake]

/-- What a subcommand does. -/
inductive Action where
  | tokenize (file : String)
  | parse (file : String) (json : Bool)
  | run (file : String)
  /-- Asks for lines and runs each. -/
  | repl
deriving DecidableEq, Repr

/-- What a command line asks for. -/
inductive Request where
  | version
  | help
  | act (options : Options) (action : Action)
deriving DecidableEq, Repr

/-- The subcommands. -/
inductive Subcommand where
  | tokenize | parse | run | repl
deriving DecidableEq, Repr

namespace Subcommand

/-- The subcommand of a name. -/
def ofName? : String → Option Subcommand
  | "tokenize" => some tokenize
  | "parse" => some parse
  | "run" => some run
  | "repl" => some repl
  | _ => none

/-- The action of a subcommand with what follows it: three of them need a file, one takes none. -/
def action? (c : Subcommand) (file : Option String) (json : Bool) : Option Action :=
  match c, file with
  | tokenize, some file => some (.tokenize file)
  | parse, some file => some (.parse file json)
  | run, some file => some (.run file)
  | repl, none => some .repl
  | _, _ => none

end Subcommand

/-- Takes the file of a subcommand; a second one is a mistake. -/
def file? (c : Subcommand) (file : Option String) (text : String) : Option (Option String) :=
  if file.isSome ∨ c = .repl then none else (path? text).map some

/-- What the parts after the name of a subcommand ask for. -/
def readAfter (c : Subcommand) (before own : Options) (file : Option String) (json : Bool) :
    List Part → Option Request
  | [] => (c.action? file json).map (.act (own.overriding before))
  | .setting which text :: parts => do readAfter c before (← own.store? text which) file json parts
  | .flag "help" :: _ => some .help
  | .flag "json" :: parts =>
    if c = .parse ∧ !json then readAfter c before own file true parts else none
  | .flag name :: parts => do
    readAfter c before (← own.raise? (← Flag.ofName? name)) file json parts
  | .short 'h' :: _ => some .help
  | .short _ :: _ => none
  | .plain text :: parts => do readAfter c before own (← file? c file text) json parts
  | .escape :: parts => readAfter c before own file json parts
  | .operand text :: parts => do readAfter c before own (← file? c file text) json parts
  | .mistake :: _ => none

/-- What a question for help names: nothing, or one subcommand. Two hyphens are no name either. -/
def readHelp : List Part → Option Request
  | [] => some .help
  | [.plain name] => if name = "help" ∨ (Subcommand.ofName? name).isSome then some .help else none
  | _ => none

/-- What the parts of a command line ask for; `none` if that cannot be told. -/
def readParts (o : Options) : List Part → Option Request
  | [] => none
  | .setting which text :: parts => do readParts (← o.store? text which) parts
  | .flag "help" :: _ => some .help
  | .flag "version" :: _ => some .version
  | .flag name :: parts => do readParts (← o.raise? (← Flag.ofName? name)) parts
  | .short 'h' :: _ => some .help
  | .short 'V' :: _ => some .version
  | .short _ :: _ => none
  | .plain "help" :: parts => readHelp parts
  | .plain name :: parts => do readAfter (← Subcommand.ofName? name) o {} none false parts
  | .escape :: _ => none
  | .operand _ :: _ => none
  | .mistake :: _ => none

/-- What the arguments of a command line ask for; `none` if that cannot be told. -/
def Request.ofArguments? (args : List String) : Option Request :=
  readParts {} (parts args)

end DivisionScript.CommandLine
