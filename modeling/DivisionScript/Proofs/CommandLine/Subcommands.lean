import DivisionScript.Proofs.Answers
import DivisionScript.Proofs.CommandLine.Files
import DivisionScript.Proofs.CommandLine.Prompt

/-!
# Command line — Subcommands

What the three subcommands that take a file say about the same file. They judge its text in ways of
their own: one goes through the items of the text one by one, one stops at the first error, and one
goes on to run the program. `subcommands_agree` says that their judgements agree.
-/

namespace DivisionScript.CommandLine

open Run

/-! ## The errors of a text -/

/-- The wording of an item, if it is an error. -/
def complaint? : Item → Option String
  | .ok _ => none
  | .error e => some (SourceError.lexical e).message

theorem complaint?_error (e : LexicalError) :
    complaint? (.error e) = some (SourceError.lexical e).message :=
  rfl

/-- The wordings of the lexical errors of a text, in order. -/
def complaints (text : String) : List String :=
  (Token.scan text).filterMap complaint?

/-- Texts, each on a line of its own. -/
def asLines (texts : List String) : String :=
  String.join (texts.map (· ++ "\n"))

/-- The first complaint about a text is the error with which it is no program. -/
theorem complaints_eq_nil_or (text : String) :
    complaints text = [] ∧ (∀ e, (Source.program text).result ≠ .error (.lexical e)) ∨
    ∃ e others, complaints text = (SourceError.lexical e).message :: others ∧
      (Source.program text).result = .error (.lexical e) := by
  cases hscan : Token.scanAll text with
  | ok ts =>
    refine .inl ⟨?_, fun e he => ?_⟩
    · rw [complaints, Token.collect_eq_ok_iff.mp hscan, List.filterMap_map,
        List.filterMap_eq_nil_iff]
      exact fun _ _ => rfl
    · cases hscan.symm.trans (Source.program_eq_lexical_iff.mp he)
  | error e =>
    obtain ⟨ts, rest, hitems⟩ := Token.collect_eq_error_iff.mp hscan
    have hnone : (ts.map Except.ok).filterMap complaint? = [] := by
      rw [List.filterMap_map, List.filterMap_eq_nil_iff]
      exact fun _ _ => rfl
    refine .inr ⟨e, rest.filterMap complaint?, ?_, Source.program_eq_lexical_iff.mpr hscan⟩
    rw [complaints, hitems, List.filterMap_append, hnone, List.nil_append,
      List.filterMap_cons_some (complaint?_error e)]

namespace Console

variable (c : Console) (text : String)

theorem errors_list (ending : Ending) (items : List Item) :
    (c.list ending items).1.errors = c.errors ++ asLines (items.filterMap complaint?) := by
  induction items generalizing c ending with
  | nil => exact String.append_empty.symm
  | cons item items ih =>
    cases item with
    | ok t => exact ih ..
    | error e =>
      rw [list, ih, List.filterMap_cons_some (complaint?_error e), asLines, asLines,
        List.map_cons, String.join_cons]
      simp only [complain, String.append_assoc]

theorem ending_list (ending : Ending) (items : List Item) :
    (c.list ending items).2 = if items.filterMap complaint? = [] then ending else .badSource := by
  induction items generalizing c ending with
  | nil => rfl
  | cons item items ih =>
    cases item with
    | ok t => exact ih ..
    | error e =>
      rw [list, ih, List.filterMap_cons_some (complaint?_error e), if_neg (List.cons_ne_nil _ _),
        ite_self]

theorem errors_tokenize :
    (c.tokenize text).1.errors = c.errors ++ asLines (complaints text) :=
  errors_list ..

theorem ending_tokenize :
    (c.tokenize text).2 = if complaints text = [] then .success else .badSource :=
  ending_list ..

/-- Where errors are listed, the first of them is the one with which the text is no program. -/
theorem exists_complaint (h : (c.tokenize text).2.status = 65) : ∃ e others,
    complaints text = (SourceError.lexical e).message :: others ∧
      (Source.program text).result = .error (.lexical e) := by
  rcases complaints_eq_nil_or text with ⟨hnil, -⟩ | hfirst
  · rw [ending_tokenize, if_pos hnil] at h
    cases h
  · exact hfirst

variable {text}

theorem parse_of_error {e : SourceError} (h : (Source.program text).result = .error e)
    (json : Bool) :
    ∃ log, c.parse json text = ({ c with log }.complain e.message, .badSource) := by
  rw [parse, h]
  exact ⟨_, rfl⟩

theorem parse_of_ok {p : Program} (h : (Source.program text).result = .ok p) (json : Bool) :
    (c.parse json text).2 = .success := by
  rw [parse, h]

end Console

/-! ## Commands with a file -/

/-- A subcommand that takes a file, without the file. -/
inductive FileCommand where
  | tokenize
  | parse (json : Bool)
  | run

/-- What a subcommand does, given the file. -/
def FileCommand.action (file : String) : FileCommand → Action
  | tokenize => .tokenize file
  | parse json => .parse file json
  | run => .run file

/-- What a subcommand comes to, given the text of the file. -/
def FileCommand.judge (w : World Id) (settings : Settings) (c : Console) (text : String) :
    FileCommand → Console × Ending
  | tokenize => c.tokenize text
  | parse json => c.parse json text
  | run => { c with input := .ofBytes w.input, entropy := w.entropy }.run settings text

/-- What a command leaves behind, given the console at its end and the ending. -/
def Outcome.of (result : Console × Ending) : Outcome :=
  .ofConsole result.1 result.2

/-- A program ends and shows what it does where nothing is reported. -/
theorem Outcome.of_run (c : Console) {text : String} {p : Program}
    (h : (Source.program text).result = .ok p) (settings : Settings) :
    match Run.program settings p (.initial settings c.entropy c.input c.output .off) with
    | .ok _ m => (Outcome.of (c.run settings text)).ending.status = 0 ∧
        (Outcome.of (c.run settings text)).output = m.output.stored
    | .error _ m => (Outcome.of (c.run settings text)).ending.status = 70 ∧
        (Outcome.of (c.run settings text)).output = m.output.stored := by
  obtain ⟨log, -, hrun⟩ := c.run_of_ok h settings
  rw [hrun]
  cases Run.program settings p (.initial settings c.entropy c.input c.output .off) with
  | ok _ m => exact ⟨rfl, rfl⟩
  | error failure m => exact ⟨rfl, rfl⟩

section commands

variable (w : World Id) (options : Options) (file : String)

/-- The console that a command with options starts with. -/
def Console.start : Console :=
  .opening (if options.log then .keeping .debug else .off) w.clock

/-- Whether a log is to be kept, but cannot be. -/
def logFails : Bool :=
  if options.log then
    match (w.openPath none LogFile.name : Opened) with
    | .directory => true
    | _ => false
  else false

/-- The settings and the program text that a command finds. There are none if the log cannot be
kept, or a file of settings cannot be read or is refused, or the program file cannot be read. -/
def found? : Option (Settings × String) :=
  if logFails w options then none
  else
    (settings? w options (.start w options)).bind fun settings =>
      (Opened.text? ((Console.start w options).openPath w file)).map (settings, ·)

variable {w options file}

theorem act_eq (action : Action) :
    act w options action =
      if logFails w options then Outcome.mk .trouble .empty ("" ++ Trouble.noLog.report) none
      else match (loadSettings w options (.start w options) : Except Trouble Settings) with
        | .error t => .of ((Console.start w options).stop t)
        | .ok settings =>
          .of (perform w settings (.start w options) action : Console × Ending) := by
  rw [act, logFails, Console.start]
  cases options.log with
  | false => rfl
  | true =>
    cases hopened : (w.openPath none LogFile.name : Opened) with
    | directory => rfl
    | _ => rfl

theorem perform_eq (settings : Settings) (c : Console) (command : FileCommand) :
    perform w settings c (command.action file) =
      match Opened.source file (c.openPath w file) with
      | .ok text => command.judge w settings c text
      | .error t => c.stop t := by
  cases command with
  | tokenize => rfl
  | parse json => rfl
  | run => rfl

/-- A command that finds what it needs does with the text what it is for. -/
theorem act_of_found {settings : Settings} {text : String}
    (h : found? w options file = some (settings, text)) (command : FileCommand) :
    act w options (command.action file) =
      Outcome.of (command.judge w settings (.start w options) text) := by
  rw [found?] at h
  split at h
  · cases h
  · next hlog =>
    obtain ⟨settings', hsettings, h⟩ := Option.bind_eq_some_iff.mp h
    obtain ⟨text', htext, heq⟩ := Option.map_eq_some_iff.mp h
    cases heq
    have hloaded := toOption_eq_some_iff.mp ((toOption_loadSettings ..).trans hsettings)
    have hsource := toOption_eq_some_iff.mp ((Opened.toOption_source file _).trans htext)
    rw [act_eq, if_neg hlog, hloaded]
    dsimp only
    rw [perform_eq, hsource]

/-- A command that does not find what it needs has shown nothing. -/
theorem act_of_not_found (h : found? w options file = none) (command : FileCommand) :
    Outcome.ending (act w options (command.action file)) = .trouble ∧
      Outcome.output (act w options (command.action file)) = .empty := by
  rw [found?] at h
  rw [act_eq]
  split at h
  · next hlog =>
    rw [if_pos hlog]
    exact ⟨rfl, rfl⟩
  · next hlog =>
    rw [if_neg hlog]
    cases hsettings : settings? w options (.start w options) with
    | none =>
      obtain ⟨t, ht⟩ := toOption_eq_none_iff.mp ((toOption_loadSettings ..).trans hsettings)
      rw [ht]
      exact ⟨rfl, rfl⟩
    | some settings =>
      rw [hsettings, Option.bind_some, Option.map_eq_none_iff] at h
      obtain ⟨t, ht⟩ := toOption_eq_none_iff.mp ((Opened.toOption_source file _).trans h)
      rw [toOption_eq_some_iff.mp ((toOption_loadSettings ..).trans hsettings)]
      dsimp only
      rw [perform_eq, ht]
      exact ⟨rfl, rfl⟩

end commands

/-- The subcommands agree on a file. If its settings or its program cannot be read, all of them end
with status 1 and show nothing. Otherwise a text that is no program ends both `parse` and `run` with
status 65 and with the same error, and neither shows anything; if `tokenize` ends with that status,
so do they, and their error is the first of those that it lists; and if `parse` succeeds, `run` ends
with status 70 or with 0 as the run of the program, on the whole input, fails or not, and has shown
what the run has. -/
theorem subcommands_agree (w : World Id) (options : Options) (file : String) :
    let tokenized : Outcome := act w options (.tokenize file)
    let parsed (json : Bool) : Outcome := act w options (.parse file json)
    let ran : Outcome := act w options (.run file)
    match found? w options file with
    | none =>
      (tokenized.ending.status = 1 ∧ tokenized.output = .empty) ∧
      (∀ json, (parsed json).ending.status = 1 ∧ (parsed json).output = .empty) ∧
      ran.ending.status = 1 ∧ ran.output = .empty
    | some (settings, text) => ∀ json,
      ((parsed json).ending.status = 65 ↔ ran.ending.status = 65) ∧
      ((parsed json).ending.status = 65 →
        (parsed json).errors = ran.errors ∧ (parsed json).output = .empty ∧ ran.output = .empty) ∧
      (tokenized.ending.status = 65 → (parsed json).ending.status = 65 ∧
        ∃ first others, complaints text = first :: others ∧
          tokenized.errors = asLines (first :: others) ∧ (parsed json).errors = asLines [first]) ∧
      ((parsed json).ending.status = 0 → ∃ p, (Source.program text).result = .ok p ∧
        match Run.program settings p
          (.initial settings w.entropy (.ofBytes w.input) .unlimited .off) with
        | .ok _ m => ran.ending.status = 0 ∧ ran.output = m.output.stored
        | .error _ m => ran.ending.status = 70 ∧ ran.output = m.output.stored) := by
  intro tokenized parsed ran
  cases hfound : found? w options file with
  | none =>
    have hstopped (command : FileCommand) :
        (Outcome.ending (act w options (command.action file))).status = 1 ∧
          Outcome.output (act w options (command.action file)) = .empty := by
      obtain ⟨hending, houtput⟩ := act_of_not_found hfound command
      exact ⟨congrArg Ending.status hending, houtput⟩
    exact ⟨hstopped .tokenize, fun json => hstopped (.parse json), hstopped .run⟩
  | some found =>
    obtain ⟨settings, text⟩ := found
    let c := Console.start w options
    let c' : Console := { c with input := .ofBytes w.input, entropy := w.entropy }
    have htokenized : tokenized = .of (c.tokenize text) := act_of_found hfound .tokenize
    have hparsed (json : Bool) : parsed json = .of (c.parse json text) :=
      act_of_found hfound (.parse json)
    have hran : ran = .of (c'.run settings text) := act_of_found hfound .run
    dsimp only
    intro json
    rw [htokenized, hparsed, hran]
    cases hprogram : (Source.program text).result with
    | ok p =>
      have hshown : (Outcome.of (c.parse json text)).ending.status ≠ 65 := by
        show (c.parse json text).2.status ≠ 65
        rw [c.parse_of_ok hprogram json]
        decide
      have hlisted : (Outcome.of (c.tokenize text)).ending.status ≠ 65 := by
        intro hlisted
        obtain ⟨e, -, -, herror⟩ := c.exists_complaint text hlisted
        cases hprogram.symm.trans herror
      have hends := Outcome.of_run c' hprogram settings
      have hrun : (Outcome.of (c'.run settings text)).ending.status ≠ 65 := by
        split at hends <;> rw [hends.1] <;> decide
      exact ⟨iff_of_false hshown hrun, fun h => absurd h hshown, fun h => absurd h hlisted,
        fun _ => ⟨p, rfl, hends⟩⟩
    | error e =>
      obtain ⟨log, hshown⟩ := c.parse_of_error hprogram json
      obtain ⟨log', -, hrun⟩ := c'.run_of_error hprogram settings
      rw [hshown, hrun]
      refine ⟨iff_of_true rfl rfl, fun _ => ⟨rfl, rfl, rfl⟩, fun hlisted => ⟨rfl, ?_⟩, nofun⟩
      obtain ⟨e', others, hcomplaints, herror⟩ := c.exists_complaint text hlisted
      cases hprogram.symm.trans herror
      have herrors : (c.tokenize text).1.errors = asLines (complaints text) :=
        (c.errors_tokenize text).trans String.empty_append
      rw [hcomplaints] at herrors
      refine ⟨_, others, hcomplaints, herrors, ?_⟩
      show "" ++ (SourceError.lexical e').message ++ "\n" = _
      rw [asLines, List.map_singleton, String.join_cons, String.join_nil, String.append_empty,
        String.empty_append]

/-- A file with two errors: a parenthesis with which no program starts, and behind it a string
without its closing quote. All subcommands name the string. -/
theorem open_string_in_file :
    let w : World Id := ⟨fun _ _ => .contents ")\"".toUTF8, [], 0, 0⟩
    let parsed : Outcome := act w {} (.parse "program" false)
    let ran : Outcome := act w {} (.run "program")
    parsed.ending.status = 65 ∧ ran.ending.status = 65 ∧ ran.output = .empty ∧
      ran.errors = asLines ["[line 1] Error: Unterminated string."] := by
  intro w parsed ran
  have htext : (Opened.contents ")\"".toUTF8).text? = some ")\"" := by
    rw [← Opened.toOption_source "program", Opened.source_contents]
    rfl
  have hfound : found? w {} "program" = some ({}, ")\"") := by
    rw [found?, if_neg (by decide)]
    show (Opened.contents ")\"".toUTF8).text?.map _ = _
    rw [htext]
    rfl
  have hscan : complaints ")\"" = ["[line 1] Error: Unterminated string."] := by
    simp [complaints, complaint?, Token.scan, Token.scanFrom, Token.lineFeeds, Piece.first,
      Piece.isSeparator, Piece.isWordStart, Piece.string, Piece.symbol?, Piece.cut, Symbol.spelling]
    decide
  have hlisted : Outcome.ending (act w {} (.tokenize "program")) = .badSource := by
    have htokenized : act w {} (.tokenize "program") = _ := act_of_found hfound .tokenize
    rw [htokenized]
    show (Console.tokenize _ ")\"").2 = _
    rw [Console.ending_tokenize, hscan, if_neg (List.cons_ne_nil _ _)]
  have hagree := subcommands_agree w {} "program"
  rw [hfound] at hagree
  obtain ⟨hsame, herrors, hfirst, -⟩ := hagree false
  obtain ⟨hparsed, first, others, hcomplaints, -, hmessage⟩ :=
    hfirst (congrArg Ending.status hlisted)
  obtain ⟨hequal, -, hnothing⟩ := herrors hparsed
  rw [hscan] at hcomplaints
  cases hcomplaints
  exact ⟨hparsed, hsame.mp hparsed, hnothing, hequal.symm.trans hmessage⟩

end DivisionScript.CommandLine
