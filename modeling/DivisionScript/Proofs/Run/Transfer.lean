import DivisionScript.Program.Outline
import DivisionScript.Proofs.Number.ReadBack
import DivisionScript.Proofs.Run.Reading
import DivisionScript.Proofs.Run.Truncation
import DivisionScript.Proofs.Token.Bytes

/-!
# Run — Transfer

Numbers on their way from one run to another. What is written for a number is read back as that
number by both readers of the language, that of strings and that of lines. So if a session prints
numbers and nothing else, and its output is the input of another session, then the numbers that the
other session reads are those numbers in the same order.
-/

namespace DivisionScript

open Number

/-! ## Padded texts -/

namespace Text

variable {before cs after : List Char}

/-- A line that holds a text and white space around it. -/
def Padded (text line : String) : Prop :=
  ∃ before after : String, (∀ c ∈ before.toList, isBlank c) ∧ (∀ c ∈ after.toList, isBlank c) ∧
    line = before ++ text ++ after

theorem dropWhile_padding (hbefore : ∀ c ∈ before, isBlank c)
    (hcs : ∀ c ∈ cs, isBlank c = false) : (before ++ cs).dropWhile isBlank = cs := by
  rw [List.dropWhile_append_of_pos hbefore]
  cases cs with
  | nil => rfl
  | cons c cs => exact List.dropWhile_cons_of_neg (by simp [hcs c List.mem_cons_self])

/-- Trimming leaves what there is between the white space at the two ends. -/
theorem trimChars_padded (hbefore : ∀ c ∈ before, isBlank c) (hcs : ∀ c ∈ cs, isBlank c = false)
    (hafter : ∀ c ∈ after, isBlank c) : trimChars (before ++ cs ++ after) = cs := by
  have hreverse : (after.reverse ++ cs.reverse).dropWhile isBlank = cs.reverse :=
    dropWhile_padding (by simpa using hafter) (by simpa using hcs)
  cases cs with
  | nil =>
    have hall : (before ++ [] ++ after).dropWhile isBlank = [] := by
      rw [List.append_nil, List.dropWhile_append_of_pos hbefore]
      simpa using hafter
    rw [trimChars, hall]
    rfl
  | cons c cs =>
    have hfirst : (before ++ (c :: cs) ++ after).dropWhile isBlank = c :: cs ++ after := by
      rw [List.append_assoc, List.dropWhile_append_of_pos hbefore]
      exact List.dropWhile_cons_of_neg (by simp [hcs c List.mem_cons_self])
    rw [trimChars, hfirst, List.reverse_append, hreverse, List.reverse_reverse]

theorem trim_padded {text line : String} (h : Padded text line)
    (htext : ∀ c ∈ text.toList, isBlank c = false) : trim line = text := by
  obtain ⟨before, after, hbefore, hafter, rfl⟩ := h
  rw [trim, String.toList_append, String.toList_append, trimChars_padded hbefore htext hafter,
    String.ofList_toList]

end Text

/-! ## One number -/

/-- What is written for a number: when it is printed, in the literal part of a token, and in an
outline. -/
inductive Rendering (x : Float) : String → Prop
  | printed : Rendering x (Value.number x).text
  | literal {t : Token} (h : t.kind = .number x) : Rendering x t.literalText
  | outline : Rendering x (String.ofList (Expr.number x).outline)

theorem Rendering.readsBack {x : Float} {text : String} (h : Rendering x text) :
    ReadsBack x text := by
  cases h with
  | printed => exact valueText_readsBack x
  | @literal t h =>
    have htext : t.literalText = Number.literalText x := by rw [Token.literalText, h]
    rw [htext]
    exact literalText_readsBack x
  | outline =>
    have htext : String.ofList (Expr.number x).outline = outlineText x := by
      rw [Expr.outline, Expr.outlineOnto, List.append_nil, String.ofList_toList]
    rw [htext]
    exact outlineText_readsBack x

theorem lineText?_bytes (line : String) : Input.lineText? (bytes line) = some line := by
  rw [Input.lineText?, String.fromUTF8?]
  exact dif_pos line.isValidUTF8

namespace Run

variable {settings : Settings} {m : Machine} {x y : Float} {text line : String}
variable {rest : List (List UInt8)}

theorem readNumber_of_line (number : Nat) (hlines : m.input.lines = bytes line :: rest)
    (hread : Number.ofString? (Text.trim line) = some y) :
    ∃ log, readNumber number "" m = .ok y { m with input := ⟨rest⟩, log } := by
  have hnumber : Input.number (bytes line) = .ok y := by
    rw [Input.number, lineText?_bytes]
    dsimp only
    rw [hread]
  rw [readNumber_of_cons number hlines, hnumber]
  exact ⟨_, rfl⟩

/-- A prompt fits into an output that stores everything. -/
theorem asked_fits {output : Output} {prompt : String}
    (hasked : prompt = "" ∨ output.limit = none) : (output.asked prompt).2 := by
  rw [Output.asked]
  split
  · rfl
  · next hprompt => rw [Output.write, hasked.resolve_left hprompt]

/-- Whatever is asked with, a number is read from the next line. -/
theorem readNumber_prompted (number : Nat) {prompt : String}
    (hasked : prompt = "" ∨ m.output.limit = none) :
    ∃ output, readNumber number prompt m = readNumber number "" { m with output } := by
  rw [readNumber_asked, if_pos (asked_fits hasked)]
  exact ⟨_, rfl⟩

end Run

open Run

/-- Reading a text that is read as a number, with white space around it: as a string, and as a line
of the input. -/
theorem Number.ReadsBack.both {x : Float} {text : String} (h : ReadsBack x text) :
    ∃ y, Same x y ∧ ∀ line, Text.Padded text line →
      (Value.string line).asNumber = .ok y ∧
      ∀ number prompt (m : Machine) rest, (prompt = "" ∨ m.output.limit = none) →
        m.input.lines = bytes line :: rest → ∃ output log,
          readNumber number prompt m = .ok y { m with input := ⟨rest⟩, output, log } := by
  obtain ⟨y, hread, hsame⟩ := h.read
  refine ⟨y, hsame, fun line hline => ?_⟩
  have htrim : Number.ofString? (Text.trim line) = some y := by
    rw [Text.trim_padded hline h.unblank, hread]
  refine ⟨?_, fun number prompt m rest hasked hlines => ?_⟩
  · rw [Value.asNumber, htrim]
  · obtain ⟨output, hprompted⟩ := readNumber_prompted number hasked
    obtain ⟨log, hnumber⟩ := readNumber_of_line (m := { m with output }) number hlines htrim
    exact ⟨output, log, hprompted.trans hnumber⟩

/-! ## Lines of numbers -/

/-- The line that a number is printed on. -/
def numberLine (x : Float) : String :=
  (Value.number x).text ++ "\n"

theorem padded_numberLine (x : Float) : Text.Padded (Value.number x).text (numberLine x) :=
  ⟨"", "\n", by simp, by simp; decide, by rw [numberLine, String.empty_append]⟩

theorem Input.splitLines_append {line : List UInt8} (h : 10 ∉ line) (more : List UInt8) :
    splitLines (line ++ 10 :: more) = (line ++ [10]) :: splitLines more := by
  induction line with
  | nil => rw [List.nil_append, splitLines, if_pos rfl, List.nil_append]
  | cons b line ih =>
    obtain ⟨hb, hline⟩ := List.ne_and_not_mem_of_not_mem_cons h
    rw [List.cons_append, splitLines, if_neg hb.symm, ih hline]
    rfl

theorem newline_not_mem {text : String} (h : ∀ c ∈ text.toList, Text.isBlank c = false) :
    10 ∉ bytes text := by
  have hcount := count_encode (d := '\n') (by decide) text.toList
  rw [← bytes_eq_encode] at hcount
  rw [← List.count_eq_zero]
  refine hcount.trans (List.count_eq_zero.mpr fun hmem => ?_)
  exact absurd (h _ hmem) (by decide)

/-- The lines of printed numbers, one after another, are split up again. -/
theorem splitLines_numbers (xs : List Float) :
    Input.splitLines (xs.flatMap fun x => bytes (numberLine x)) =
      xs.map fun x => bytes (numberLine x) := by
  induction xs with
  | nil => rfl
  | cons x xs ih =>
    have hline : bytes (numberLine x) = bytes (Value.number x).text ++ [10] := by
      rw [numberLine, bytes_eq_encode, String.toList_append, encode_append, ← bytes_eq_encode]
      rfl
    have hnone := newline_not_mem (valueText_readsBack x).unblank
    rw [List.flatMap_cons, List.map_cons, ← ih, hline, List.append_assoc]
    exact Input.splitLines_append hnone _

/-! ## Sessions -/

section sessions

variable {settings : Settings} {start m : Machine} {past : List Config} {c c' : Config}

/-- What the next step shows. -/
def Config.shown (c : Config) : String :=
  c.next?.elim "" (·.shown c.machine.environment)

/-- Whether the next step reads a number. -/
def Config.reads (c : Config) : Bool :=
  c.next?.any Stmt.reads

/-- A step that begins no statement shows nothing. -/
theorem Config.step_mute (h : c.step settings = some c') (hnone : c.next? = none) :
    c'.machine.output = c.machine.output := by
  obtain ⟨m, task, rest, ⟨rfl, rfl⟩ | ⟨failure, rfl, rfl⟩⟩ := step_eq_some h
  · rw [machine_after]
    cases task with
    | statement => cases hnone
    | _ => exact (Task.mute_perform settings (by exact nofun)).keeps m
  · exact task.output_giveUp m

/-- An output that stores everything stores what the steps show. -/
theorem Config.step_shown (h : c.step settings = some c')
    (hfree : c.machine.output.limit = none) :
    c'.machine.output = ⟨none, c.machine.output.stored ++ c.shown.toUTF8⟩ := by
  rcases step_sources h with ⟨m, s, rest, rfl, hbegin⟩ | ⟨hnone, -⟩
  · rw [hbegin]
    exact (capped_begin settings hfree (Nat.le_refl _) s).adds
  · rw [step_mute h hnone, shown, hnone, Option.elim_none, append_toUTF8_empty, ← hfree]

theorem Session.output_eq (h : Session settings start past c) (hfree : start.output.limit = none) :
    c.machine.output.limit = none ∧ c.machine.output.stored.data.toList =
      start.output.stored.data.toList ++ past.reverse.flatMap fun place => bytes place.shown := by
  induction h with
  | opened => exact ⟨hfree, (List.append_nil _).symm⟩
  | @ordered past c h hover order ih =>
    have hidle : c.shown = "" := by
      rw [Config.shown, Config.next?_of_halted hover]
      rfl
    rw [List.reverse_cons, List.flatMap_append, List.flatMap_singleton, hidle]
    have hnone : bytes "" = [] := rfl
    rw [hnone, List.append_nil]
    exact ih
  | @stepped past c c' h hstep ih =>
    obtain ⟨hlimit, hstored⟩ := ih
    rw [Config.step_shown hstep hlimit, List.reverse_cons, List.flatMap_append,
      List.flatMap_singleton, ← List.append_assoc, ← hstored, ByteArray.data_append,
      Array.toList_append]
    exact ⟨rfl, rfl⟩

/-- Where every prompt fits, each statement that reads a number takes a line. -/
theorem Config.takesLine_eq_reads (hfree : c.machine.output.limit = none) :
    c.takesLine = c.reads := by
  rw [takesLine, reads]
  cases c.next? with
  | none => rfl
  | some s =>
    cases s with
    | input line name prompt => exact asked_fits (.inr hfree)
    | _ => rfl

/-- The lines that are left are those after the ones that statements have read. -/
theorem Session.lines_eq (h : Session settings start past c) (hfree : start.output.limit = none) :
    c.machine.input.lines = start.input.lines.drop (past.countP Config.reads) := by
  induction h with
  | opened => rfl
  | @ordered past c h hover order ih =>
    have hidle : ¬ c.reads := by
      rw [Config.reads, Config.next?_of_halted hover]
      exact nofun
    rw [List.countP_cons_of_neg hidle]
    exact ih
  | @stepped past c c' h hstep ih =>
    rw [List.countP_cons, ← List.drop_drop, ← ih, Config.step_lines hstep,
      Config.takesLine_eq_reads (h.output_eq hfree).1]
    split
    · rw [List.drop_one]
    · rfl

/-- A session that began with nothing stored has shown the numbers `xs`, each on a line of its own,
and nothing else. -/
structure Prints (settings : Settings) (start : Machine) (past : List Config) (c : Config)
    (xs : List Float) : Prop where
  session : Session settings start past c
  output : start.output = .unlimited
  shown : (past.reverse.map Config.shown).filter (· ≠ "") = xs.map numberLine

theorem flatMap_bytes_filter (texts : List String) :
    (texts.filter (· ≠ "")).flatMap bytes = texts.flatMap bytes := by
  induction texts with
  | nil => rfl
  | cons text texts ih =>
    by_cases htext : text = ""
    · subst htext
      rw [List.filter_cons_of_neg (by simp), ih]
      rfl
    · rw [List.filter_cons_of_pos (by simpa using htext), List.flatMap_cons, List.flatMap_cons, ih]

/-- What such a session has stored is the lines of its numbers. -/
theorem Prints.stored {xs : List Float} (h : Prints settings start past c xs) :
    c.machine.output.stored.data.toList = xs.flatMap fun x => bytes (numberLine x) := by
  have hfree : start.output.limit = none := by
    rw [h.output]
    rfl
  have hempty : start.output.stored.data.toList = [] := by
    rw [h.output]
    rfl
  rw [(h.session.output_eq hfree).2, hempty, List.nil_append, ← List.flatMap_map,
    ← flatMap_bytes_filter, h.shown, List.flatMap_map]

/-! Every list of numbers is printed by a session. -/

/-- A statement that leaves nothing to be done can be carried out next. -/
theorem Session.statement (h : Session settings start past c) (hover : c.Halted) {s : Stmt}
    (hsimple : ∀ {tasks m m'}, s.Begun settings m tasks m' → tasks = []) :
    ∃ c', Session settings start (⟨c.machine, [.statement s], none⟩ :: c :: past) c' ∧ c'.Halted ∧
      c'.machine = left (Run.statement settings s c.machine) := by
  let c' : Config := .after [] (s.begin settings c.machine)
  have hstep : Config.step settings ⟨c.machine, [.statement s], none⟩ = some c' :=
    Config.step_perform c.machine (.statement s) []
  have hover' : c'.Halted := by
    simp only [c']
    cases hbegin : s.begin settings c.machine with
    | error failure m => rfl
    | ok tasks m =>
      rw [hsimple (Stmt.begun hbegin)]
      rfl
  have hrun : (Order.statement s).run settings c.machine = c'.result :=
    Order.run_eq (.single hstep) hover'
  exact ⟨c', (h.ordered hover (.statement s)).stepped hstep, hover', Config.machine_eq hrun.symm⟩

theorem numberLine_ne (x : Float) : numberLine x ≠ "" := by
  intro h
  have htext := congrArg String.toList h
  rw [numberLine, String.toList_append] at htext
  exact absurd (List.append_eq_nil_iff.mp htext).2 (by decide)

/-- A session that has printed numbers can print another one. -/
theorem Prints.print {xs : List Float} (h : Prints settings start past c xs) (hover : c.Halted)
    (line : Nat) (x : Float) : ∃ past' c', Prints settings start past' c' (xs ++ [x]) ∧ c'.Halted ∧
      c'.machine = left (Run.statement settings (.print line (.number x)) c.machine) := by
  obtain ⟨c', hsession, hover', hmachine⟩ :=
    h.session.statement hover (s := .print line (.number x)) fun hbegun => by cases hbegun; rfl
  refine ⟨_, c', ⟨hsession, h.output, ?_⟩, hover', hmachine⟩
  have hidle : c.shown = "" := by
    rw [Config.shown, Config.next?_of_halted hover]
    rfl
  have hnext : Config.shown ⟨c.machine, [.statement (.print line (.number x))], none⟩ =
      numberLine x := rfl
  simp only [List.reverse_cons, List.map_append, List.map_cons, List.map_nil, List.filter_append,
    h.shown, hidle, hnext]
  simp [numberLine_ne]

/-- Numbers are printed by orders to print them one after another. -/
theorem Prints.printEach {xs : List Float} (h : Prints settings start past c xs)
    (hover : c.Halted) (ys : List Float) :
    ∃ past' c', Prints settings start past' c' (xs ++ ys) ∧
      c'.machine =
        carryOut settings (ys.map fun y => .statement (.print 1 (.number y))) c.machine := by
  induction ys generalizing xs past c with
  | nil => exact ⟨past, c, by rwa [List.append_nil], rfl⟩
  | cons y ys ih =>
    obtain ⟨past', c', hprints, hover', hmachine⟩ := h.print hover 1 y
    obtain ⟨past'', c'', hprints', hmachine'⟩ := ih hprints hover'
    rw [List.append_assoc] at hprints'
    rw [hmachine] at hmachine'
    exact ⟨past'', c'', hprints', hmachine'⟩

end sessions

theorem statement_input (settings : Settings) (line : Nat) (name prompt : String) (m : Machine) :
    Run.statement settings (.input line name prompt) m =
      readInto settings line name prompt { m with log := m.log.note (.executing line) } :=
  rfl

/-- Numbers are transferred unchanged. Everything that is written for a number, with or without
white space around it, is read as a number that equals it, or is NaN as it is, both as a string and
as a line of the input. Let a session have printed the numbers `xs` and shown nothing else, and let
what it has stored be the input of another session. Wherever this session is about to begin a
statement that reads a number, if it has begun as many of them before as there are numbers before
`x` in `xs`, then the name of the statement is written with a number that equals `x`, or is NaN as
it is. -/
theorem numbers_are_transferred :
    (∀ x text, Rendering x text → ∃ y, Same x y ∧ ∀ line, Text.Padded text line →
      (Value.string line).asNumber = .ok y ∧
      ∀ number prompt (m : Machine) rest, (prompt = "" ∨ m.output.limit = none) →
        m.input.lines = bytes line :: rest → ∃ output log,
          Run.readNumber number prompt m = .ok y { m with input := ⟨rest⟩, output, log }) ∧
    ∀ {settings settings' : Settings} {start start' m : Machine} {past past' : List Config}
      {c : Config} {xs : List Float} {line : Nat} {name prompt : String} {rest : List Task}
      {x : Float},
      Prints settings start past c xs →
      Session settings' start' past' ⟨m, .statement (.input line name prompt) :: rest, none⟩ →
      start'.output.limit = none →
      start'.input = .ofBytes c.machine.output.stored.data.toList →
      xs[past'.countP Config.reads]? = some x →
      ∃ y input output log, Same x y ∧
        Run.statement settings' (.input line name prompt) m =
          Run.bind settings' line name (.number y) { m with input, output, log } := by
  refine ⟨fun x text h => h.readsBack.both, ?_⟩
  intro settings settings' start start' m past past' c xs line name prompt rest x hprints hreader
    hfree hinput hx
  obtain ⟨y, hsame, hboth⟩ := (valueText_readsBack x).both
  obtain ⟨-, hline⟩ := hboth (numberLine x) (padded_numberLine x)
  have hlines : m.input.lines =
      (xs.map fun x => bytes (numberLine x)).drop (past'.countP Config.reads) := by
    rw [hreader.lines_eq hfree, hinput, Input.ofBytes, hprints.stored, splitLines_numbers]
  obtain ⟨hlt, hget⟩ := List.getElem?_eq_some_iff.mp hx
  rw [List.drop_eq_getElem_cons (by rwa [List.length_map]), List.getElem_map, hget] at hlines
  let noted : Machine := { m with log := m.log.note (.executing line) }
  obtain ⟨output, log, hread⟩ := hline line prompt noted _ (.inr (hreader.output_eq hfree).1) hlines
  exact ⟨y, _, output, log, hsame, (statement_input ..).trans (bind_ok hread)⟩

/-- Three numbers that one session prints and another one reads, into three names. -/
theorem numbers_are_transferred_in_order :
    let settings : Settings := { enforceConstants := false }
    let print (x : Float) : Order := .statement (.print 1 (.number x))
    let read (name : String) : Order := .statement (.input 1 name "")
    let written := carryOut {} [print 0.1, print 3, print 1e300]
      (.initial {} 0 ⟨[]⟩ .unlimited .off)
    let input : Input := .ofBytes written.output.stored.data.toList
    let last := carryOut settings [read "a", read "b", read "c"]
      (.initial settings 0 input .unlimited .off)
    ∃ x y z, Same 0.1 x ∧ Same 3 y ∧ Same 1e300 z ∧
      last.environment.get "a" = .ok (.number x) ∧ last.environment.get "b" = .ok (.number y) ∧
      last.environment.get "c" = .ok (.number z) := by
  intro settings print read written input last
  obtain ⟨-, htransfer⟩ := numbers_are_transferred
  let start : Machine := .initial {} 0 ⟨[]⟩ .unlimited .off
  let reader : Machine := .initial settings 0 input .unlimited .off
  have hempty : Prints {} start [] ⟨start, [], none⟩ [] := ⟨.opened, rfl, rfl⟩
  obtain ⟨past, c, hprints, hmachine⟩ := hempty.printEach rfl [0.1, 3, 1e300]
  -- The next number is read where as many have been read as there are before it.
  have hread {past' : List Config} {c' : Config} {k : Nat} {x : Float} (name : String)
      (hsession : Session settings reader past' c') (hover : c'.Halted)
      (hcount : past'.countP Config.reads = k) (hx : [0.1, 3, 1e300][k]? = some x) :
      ∃ past'' c'' y, Session settings reader past'' c'' ∧ c''.Halted ∧
        past''.countP Config.reads = k + 1 ∧ Same x y ∧
        c''.machine = left ((read name).run settings c'.machine) ∧
        c''.machine.environment = c'.machine.environment.set name (.number y) := by
    have hidle : c'.reads = false := by
      rw [Config.reads, Config.next?_of_halted hover]
      rfl
    have hcount' : (c' :: past').countP Config.reads = k := by
      rw [List.countP_cons_of_neg (by simp [hidle]), hcount]
    obtain ⟨y, input', output, log, hsame, hrun⟩ := htransfer hprints
      (hsession.ordered hover (read name)) rfl (by rw [hmachine]; rfl) (by rw [hcount']; exact hx)
    obtain ⟨c'', hsession', hover', hmachine'⟩ :=
      hsession.statement hover (s := .input 1 name "") fun hbegun => by cases hbegun; rfl
    refine ⟨_, c'', y, hsession', hover', ?_, hsame, hmachine', ?_⟩
    · rw [List.countP_cons_of_pos rfl, hcount']
    · rw [hmachine', hrun]
      rfl
  obtain ⟨_, c₁, x, h₁, hover₁, hcount₁, hx, hmachine₁, henvironment₁⟩ :=
    hread "a" .opened rfl rfl rfl
  obtain ⟨_, c₂, y, h₂, hover₂, hcount₂, hy, hmachine₂, henvironment₂⟩ :=
    hread "b" h₁ hover₁ hcount₁ rfl
  obtain ⟨_, c₃, z, -, -, -, hz, hmachine₃, henvironment₃⟩ :=
    hread "c" h₂ hover₂ hcount₂ rfl
  have hlast : last = c₃.machine := by
    rw [hmachine₃, hmachine₂, hmachine₁]
    rfl
  refine ⟨x, y, z, hx, hy, hz, ?_⟩
  rw [hlast, henvironment₃, henvironment₂, henvironment₁]
  simp [Environment.get, Environment.binding?_set]

end DivisionScript
