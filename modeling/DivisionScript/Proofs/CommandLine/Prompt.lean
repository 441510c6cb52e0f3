import DivisionScript.CommandLine.Command
import DivisionScript.Proofs.CommandLine.LogFile
import DivisionScript.Proofs.Layout
import DivisionScript.Proofs.Run.Behind
import DivisionScript.Proofs.Run.Intake
import DivisionScript.Proofs.Run.Truncation

/-!
# Command line — Prompt

A session at the prompt, one turn after another. A turn asks for a line and does what the line asks
for. With a seed, nothing of a turn has an influence on later ones but the lines that it has taken:
consoles that differ in what has been shown before, in the reports of their logs and in the origin
of random numbers go through a session alike (`Echoes`), so the rest of a session is a session that
starts with the lines that are left.
-/

namespace DivisionScript.CommandLine

open Run

/-- What becomes of a session in a turn. -/
inductive Turn where
  | ended (c : Console) (ending : Ending)
  | asking (c : Console)

namespace Console

/-- The console that a command starts with. -/
def opening (log : Log) (clock : Nat) : Console :=
  ⟨.ofBytes [], .unlimited, "", log, clock, 0⟩

/-- The bytes that have not been read. -/
def unread (c : Console) : List UInt8 :=
  c.input.lines.flatten

/-- The console once a line has been asked for and taken. -/
def asked (c : Console) (rest : List (List UInt8)) : Console :=
  { c.display "$ " with input := ⟨rest⟩ }.renewed

section turns

variable (tree : FileTree) (settings : Settings)

/-- The text that a line at the prompt asks to run: the line itself, or what is in a file. -/
def reading? (c : Console) : PromptLine → Option (Except Trouble String)
  | .source text => some (.ok text)
  | .load name => some (c.read tree (joinPath settings.programDir name))
  | .nothing | .leave => none

/-- What a line at the prompt leads to. -/
def answer (c : Console) (line : PromptLine) : Turn :=
  match c.reading? tree settings line with
  | some (.ok text) => .asking (c.run settings text).1
  | some (.error t) => .asking (c.complain t.summary)
  | none => if line = .leave then .ended c .success else .asking c

/-- A turn: the prompt, a line, and what it leads to. -/
def turn (c : Console) : Turn :=
  match c.input.lines with
  | [] => .ended (c.display "$ ") .success
  | bytes :: rest =>
    match Input.lineText? bytes with
    | none => .ended ((c.asked rest).stop .inputNotText).1 .trouble
    | some line => (c.asked rest).answer tree settings (.of line)

/-- The rest of a session, from a prompt on. -/
def session (c : Console) : Console × Ending :=
  c.repl (World.ofTree tree []) settings (c.input.lines.length + 1)

/-- A session that goes on with the console `c` has come to the prompt with it. -/
abbrev Prompted (start c : Console) : Prop :=
  Relation.ReflTransGen (fun c c' => turn tree settings c = .asking c') start c

end turns

end Console

variable {tree : FileTree} {settings : Settings} {c c' start : Console}

namespace Console

section run

variable {text : String}

/-- A text that is no program is complained about. -/
theorem run_of_error (c : Console) {e : SourceError} (h : (Source.program text).result = .error e)
    (settings : Settings) : ∃ log, log.threshold = c.log.threshold ∧
      c.run settings text = ({ c with log }.complain e.message, .badSource) := by
  rw [run, h]
  exact ⟨_, Log.threshold_noteAll .., rfl⟩

/-- The console with what a run of a program has left of its input and of its output, and how the
run has ended. -/
def ended (c : Console) (log : Log) : EStateM.Result Failure Machine Unit → Console × Ending
  | .ok _ m => ({ c with input := m.input, output := m.output, log }, .success)
  | .error failure m =>
    ({ c with input := m.input, output := m.output, log }.complain failure.message, .badRun)

/-- A program is run as it would be if nothing were reported. -/
theorem run_of_ok (c : Console) {p : Program} (h : (Source.program text).result = .ok p)
    (settings : Settings) : ∃ log, log.threshold = c.log.threshold ∧
      c.run settings text = c.ended log
        (Run.program settings p (.initial settings c.entropy c.input c.output .off)) := by
  let start := Machine.initial settings c.entropy c.input c.output
    (c.log.noteAll (Source.program text).events)
  have hsilent : Run.program settings p (.initial settings c.entropy c.input c.output .off) =
      unreportedResult (Run.program settings p start) :=
    Order.run_unreported settings (.program p) start
  have hkept : (left (Run.program settings p start)).log.threshold = c.log.threshold :=
    (Order.threshold_run settings (.program p) start).trans
      ((Log.threshold_note ..).trans (Log.threshold_noteAll ..))
  refine ⟨(left (Run.program settings p start)).log, hkept, ?_⟩
  rw [hsilent, run, h]
  dsimp only
  cases Run.program settings p start <;> rfl

end run

section line

variable {line : List UInt8} {rest : List (List UInt8)}

theorem turn_nil (hlines : c.input.lines = []) :
    c.turn tree settings = .ended (c.display "$ ") .success := by
  rw [turn, hlines]

theorem turn_stop (hlines : c.input.lines = line :: rest) (htext : Input.lineText? line = none) :
    c.turn tree settings = .ended ((c.asked rest).stop .inputNotText).1 .trouble := by
  rw [turn, hlines]
  dsimp only
  rw [htext]

theorem turn_answer {text : String} (hlines : c.input.lines = line :: rest)
    (htext : Input.lineText? line = some text) :
    c.turn tree settings = (c.asked rest).answer tree settings (.of text) := by
  rw [turn, hlines]
  dsimp only
  rw [htext]

end line

end Console

/-! ## Turns take lines -/

/-- The second console has taken lines from the front of the input of the first one, and writes and
reports in the same way. -/
structure Continues (c c' : Console) : Prop where
  input : c'.input.lines <:+ c.input.lines
  limit : c.output.limit = none → c'.output.limit = none
  threshold : c'.log.threshold = c.log.threshold

namespace Continues

theorem refl (c : Console) : Continues c c :=
  ⟨List.suffix_rfl, id, rfl⟩

theorem trans {c'' : Console} (h : Continues c c') (h' : Continues c' c'') : Continues c c'' :=
  ⟨h'.input.trans h.input, h'.limit ∘ h.limit, h'.threshold.trans h.threshold⟩

theorem asked {line : List UInt8} {rest : List (List UInt8)} (h : c.input.lines = line :: rest) :
    Continues c (c.asked rest) where
  input := h ▸ List.suffix_cons line rest
  limit hfree := (Output.limit_write c.output "$ ").trans hfree
  threshold := rfl

theorem run (c : Console) (settings : Settings) (text : String) :
    Continues c (c.run settings text).1 := by
  cases hresult : (Source.program text).result with
  | error e =>
    obtain ⟨log, hlevel, hrun⟩ := c.run_of_error hresult settings
    rw [hrun]
    exact ⟨List.suffix_rfl, id, hlevel⟩
  | ok p =>
    obtain ⟨log, hlevel, hrun⟩ := c.run_of_ok hresult settings
    let start := Machine.initial settings c.entropy c.input c.output .off
    have htakes : (left (Run.program settings p start)).input.lines <:+ c.input.lines :=
      Order.takes settings (.program p) start
    have hlimit : start.output.limit = none →
        (left (Run.program settings p start)).output.limit = none :=
      Order.limit_run settings (.program p)
    rw [hrun]
    cases hresult : Run.program settings p start <;> rw [hresult] at htakes hlimit <;>
      exact ⟨htakes, hlimit, hlevel⟩

theorem answer {line : PromptLine} (h : c.answer tree settings line = .asking c') :
    Continues c c' := by
  rw [Console.answer] at h
  split at h
  · cases h
    exact run c settings _
  · cases h
    exact ⟨List.suffix_rfl, id, rfl⟩
  · split at h <;> cases h
    exact refl c

end Continues

namespace Console

/-- A turn takes at least a line. -/
theorem turn_continues (h : c.turn tree settings = .asking c') :
    ∃ line rest, c.input.lines = line :: rest ∧ Continues (c.asked rest) c' := by
  cases hlines : c.input.lines with
  | nil =>
    rw [turn_nil hlines] at h
    cases h
  | cons line rest =>
    cases htext : Input.lineText? line with
    | none =>
      rw [turn_stop hlines htext] at h
      cases h
    | some text =>
      rw [turn_answer hlines htext] at h
      exact ⟨line, rest, rfl, .answer h⟩

theorem turn_shorter (h : c.turn tree settings = .asking c') :
    c'.input.lines.length < c.input.lines.length := by
  obtain ⟨line, rest, hlines, hcontinues⟩ := turn_continues h
  rw [hlines]
  exact Nat.lt_succ_of_le hcontinues.input.length_le

theorem Prompted.continues (h : Prompted tree settings start c) : Continues start c := by
  induction h with
  | refl => exact .refl start
  | tail _ hturn ih =>
    obtain ⟨line, rest, hlines, hcontinues⟩ := turn_continues hturn
    exact ih.trans ((Continues.asked hlines).trans hcontinues)

/-! ## A session is its turns -/

/-- Asking for a line is a turn, whatever the standard input once held. -/
theorem repl_succ (bytes : List UInt8) (lines : Nat) (c : Console) :
    c.repl (World.ofTree tree bytes) settings (lines + 1) =
      match c.turn tree settings with
      | .ended c' ending => (c', ending)
      | .asking c' => c'.repl (World.ofTree tree bytes) settings lines := by
  have hinput : (c.display "$ ").input = c.input := rfl
  rw [repl, turn]
  dsimp only
  cases hlines : c.input.lines with
  | nil =>
    have hnext : (c.display "$ ").input.next? = none := by rw [hinput, Input.next?, hlines]
    rw [hnext]
    rfl
  | cons line rest =>
    have hnext : (c.display "$ ").input.next? = some (line, ⟨rest⟩) := by
      rw [hinput, Input.next?, hlines]
    rw [hnext]
    dsimp only
    cases Input.lineText? line with
    | none => rfl
    | some text =>
      dsimp only
      cases PromptLine.of text with
      | nothing | leave | source => rfl
      | load name =>
        have hasked : { c.display "$ " with input := ⟨rest⟩ }.renewed = c.asked rest := rfl
        have hread : (openPath (World.ofTree tree bytes) (c.asked rest)
            (joinPath settings.programDir name)).source (joinPath settings.programDir name) =
              (c.asked rest).read tree (joinPath settings.programDir name) := rfl
        have hopened (opened : Id Opened) (next : Opened → Id (Console × Ending)) :
            opened >>= next = next opened := rfl
        dsimp only
        rw [answer, reading?, hasked, hopened, hread]
        cases (c.asked rest).read tree (joinPath settings.programDir name) <;> rfl

theorem repl_enough {bytes bytes' : List UInt8} {lines lines' : Nat}
    (h : c.input.lines.length < lines) (h' : c.input.lines.length < lines') :
    c.repl (World.ofTree tree bytes) settings lines =
      c.repl (World.ofTree tree bytes') settings lines' := by
  induction lines generalizing c lines' with
  | zero => exact absurd h (Nat.not_lt_zero _)
  | succ lines ih =>
    obtain ⟨lines', rfl⟩ : ∃ k, lines' = k + 1 := ⟨lines' - 1, by omega⟩
    rw [repl_succ, repl_succ]
    cases hturn : c.turn tree settings with
    | ended => rfl
    | asking c' =>
      have hshorter := turn_shorter hturn
      exact ih (by omega) (by omega)

theorem session_eq (c : Console) :
    c.session tree settings =
      match c.turn tree settings with
      | .ended c' ending => (c', ending)
      | .asking c' => c'.session tree settings := by
  rw [session, repl_succ]
  cases hturn : c.turn tree settings with
  | ended => rfl
  | asking c' => exact repl_enough (turn_shorter hturn) (Nat.lt_succ_self _)

/-- Every session comes to a last prompt. -/
theorem session_ends (tree : FileTree) (settings : Settings) (c : Console) :
    ∃ last, Prompted tree settings c last ∧
      last.turn tree settings = .ended (c.session tree settings).1 (c.session tree settings).2 := by
  induction hlength : c.input.lines.length using Nat.strong_induction_on generalizing c with
  | h length ih =>
    rw [session_eq]
    cases hturn : c.turn tree settings with
    | ended c' ending => exact ⟨c, .refl, hturn⟩
    | asking c' =>
      have hshorter : c'.input.lines.length < length := hlength ▸ turn_shorter hturn
      obtain ⟨last, hlast, hended⟩ := ih _ hshorter c' rfl
      exact ⟨last, .head hturn hlast, hended⟩

end Console

/-! ## Sessions that were different before -/

/-- The second console has shown something before, has complained about something before and may
have made other reports. -/
structure Echoes (shown : ByteArray) (complaints : String) (c c' : Console) : Prop where
  input : c'.input = c.input
  output : c'.output = c.output.behind shown
  errors : c'.errors = complaints ++ c.errors
  threshold : c'.log.threshold = c.log.threshold

/-- Two turns lead to the same, but for what the second console has shown before. -/
inductive Turn.Echoes (shown : ByteArray) (complaints : String) : Turn → Turn → Prop
  | ended {c c' : Console} (h : CommandLine.Echoes shown complaints c c') (ending : Ending) :
      Turn.Echoes shown complaints (.ended c ending) (.ended c' ending)
  | asking {c c' : Console} (h : CommandLine.Echoes shown complaints c c') :
      Turn.Echoes shown complaints (.asking c) (.asking c')

namespace Echoes

variable {shown : ByteArray} {complaints : String} (h : Echoes shown complaints c c')
include h

theorem display (text : String) : Echoes shown complaints (c.display text) (c'.display text) where
  input := h.input
  output := by rw [Console.display, Console.display, h.output, Output.write_behind]
  errors := h.errors
  threshold := h.threshold

theorem complain (text : String) :
    Echoes shown complaints (c.complain text) (c'.complain text) where
  input := h.input
  output := h.output
  errors := by simp only [Console.complain, h.errors, String.append_assoc]
  threshold := h.threshold

theorem stop (t : Trouble) : Echoes shown complaints (c.stop t).1 (c'.stop t).1 where
  input := h.input
  output := h.output
  errors := by simp only [Console.stop, h.errors, String.append_assoc]
  threshold := h.threshold

theorem asked (rest : List (List UInt8)) :
    Echoes shown complaints (c.asked rest) (c'.asked rest) where
  input := rfl
  output := (h.display "$ ").output
  errors := h.errors
  threshold := h.threshold

theorem ended {log log' : Log} (hlevel : log'.threshold = log.threshold)
    (result : EStateM.Result Failure Machine Unit) :
    Echoes shown complaints (c.ended log result).1
        (c'.ended log' (mapResult (Machine.behind shown) id result)).1 ∧
      (c'.ended log' (mapResult (Machine.behind shown) id result)).2 = (c.ended log result).2 := by
  cases result with
  | ok _ m => exact ⟨⟨rfl, rfl, h.errors, hlevel⟩, rfl⟩
  | error failure m => exact ⟨⟨rfl, rfl, (h.complain failure.message).errors, hlevel⟩, rfl⟩

/-- A text is run in the same way, and so is any other one of which the same program becomes. -/
theorem run (hseed : settings.seed.isSome) {text text' : String}
    (htext : (Source.program text').result = (Source.program text).result) :
    Echoes shown complaints (c.run settings text).1 (c'.run settings text').1 ∧
      (c'.run settings text').2 = (c.run settings text).2 := by
  cases hresult : (Source.program text).result with
  | error e =>
    obtain ⟨log, hlevel, hrun⟩ := c.run_of_error hresult settings
    obtain ⟨log', hlevel', hrun'⟩ := c'.run_of_error (htext.trans hresult) settings
    rw [hrun, hrun']
    exact ⟨⟨h.input, h.output, (h.complain e.message).errors,
      hlevel'.trans (h.threshold.trans hlevel.symm)⟩, rfl⟩
  | ok p =>
    obtain ⟨log, hlevel, hrun⟩ := c.run_of_ok hresult settings
    obtain ⟨log', hlevel', hrun'⟩ := c'.run_of_ok (htext.trans hresult) settings
    have hstart : Machine.initial settings c'.entropy c'.input c'.output .off =
        (Machine.initial settings c.entropy c.input c.output .off).behind shown := by
      obtain ⟨seed, hseed⟩ := Option.isSome_iff_exists.mp hseed
      simp only [Machine.initial, hseed, h.input, h.output]
      rfl
    have hbehind := Order.run_behind shown settings (.program p)
      (.initial settings c.entropy c.input c.output .off)
    rw [← hstart] at hbehind
    rw [hrun, hrun', show Run.program settings p _ = _ from hbehind]
    exact h.ended (hlevel'.trans (h.threshold.trans hlevel.symm)) _

/-- A line leads to the same. -/
theorem answer (hseed : settings.seed.isSome) (line : PromptLine) :
    (c.answer tree settings line).Echoes shown complaints (c'.answer tree settings line) := by
  cases line with
  | nothing => exact .asking h
  | leave => exact .ended h .success
  | source text => exact .asking (h.run hseed rfl).1
  | load name =>
    have hreading := Console.sameReading h.threshold tree (joinPath settings.programDir name)
    rw [Console.answer, Console.answer, Console.reading?, Console.reading?]
    generalize c.read tree (joinPath settings.programDir name) = reading at hreading
    generalize c'.read tree (joinPath settings.programDir name) = reading' at hreading
    cases hreading with
    | trouble t => exact .asking (h.complain t.summary)
    | text hsame => exact .asking (h.run hseed hsame).1

theorem turn (hseed : settings.seed.isSome) :
    (c.turn tree settings).Echoes shown complaints (c'.turn tree settings) := by
  rw [Console.turn, Console.turn, h.input]
  cases c.input.lines with
  | nil => exact .ended (h.display "$ ") .success
  | cons line rest =>
    dsimp only
    cases Input.lineText? line with
    | none => exact .ended ((h.asked rest).stop .inputNotText) .trouble
    | some text => exact (h.asked rest).answer hseed (.of text)

/-- The rest of a session is the same. The induction is on how many lines are left. -/
theorem session (hseed : settings.seed.isSome) :
    Echoes shown complaints (c.session tree settings).1 (c'.session tree settings).1 ∧
      (c'.session tree settings).2 = (c.session tree settings).2 := by
  induction hlength : c.input.lines.length using Nat.strong_induction_on generalizing c c' with
  | h length ih =>
    rw [Console.session_eq, Console.session_eq]
    have hturn : (c.turn tree settings).Echoes shown complaints (c'.turn tree settings) :=
      h.turn hseed
    cases hfirst : c.turn tree settings with
    | ended next ending =>
      rw [hfirst] at hturn
      generalize c'.turn tree settings = other at hturn
      cases hturn with
      | ended h ending => exact ⟨h, rfl⟩
    | asking next =>
      have hshorter : next.input.lines.length < length := hlength ▸ Console.turn_shorter hfirst
      rw [hfirst] at hturn
      generalize c'.turn tree settings = other at hturn
      cases hturn with
      | asking h => exact ih _ hshorter h rfl

end Echoes

/-! ## Sessions of their own -/

namespace Console

/-- The console of a command that starts with some lines left to read. -/
def startingAt (log : Log) (clock : Nat) (lines : List (List UInt8)) : Console :=
  { opening log clock with input := ⟨lines⟩ }

/-- Where the first output stores everything, a console echoes one that starts with the lines that
are left. -/
theorem echoes_startingAt {log : Log} (hfree : c.output.limit = none)
    (hlevel : c.log.threshold = log.threshold) (clock : Nat) :
    Echoes c.output.stored c.errors (startingAt log clock c.input.lines) c where
  input := rfl
  output := by
    have houtput : c.output = ⟨none, c.output.stored⟩ := by rw [← hfree]
    rw [houtput]
    exact congrArg (Output.mk none) ByteArray.append_empty.symm
  errors := String.append_empty.symm
  threshold := hlevel

/-- A session of a command goes on with the lines of the standard input. -/
theorem perform_repl (log : Log) (clock : Nat) (bytes : List UInt8) :
    perform (World.ofTree tree bytes) settings (.opening log clock) .repl =
      (startingAt log clock (Input.splitLines bytes)).session tree settings :=
  repl_enough (Nat.lt_succ_self _) (Nat.lt_succ_self _)

/-- There is no line left, or the next one asks to leave. -/
def Leaves (c : Console) : Prop :=
  ∀ line rest, c.input.lines = line :: rest →
    ∃ text, Input.lineText? line = some text ∧ (Text.trim text = "exit" ∨ Text.trim text = "quit")

/-- What a console has become once a text has been run on some lines, in a run that knows nothing
but the settings and these lines: a text that is no program is complained about, and the run of a
program takes lines, shows what it shows, and is complained about if it fails. All of it comes after
what was shown and complained about before. -/
def RanAlone (settings : Settings) (lines : List (List UInt8)) (text : String) (shown : ByteArray)
    (complaints : String) (c : Console) : Prop :=
  match (Source.program text).result with
  | .error e =>
    c.input.lines = lines ∧ c.output.stored = shown ∧
      c.errors = complaints ++ e.message ++ "\n"
  | .ok p => ∀ entropy,
    match Run.program settings p (.initial settings entropy ⟨lines⟩ .unlimited .off) with
    | .ok _ m =>
      c.input.lines = m.input.lines ∧ c.output.stored = shown ++ m.output.stored ∧
        c.errors = complaints
    | .error failure m =>
      c.input.lines = m.input.lines ∧ c.output.stored = shown ++ m.output.stored ∧
        c.errors = complaints ++ failure.message ++ "\n"

/-- What becomes of the next line, told by what the text that it asks to run does in a run of its
own on the lines that follow it. -/
def Answers (tree : FileTree) (settings : Settings) (log : Log) (c : Console) : Prop :=
  match c.input.lines with
  | [] => c.turn tree settings = .ended (c.display "$ ") .success
  | line :: rest =>
    match Input.lineText? line with
    | none => ∃ c', c.turn tree settings = .ended c' .trouble
    | some text =>
      if Text.trim text = "exit" ∨ Text.trim text = "quit" then
        c.turn tree settings = .ended (c.asked rest) .success
      else if Text.trim text = "" then
        c.turn tree settings = .asking (c.asked rest)
      else
        (∃ t, c.reading? tree settings (.of text) = some (.error t) ∧
          c.turn tree settings = .asking ((c.asked rest).complain t.summary)) ∨
        ∃ program c', c.reading? tree settings (.of text) = some (.ok program) ∧
          c.turn tree settings = .asking c' ∧ c'.input.lines <:+ rest ∧
          RanAlone settings rest program (c.output.stored ++ "$ ".toUTF8) c.errors c' ∧
          ∀ clock, Echoes (c.output.stored ++ "$ ".toUTF8) c.errors
            ((startingAt log clock rest).run settings program).1 c'

end Console

theorem PromptLine.of_eq_leave {text : String} :
    PromptLine.of text = .leave ↔ Text.trim text = "exit" ∨ Text.trim text = "quit" := by
  rw [of, Text.trim]
  split
  · next h =>
    rw [h]
    exact iff_of_false nofun (by decide)
  · next h =>
    rw [h]
    refine iff_of_false nofun ?_
    rintro (h | h)
    · exact absurd (congrArg String.toList h) (by rw [String.toList_ofList]; exact nofun)
    · exact absurd (congrArg String.toList h) (by rw [String.toList_ofList]; exact nofun)
  · dsimp only
    split
    · next h => exact iff_of_true rfl h
    · next h => exact iff_of_false nofun h

theorem PromptLine.of_eq_nothing {text : String} :
    PromptLine.of text = .nothing ↔ Text.trim text = "" := by
  rw [of, Text.trim]
  split
  · next h =>
    rw [h]
    exact iff_of_true rfl rfl
  · next h =>
    rw [h]
    refine iff_of_false nofun fun h => ?_
    exact absurd (congrArg String.toList h) (by rw [String.toList_ofList]; exact nofun)
  · next hne _ =>
    refine iff_of_false (by dsimp only; split <;> exact nofun) fun h => hne ?_
    rw [← String.toList_ofList (l := Text.trimChars text.toList), h]
    rfl

namespace Console

theorem reading?_eq_none {line : PromptLine} :
    c.reading? tree settings line = none ↔ line = .nothing ∨ line = .leave := by
  cases line <;> simp [reading?]

/-- A console that echoes a run on nothing but some lines has become what such a run leads to. -/
theorem ranAlone_of_echoes (hseed : settings.seed.isSome) {log : Log} {clock : Nat}
    {lines : List (List UInt8)} {text : String} {shown : ByteArray} {complaints : String}
    (h : Echoes shown complaints ((startingAt log clock lines).run settings text).1 c) :
    RanAlone settings lines text shown complaints c := by
  let fresh := startingAt log clock lines
  have hcomplaint (message : String) :
      complaints ++ (fresh.errors ++ message ++ "\n") = complaints ++ message ++ "\n" := by
    rw [show fresh.errors = "" from rfl, String.empty_append, String.append_assoc]
  rw [RanAlone]
  cases hresult : (Source.program text).result with
  | error e =>
    obtain ⟨log', -, hrun⟩ := fresh.run_of_error hresult settings
    rw [hrun] at h
    exact ⟨congrArg Input.lines h.input, (congrArg Output.stored h.output).trans
      ByteArray.append_empty, h.errors.trans (hcomplaint e.message)⟩
  | ok p =>
    intro entropy
    obtain ⟨log', -, hrun⟩ := fresh.run_of_ok hresult settings
    have hstart : Machine.initial settings entropy ⟨lines⟩ .unlimited .off =
        .initial settings fresh.entropy fresh.input fresh.output .off := by
      obtain ⟨seed, hseed⟩ := Option.isSome_iff_exists.mp hseed
      simp only [Machine.initial, hseed]
      rfl
    rw [hrun] at h
    rw [hstart]
    generalize Run.program settings p _ = result at h
    have hinput := congrArg Input.lines h.input
    have houtput := congrArg Output.stored h.output
    cases result with
    | ok _ m => exact ⟨hinput, houtput, h.errors.trans String.append_empty⟩
    | error failure m => exact ⟨hinput, houtput, h.errors.trans (hcomplaint failure.message)⟩

/-- Every line is answered as if nothing had been before it. -/
theorem answers (hseed : settings.seed.isSome) {log : Log} (hfree : c.output.limit = none)
    (hlevel : c.log.threshold = log.threshold) : c.Answers tree settings log := by
  rw [Answers]
  cases hlines : c.input.lines with
  | nil => exact turn_nil hlines
  | cons line rest =>
    dsimp only
    cases htext : Input.lineText? line with
    | none => exact ⟨((c.asked rest).stop .inputNotText).1, turn_stop hlines htext⟩
    | some text =>
      have hturn : c.turn tree settings = (c.asked rest).answer tree settings (.of text) :=
        turn_answer hlines htext
      have hreading : (c.asked rest).reading? tree settings (.of text) =
          c.reading? tree settings (.of text) := by
        cases PromptLine.of text <;> rfl
      rw [answer, hreading] at hturn
      dsimp only
      rw [hturn]
      split
      · next hleave =>
        rw [PromptLine.of_eq_leave.mpr hleave]
        rfl
      split
      · next hblank =>
        rw [PromptLine.of_eq_nothing.mpr hblank]
        rfl
      · next hleave hblank =>
        cases hasks : c.reading? tree settings (.of text) with
        | none =>
          rcases reading?_eq_none.mp hasks with h | h
          · exact absurd (PromptLine.of_eq_nothing.mp h) hblank
          · exact absurd (PromptLine.of_eq_leave.mp h) hleave
        | some reading =>
          cases reading with
          | error t => exact .inl ⟨t, rfl, rfl⟩
          | ok program =>
            have hasked := Continues.asked hlines
            have hstored : (c.asked rest).output.stored = c.output.stored ++ "$ ".toUTF8 := by
              have houtput : c.output = ⟨none, c.output.stored⟩ := by rw [← hfree]
              show (c.output.write "$ ").1.stored = _
              rw [houtput]
              rfl
            have hran (clock : Nat) : Echoes (c.output.stored ++ "$ ".toUTF8) c.errors
                ((startingAt log clock rest).run settings program).1
                ((c.asked rest).run settings program).1 := by
              have hecho := echoes_startingAt (hasked.limit hfree) (hasked.threshold.trans hlevel)
                clock
              rw [hstored] at hecho
              exact (hecho.run hseed rfl).1
            exact .inr ⟨program, ((c.asked rest).run settings program).1, rfl, rfl,
              (Continues.run _ settings program).input, ranAlone_of_echoes hseed (hran 0), hran⟩

/-- A line that is a text to run leads to what the text leads to in a run of its own. -/
theorem Answers.ran {log : Log} {line : List UInt8} {rest : List (List UInt8)}
    {text program : String} (h : c.Answers tree settings log)
    (hlines : c.input.lines = line :: rest) (htext : Input.lineText? line = some text)
    (hsource : PromptLine.of text = .source program) :
    ∃ c', c.turn tree settings = .asking c' ∧
      RanAlone settings rest program (c.output.stored ++ "$ ".toUTF8) c.errors c' := by
  have hstays : ¬ (Text.trim text = "exit" ∨ Text.trim text = "quit") := by
    rw [← PromptLine.of_eq_leave, hsource]
    exact nofun
  have hfull : Text.trim text ≠ "" := by
    rw [ne_eq, ← PromptLine.of_eq_nothing, hsource]
    exact nofun
  rw [Answers, hlines] at h
  dsimp only at h
  rw [htext] at h
  dsimp only at h
  rw [if_neg hstays, if_neg hfull, hsource] at h
  rcases h with ⟨t, hreading, -⟩ | ⟨program', c', hreading, hturn, -, hran, -⟩
  · cases hreading
  · cases hreading
    exact ⟨c', hturn, hran⟩

theorem RanAlone.of_failure {lines : List (List UInt8)} {text : String} {shown : ByteArray}
    {complaints : String} {p : Program} (h : RanAlone settings lines text shown complaints c)
    (hp : (Source.program text).result = .ok p) (message : String)
    (hfails : (failure? (Run.program settings p
      (.initial settings 0 ⟨lines⟩ .unlimited .off))).map Failure.message = some message) :
    let m := left (Run.program settings p (.initial settings 0 ⟨lines⟩ .unlimited .off))
    c.input.lines = m.input.lines ∧ c.output.stored = shown ++ m.output.stored ∧
      c.errors = complaints ++ message ++ "\n" := by
  rw [RanAlone, hp] at h
  have hran := h 0
  obtain ⟨failure, hfailure, rfl⟩ := Option.map_eq_some_iff.mp hfails
  obtain ⟨m, hm⟩ := failure?_eq_some.mp hfailure
  rw [hm] at hran ⊢
  exact hran

/-- A session is over with success where no line is left or the next one asks to leave. -/
theorem leaves_of_ended {ending : Ending} (h : c.turn tree settings = .ended c' ending) :
    ending.status = 0 ↔ c.Leaves := by
  cases hlines : c.input.lines with
  | nil =>
    rw [turn_nil hlines] at h
    cases h
    refine iff_of_true rfl fun line rest hcons => ?_
    rw [hlines] at hcons
    cases hcons
  | cons line rest =>
    cases htext : Input.lineText? line with
    | none =>
      rw [turn_stop hlines htext] at h
      cases h
      refine iff_of_false (by decide) fun hleaves => ?_
      obtain ⟨text, htext', -⟩ := hleaves line rest hlines
      cases htext.symm.trans htext'
    | some text =>
      rw [turn_answer hlines htext, answer] at h
      split at h
      · cases h
      · cases h
      · split at h
        · next hleave =>
          cases h
          refine iff_of_true rfl fun line' rest' hcons => ?_
          rw [hlines] at hcons
          cases hcons
          exact ⟨text, htext, PromptLine.of_eq_leave.mp hleave⟩
        · cases h

end Console

/-- Lines at the prompt are isolated from each other. With a seed, whatever has been asked for
before, the rest of a session shows what a session shows that starts with the bytes not yet read. A
line that is neither blank nor asks to leave, or the file that it names, is run as a program of its
own would be run on the lines that follow: with the same texts on both outputs, and the next prompt
comes after the last line that it has taken. A file that cannot be read is complained about. No such
line ends the session; every session ends, with status zero where no line is left or a line asks to
leave, and otherwise at a line that is not text. -/
theorem prompt_lines_are_isolated (tree : FileTree) {settings : Settings}
    (hseed : settings.seed.isSome) (log : Log) (clock : Nat) (bytes : List UInt8) :
    let start := Console.startingAt log clock (Input.splitLines bytes)
    perform (World.ofTree tree bytes) settings (.opening log clock) .repl =
      start.session tree settings ∧
    ∀ c, Console.Prompted tree settings start c →
      (∀ clock', let alone :=
          perform (World.ofTree tree c.unread) settings (.opening log clock') .repl
        Echoes c.output.stored c.errors alone.1 (c.session tree settings).1 ∧
          (c.session tree settings).2 = alone.2) ∧
      c.Answers tree settings log ∧
      ∃ last, Console.Prompted tree settings c last ∧
        last.turn tree settings = .ended (c.session tree settings).1 (c.session tree settings).2 ∧
        ((c.session tree settings).2.status = 0 ↔ last.Leaves) := by
  intro start
  refine ⟨Console.perform_repl log clock bytes, fun c hc => ?_⟩
  have hcontinues : Continues start c := Console.Prompted.continues hc
  have hfree : c.output.limit = none := hcontinues.limit rfl
  have hlevel : c.log.threshold = log.threshold := hcontinues.threshold
  refine ⟨fun clock' => ?_, Console.answers hseed hfree hlevel, ?_⟩
  · have hunread : Input.splitLines c.unread = c.input.lines :=
      Input.splitLines_flatten hcontinues.input
    dsimp only
    rw [Console.perform_repl, hunread]
    exact (Console.echoes_startingAt hfree hlevel clock').session hseed
  · obtain ⟨last, hlast, hended⟩ := c.session_ends tree settings
    exact ⟨last, hlast, hended, Console.leaves_of_ended hended⟩

section two_lines

open Grammar

/-- A program that binds a name and fails at another one. -/
theorem spells_binding : (Source.program "dynamic division n = \"1\"; print m;").result =
    .ok ⟨[], [.assign 1 "n" (.string "1") none, .print 1 (.identifier "m")]⟩ := by
  let body : List Token := [⟨.identifier, "n", 1⟩, ⟨.symbol .equal, "=", 1⟩,
    ⟨.string "1", "\"1\"", 1⟩, ⟨.symbol .semicolon, ";", 1⟩, ⟨.keyword .print, "print", 1⟩,
    ⟨.identifier, "m", 1⟩, ⟨.symbol .semicolon, ";", 1⟩]
  have hscan : Token.scanAll "dynamic division n = \"1\"; print m;" =
      .ok (⟨.keyword .dynamic, "dynamic", 1⟩ :: ⟨.keyword .division, "division", 1⟩ ::
        (body ++ [⟨.endOfText, "", 1⟩])) := by
    simp [Token.scanAll, Token.collect, Except.map, Token.scan, Token.scanFrom, Token.lineFeeds,
      Piece.first, Piece.isSeparator, Piece.word, Piece.isWordStart, Piece.isWordPart,
      Piece.symbol?, Piece.cut, Piece.wordKind, Piece.string, Keyword.ofSpelling?, Keyword.all,
      Keyword.spelling, Symbol.spelling, body]
  have hassign : DerivesStatement 255 1024 (⟨.identifier, "n", 1⟩ :: ⟨.symbol .equal, "=", 1⟩ ::
      ([⟨.string "1", "\"1\"", 1⟩] ++ ([] ++ [⟨.symbol .semicolon, ";", 1⟩]))) _ :=
    .assign rfl rfl (.of_unary (.unaryOne (.string rfl))) .absent rfl
  have hprint : DerivesStatement 255 1024 (⟨.keyword .print, "print", 1⟩ ::
      ([⟨.identifier, "m", 1⟩] ++ [⟨.symbol .semicolon, ";", 1⟩])) _ :=
    .print rfl (.of_unary (.unaryOne (.identifier rfl))) rfl
  have hbody : DerivesStatements 255 1024 body _ := .cons hassign (.cons hprint .nil)
  exact Source.program_of_derives hscan (.mk .absent rfl rfl hbody rfl)

/-- A program that asks for a number and shows it, and fails at a name that it does not bind. -/
theorem spells_asking :
    (Source.program "dynamic division input m \"n\"; print m; print n;").result =
      .ok ⟨[], [.input 1 "m" "n", .print 1 (.identifier "m"), .print 1 (.identifier "n")]⟩ := by
  let body : List Token := [⟨.keyword .input, "input", 1⟩, ⟨.identifier, "m", 1⟩,
    ⟨.string "n", "\"n\"", 1⟩, ⟨.symbol .semicolon, ";", 1⟩, ⟨.keyword .print, "print", 1⟩,
    ⟨.identifier, "m", 1⟩, ⟨.symbol .semicolon, ";", 1⟩, ⟨.keyword .print, "print", 1⟩,
    ⟨.identifier, "n", 1⟩, ⟨.symbol .semicolon, ";", 1⟩]
  have hscan : Token.scanAll "dynamic division input m \"n\"; print m; print n;" =
      .ok (⟨.keyword .dynamic, "dynamic", 1⟩ :: ⟨.keyword .division, "division", 1⟩ ::
        (body ++ [⟨.endOfText, "", 1⟩])) := by
    simp [Token.scanAll, Token.collect, Except.map, Token.scan, Token.scanFrom, Token.lineFeeds,
      Piece.first, Piece.isSeparator, Piece.word, Piece.isWordStart, Piece.isWordPart,
      Piece.symbol?, Piece.cut, Piece.wordKind, Piece.string, Keyword.ofSpelling?, Keyword.all,
      Keyword.spelling, Symbol.spelling, body]
  have hinput : DerivesStatement 255 1024 (⟨.keyword .input, "input", 1⟩ ::
      ⟨.identifier, "m", 1⟩ :: ([⟨.string "n", "\"n\"", 1⟩] ++ [⟨.symbol .semicolon, ";", 1⟩])) _ :=
    .input rfl rfl (.present rfl) rfl
  have hprint (name : String) : DerivesStatement 255 1024 (⟨.keyword .print, "print", 1⟩ ::
      ([⟨.identifier, name, 1⟩] ++ [⟨.symbol .semicolon, ";", 1⟩])) _ :=
    .print rfl (.of_unary (.unaryOne (.identifier rfl))) rfl
  have hbody : DerivesStatements 255 1024 body _ :=
    .cons hinput (.cons (hprint "m") (.cons (hprint "n") .nil))
  exact Source.program_of_derives hscan (.mk .absent rfl rfl hbody rfl)

/-- Two lines that fail, one after the other. The name that the first one binds is not bound in the
second one, which takes the line behind it. -/
theorem input_at_prompt :
    let settings : Settings := { seed := some 7 }
    let first := "dynamic division n = \"1\"; print m;"
    let second := "dynamic division input m \"n\"; print m; print n;"
    let start := Console.startingAt .off 0
      (Input.splitLines (bytes (first ++ "\n" ++ second ++ "\n5\nexit\n")))
    ∃ c c', start.turn ⟨[]⟩ settings = .asking c ∧ c.turn ⟨[]⟩ settings = .asking c' ∧
      c'.input.lines = [bytes "exit\n"] ∧ c'.output.stored = "$ $ n: 5\n".toUTF8 ∧
      c'.errors = "[line 1] Runtime error: Undefined variable 'm'.\n" ++
        "[line 1] Runtime error: Undefined variable 'n'.\n" := by
  intro settings first second start
  let complaint (name : String) := "[line 1] Runtime error: Undefined variable '" ++ name ++ "'."
  have hlines : start.input.lines =
      [bytes (first ++ "\n"), bytes (second ++ "\n"), bytes "5\n", bytes "exit\n"] := by
    decide +kernel
  have htext : Input.lineText? (bytes (first ++ "\n")) = some (first ++ "\n") := by
    decide +kernel
  have htext' : Input.lineText? (bytes (second ++ "\n")) = some (second ++ "\n") := by
    decide +kernel
  have hline : PromptLine.of (first ++ "\n") = .source first := by decide +kernel
  have hline' : PromptLine.of (second ++ "\n") = .source second := by decide +kernel
  obtain ⟨-, hprompt⟩ := @prompt_lines_are_isolated ⟨[]⟩ settings rfl .off 0
    (bytes (first ++ "\n" ++ second ++ "\n5\nexit\n"))
  obtain ⟨-, hanswers, -⟩ := hprompt start .refl
  obtain ⟨c, hturn, hran⟩ := hanswers.ran hlines htext hline
  obtain ⟨hinput, hstored, herrors⟩ :=
    hran.of_failure spells_binding (complaint "m") (by decide +kernel)
  have hrest : c.input.lines = [bytes (second ++ "\n"), bytes "5\n", bytes "exit\n"] := by
    rw [hinput]
    decide +kernel
  obtain ⟨-, hanswers', -⟩ := hprompt c (.single hturn)
  obtain ⟨c', hturn', hran'⟩ := hanswers'.ran hrest htext' hline'
  obtain ⟨hinput', hstored', herrors'⟩ :=
    hran'.of_failure spells_asking (complaint "n") (by decide +kernel)
  refine ⟨c, c', hturn, hturn', ?_, ?_, ?_⟩
  · rw [hinput']
    decide +kernel
  · rw [hstored', hstored]
    decide +kernel
  · rw [herrors', herrors]
    decide +kernel

end two_lines

end DivisionScript.CommandLine
