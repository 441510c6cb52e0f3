import DivisionScript.Proofs.Run.Mute
import DivisionScript.Proofs.Run.Session
import DivisionScript.Proofs.Run.Sources

/-!
# Run — Truncation

A run whose output stores a number of bytes and then fails. Up to the statement whose text no longer
fits, it goes through the same places as the run whose output stores everything; that statement
fails, and what has been stored is the beginning of what would have been. `Capped` says of one
computation what the limit makes of it, `step_capped` and `step_cut` follow a step of the unlimited
run, and the induction over its steps gives the rest.
-/

namespace DivisionScript

open Run

/-- The state with its output limited to a number of bytes. -/
def Machine.capped (limit : Nat) (m : Machine) : Machine :=
  m.withOutput ⟨some limit, m.output.stored⟩

/-- The text that a statement shows in an environment. -/
def Stmt.shown (env : Environment) : Stmt → String
  | .print _ e =>
    match e.value env with
    | .ok value => value.text ++ "\n"
    | .error _ => ""
  | .input _ _ prompt => if prompt ≠ "" then prompt ++ ": " else ""
  | _ => ""

/-! ## One computation -/

namespace Output

variable {limit : Nat} {stored : ByteArray} {text : String}

theorem write_fits (hfits : (stored ++ text.toUTF8).size ≤ limit) :
    (⟨some limit, stored⟩ : Output).write text = (⟨some limit, stored ++ text.toUTF8⟩, true) := by
  rw [ByteArray.size_append] at hfits
  have hroom : text.toUTF8.size ≤ limit - stored.size := by omega
  rw [write]
  exact if_pos hroom

/-- What does not fit is cut where the limit is. -/
theorem write_cut (hroom : stored.size ≤ limit) (hover : limit < (stored ++ text.toUTF8).size) :
    (⟨some limit, stored⟩ : Output).write text =
      (⟨some limit, (stored ++ text.toUTF8).extract 0 limit⟩, false) := by
  rw [ByteArray.size_append] at hover
  have hnone : ¬ text.toUTF8.size ≤ limit - stored.size := by omega
  have hall : stored.extract 0 limit = stored := by
    rw [← Nat.max_eq_left hroom, ByteArray.extract_zero_max_size]
  rw [ByteArray.extract_append, hall, Nat.zero_sub, write]
  exact if_neg hnone

end Output

/-- The beginning of bytes is the beginning of those that more are added to. -/
theorem extract_append_of_lt {bytes more : ByteArray} {limit : Nat} (h : limit < bytes.size) :
    (bytes ++ more).extract 0 limit = bytes.extract 0 limit := by
  rw [ByteArray.extract_append, Nat.zero_sub, Nat.sub_eq_zero_of_le (Nat.le_of_lt h),
    ByteArray.extract_same, ByteArray.append_empty]

theorem Stmt.shown_eq_empty {s : Stmt} (h : ¬ s.shows) (env : Environment) : s.shown env = "" := by
  cases s with
  | print => exact absurd rfl h
  | input line name prompt =>
    have hprompt : ¬ prompt ≠ "" := by simpa [shows] using h
    rw [shown, if_neg hprompt]
  | _ => rfl

namespace Run

variable {α β : Type} {limit line : Nat} {text : String} {m m' : Machine}

/-- What a limit of the output makes of a computation that shows a text: if the text fits, all else
is the same; if not, the computation fails there and stores what fits. -/
structure Capped (limit line : Nat) (text : String) (act : Run α) (m : Machine) : Prop where
  adds : (left (act m)).output = ⟨none, m.output.stored ++ text.toUTF8⟩
  fits : (m.output.stored ++ text.toUTF8).size ≤ limit →
    act (m.capped limit) = mapResult (Machine.capped limit) id (act m)
  cut : limit < (m.output.stored ++ text.toUTF8).size →
    ∃ log, act (m.capped limit) = .error ⟨.outputFull, line⟩ { m with
      output := ⟨some limit, (m.output.stored ++ text.toUTF8).extract 0 limit⟩
      log }

theorem append_toUTF8_empty (stored : ByteArray) : stored ++ "".toUTF8 = stored :=
  ByteArray.append_empty

/-- What shows nothing goes on in the same way under a limit. -/
theorem Mute.capped {act : Run α} (h : Mute act) (limit : Nat) (m : Machine) :
    act (m.capped limit) = mapResult (Machine.capped limit) id (act m) :=
  h.mirrors (fun output => ⟨some limit, output.stored⟩) m

/-- An output that stores everything stores what is written. -/
theorem write_unlimited (line : Nat) (text : String) (hfree : m.output.limit = none) :
    write line text m =
      .ok () (m.withOutput ⟨none, m.output.stored ++ text.toUTF8⟩) := by
  have houtput : m.output = ⟨none, m.output.stored⟩ := by rw [← hfree]
  rw [Run.write, houtput]
  rfl

namespace Capped

theorem mute {act : Run α} (h : Mute act) (hfree : m.output.limit = none)
    (hroom : m.output.stored.size ≤ limit) : Capped limit line "" act m := by
  refine ⟨?_, fun _ => h.capped limit m, fun hover => ?_⟩
  · rw [h.keeps m, append_toUTF8_empty, ← hfree]
  · rw [append_toUTF8_empty] at hover
    exact absurd hover (Nat.not_lt.mpr hroom)

theorem write (hfree : m.output.limit = none) (hroom : m.output.stored.size ≤ limit) :
    Capped limit line text (write line text) m := by
  have hwrite := write_unlimited line text hfree
  have hcapped : (m.capped limit).output = ⟨some limit, m.output.stored⟩ := rfl
  refine ⟨?_, fun hfits => ?_, fun hover => ⟨m.log, ?_⟩⟩
  · rw [hwrite]
    rfl
  · rw [hwrite, Run.write, hcapped, Output.write_fits hfits]
    rfl
  · rw [Run.write, hcapped, Output.write_cut hroom hover]
    rfl

/-- What comes after what is shown shows nothing. -/
theorem followed {x : Run α} {f : α → Run β} (hx : Capped limit line text x m)
    (hf : ∀ a, Mute (f a)) : Capped limit line text (x >>= f) m := by
  refine ⟨?_, fun hfits => ?_, fun hover => ?_⟩
  · rw [← hx.adds]
    cases h : x m with
    | ok a m' =>
      rw [bind_ok h]
      exact (hf a).keeps m'
    | error failure m' => rw [bind_error h, left, left]
  · have hsame := hx.fits hfits
    cases h : x m with
    | ok a m' =>
      rw [h] at hsame
      rw [bind_ok h, bind_ok hsame]
      exact (hf a).capped limit m'
    | error failure m' =>
      rw [h] at hsame
      rw [bind_error h, bind_error hsame]
      rfl
  · obtain ⟨log, hcut⟩ := hx.cut hover
    exact ⟨log, bind_error hcut⟩

/-- What comes before what is shown shows nothing, and changes nothing but the reports. -/
theorem after {x : Run α} {f : α → Run β} {a : α} {log : Log} (hx : Mute x)
    (h : x m = .ok a { m with log }) (hf : Capped limit line text (f a) { m with log }) :
    Capped limit line text (x >>= f) m := by
  have hcapped : x (m.capped limit) = .ok a (Machine.capped limit { m with log }) := by
    rw [hx.capped limit m, h]
    rfl
  constructor
  · rw [bind_ok h]
    exact hf.adds
  · rw [bind_ok h, bind_ok hcapped]
    exact hf.fits
  · rw [bind_ok hcapped]
    exact hf.cut

/-- What fails before anything is shown shows nothing. -/
theorem failed {x : Run α} {f : α → Run β} {failure : Failure} (hx : Mute x)
    (h : x m = .error failure m') (hfree : m.output.limit = none)
    (hroom : m.output.stored.size ≤ limit) : Capped limit line "" (x >>= f) m := by
  have hmute : Capped limit line "" x m := .mute hx hfree hroom
  have hcapped := hx.capped limit m
  rw [h] at hcapped
  constructor
  · rw [bind_error h, ← hmute.adds, h]
    rfl
  · intro _
    rw [bind_error h, bind_error hcapped]
    rfl
  · intro hover
    rw [append_toUTF8_empty] at hover
    exact absurd hover (Nat.not_lt.mpr hroom)

end Capped

/-! ## One task -/

section tasks

variable (settings : Settings) (hfree : m.output.limit = none)
variable (hroom : m.output.stored.size ≤ limit)
include hfree hroom

theorem capped_print (line : Nat) (e : Expr) :
    Capped limit line ((Stmt.print line e).shown m.environment) (print line e) m := by
  have hvalue := e.outcome_eval m.environment m.log
  rw [Stmt.shown, ← hvalue, print]
  cases heval : e.eval m.environment m.log with
  | ok value log =>
    have hok : evaluate line e m = .ok value { m with log } := by
      rw [evaluate, evaluation, heval]
    refine .after (mute_evaluate line e) hok (.followed ?_ fun _ => mute_note _)
    exact .write hfree hroom
  | error fault log =>
    have herror : evaluate line e m = .error ⟨fault, line⟩ { m with log } := by
      rw [evaluate, evaluation, heval]
    exact .failed (mute_evaluate line e) herror hfree hroom

theorem capped_readNumber (line : Nat) (name prompt : String) :
    Capped limit line ((Stmt.input line name prompt).shown m.environment)
      (readNumber line prompt) m := by
  rw [Stmt.shown]
  split
  · next hprompt =>
    rw [readNumber_eq line hprompt]
    exact (Capped.write hfree hroom).followed fun _ => mute_readNumber line
  · next hprompt =>
    rw [Decidable.not_not.mp hprompt]
    exact .mute (mute_readNumber line) hfree hroom

/-- Under a limit, a statement begins as without one, unless its text does not fit. -/
theorem capped_begin (s : Stmt) :
    Capped limit s.line (s.shown m.environment) (s.begin settings) m := by
  have hnote := mute_note (.executing s.line)
  let noted : Machine := { m with log := m.log.note (.executing s.line) }
  cases s with
  | print line e =>
    refine .after hnote rfl (.followed ?_ fun _ => .pure _)
    exact capped_print (m := noted) hfree hroom line e
  | input line name prompt =>
    refine .after hnote rfl (.followed (.followed ?_ fun _ => mute_bind settings line name _) ?_)
    · exact capped_readNumber (m := noted) hfree hroom line name prompt
    · exact fun _ => .pure _
  | _ => exact .mute (Stmt.mute_begin settings nofun) hfree hroom

/-- Only a statement shows a text. -/
theorem capped_perform (task : Task) :
    ∃ line text, Capped limit line text (task.perform settings) m ∧
      (text = "" ∨ ∃ s, task = .statement s ∧ line = s.line ∧ text = s.shown m.environment) := by
  cases task with
  | statement s =>
    exact ⟨s.line, _, capped_begin settings hfree hroom s, .inr ⟨s, rfl, rfl, rfl⟩⟩
  | _ => exact ⟨0, "", .mute (Task.mute_perform settings nofun) hfree hroom, .inl rfl⟩

end tasks

end Run

/-! ## One step -/

theorem Task.output_giveUp (task : Task) (m : Machine) : (task.giveUp m).output = m.output := by
  cases task <;> rfl

theorem output_giveUpEach (tasks : List Task) (m : Machine) :
    (giveUpEach tasks m).output = m.output := by
  induction tasks generalizing m with
  | nil => rfl
  | cons task rest ih => exact (ih (task.giveUp m)).trans (task.output_giveUp m)

theorem Task.giveUp_capped (task : Task) (limit : Nat) (m : Machine) :
    task.giveUp (m.capped limit) = (task.giveUp m).capped limit := by
  cases task <;> rfl

namespace Config

/-- The place with its output limited to a number of bytes. -/
def capped (limit : Nat) (c : Config) : Config :=
  { c with machine := c.machine.capped limit }

variable {settings : Settings} {limit : Nat} {c c' : Config}

theorem after_capped (rest : List Task) (result : EStateM.Result Failure Machine (List Task)) :
    after rest (mapResult (Machine.capped limit) id result) = (after rest result).capped limit := by
  cases result <;> rfl

/-- An output that stores everything keeps what it has stored. -/
theorem step_adds (h : c.step settings = some c') (hfree : c.machine.output.limit = none) :
    c'.machine.output.limit = none ∧
      ∃ more, c'.machine.output.stored = c.machine.output.stored ++ more := by
  obtain ⟨m, task, rest, ⟨rfl, rfl⟩ | ⟨failure, rfl, rfl⟩⟩ := step_eq_some h
  · obtain ⟨line, text, hcapped, -⟩ := capped_perform settings hfree (Nat.le_refl _) task
    rw [machine_after, hcapped.adds]
    exact ⟨rfl, _, rfl⟩
  · dsimp only
    rw [task.output_giveUp]
    exact ⟨hfree, .empty, ByteArray.append_empty.symm⟩

/-- A step after which what has been stored fits is the same step under the limit. -/
theorem step_capped (h : c.step settings = some c') (hfree : c.machine.output.limit = none)
    (hfits : c'.machine.output.stored.size ≤ limit) :
    (c.capped limit).step settings = some (c'.capped limit) := by
  obtain ⟨m, task, rest, ⟨rfl, rfl⟩ | ⟨failure, rfl, rfl⟩⟩ := step_eq_some h
  · have hroom : m.output.stored.size ≤ limit := by
      obtain ⟨-, more, hmore⟩ := step_adds h hfree
      rw [hmore, ByteArray.size_append] at hfits
      exact Nat.le_of_add_right_le hfits
    obtain ⟨line, text, hcapped, -⟩ := capped_perform settings hfree hroom task
    rw [machine_after, hcapped.adds] at hfits
    rw [← after_capped, ← hcapped.fits hfits]
    exact step_perform (m.capped limit) task rest
  · exact congrArg (fun machine => some (⟨machine, rest, some failure⟩ : Config))
      (task.giveUp_capped limit m)

/-- A step after which what has been stored no longer fits begins a statement whose text crosses the
limit; under the limit that statement fails. -/
theorem step_cut (h : c.step settings = some c') (hfree : c.machine.output.limit = none)
    (hroom : c.machine.output.stored.size ≤ limit)
    (hover : limit < c'.machine.output.stored.size) :
    ∃ m s rest log, c = ⟨m, .statement s :: rest, none⟩ ∧
      c'.machine.output.stored = m.output.stored ++ (s.shown m.environment).toUTF8 ∧
      (c.capped limit).step settings = some ⟨{ m with
        output := ⟨some limit, c'.machine.output.stored.extract 0 limit⟩
        log }, rest, some ⟨.outputFull, s.line⟩⟩ := by
  obtain ⟨m, task, rest, ⟨rfl, rfl⟩ | ⟨failure, rfl, rfl⟩⟩ := step_eq_some h
  · obtain ⟨line, text, hcapped, htext⟩ := capped_perform settings hfree hroom task
    rw [machine_after, hcapped.adds] at hover
    obtain rfl | ⟨s, rfl, rfl, rfl⟩ := htext
    · rw [append_toUTF8_empty] at hover
      exact absurd hover (Nat.not_lt.mpr hroom)
    · obtain ⟨log, hcut⟩ := hcapped.cut hover
      refine ⟨m, s, rest, log, rfl, ?_, ?_⟩
      · rw [machine_after, hcapped.adds]
      · rw [machine_after, hcapped.adds]
        exact step_error hcut
  · rw [show (task.giveUp m).output = m.output from task.output_giveUp m] at hover
    exact absurd hover (Nat.not_lt.mpr hroom)

/-! ## All steps -/

theorem reaches_adds (h : Reaches settings c c') (hfree : c.machine.output.limit = none) :
    c'.machine.output.limit = none ∧
      ∃ more, c'.machine.output.stored = c.machine.output.stored ++ more := by
  induction h with
  | refl => exact ⟨hfree, .empty, ByteArray.append_empty.symm⟩
  | tail _ hstep ih =>
    obtain ⟨hfree', more, hmore⟩ := ih
    obtain ⟨hfree'', more', hmore'⟩ := step_adds hstep hfree'
    refine ⟨hfree'', more ++ more', ?_⟩
    rw [hmore', hmore, ByteArray.append_assoc]

/-- As long as what has been stored fits, the limit changes nothing. -/
theorem reaches_capped (h : Reaches settings c c') (hfree : c.machine.output.limit = none)
    (hfits : c'.machine.output.stored.size ≤ limit) :
    Reaches settings (c.capped limit) (c'.capped limit) := by
  induction h with
  | refl => exact .refl
  | tail hmid hstep ih =>
    have hfree' := (reaches_adds hmid hfree).1
    obtain ⟨-, more, hmore⟩ := step_adds hstep hfree'
    have hfits' := hfits
    rw [hmore, ByteArray.size_append] at hfits'
    exact (ih (Nat.le_of_add_right_le hfits')).tail (step_capped hstep hfree' hfits)

/-- Where what has been stored no longer fits, there was a step after which it did not. -/
theorem reaches_crossing (h : Reaches settings c c') (hroom : c.machine.output.stored.size ≤ limit)
    (hover : limit < c'.machine.output.stored.size) :
    ∃ before next, Reaches settings c before ∧ before.step settings = some next ∧
      Reaches settings next c' ∧ before.machine.output.stored.size ≤ limit ∧
      limit < next.machine.output.stored.size := by
  induction h with
  | refl => exact absurd hover (Nat.not_lt.mpr hroom)
  | @tail mid last hmid hstep ih =>
    by_cases hcrossed : limit < mid.machine.output.stored.size
    · obtain ⟨before, next, hbefore, hnext, hafter, hfits, hcut⟩ := ih hcrossed
      exact ⟨before, next, hbefore, hnext, hafter.tail hstep, hfits, hcut⟩
    · exact ⟨mid, last, hmid, hstep, .refl, Nat.not_lt.mp hcrossed, hover⟩

/-- After a failure, what is left to do is given up. -/
theorem reaches_givenUp_all (m : Machine) (tasks : List Task) (failure : Failure) :
    Reaches settings ⟨m, tasks, some failure⟩ ⟨giveUpEach tasks m, [], some failure⟩ := by
  induction tasks generalizing m with
  | nil => exact .refl
  | cons task rest ih => exact .head step_giveUp (ih (task.giveUp m))

end Config

theorem Config.result_capped (limit : Nat) (c : Config) :
    (c.capped limit).result = mapResult (Machine.capped limit) id c.result := by
  obtain ⟨m, tasks, failure⟩ := c
  cases failure <;> rfl

/-- An output that stores everything goes on to do so. -/
theorem Order.limit_run (settings : Settings) (order : Order) {m : Machine}
    (hfree : m.output.limit = none) : (left (order.run settings m)).output.limit = none := by
  have hperforms : Performs settings [order.task] (order.run settings) m := order.performs
  obtain ⟨c, hreaches, -, hresult⟩ := hperforms.ends
  rw [← Config.machine_eq hresult]
  exact (Config.reaches_adds hreaches hfree).1

section truncation

variable (settings : Settings) (order : Order) {m : Machine} {limit : Nat}

/-- An output that stores a number of bytes and then fails truncates a run and does nothing else. If
all that the run writes without a limit fits, then the run under the limit has the same result and
leaves the same state. If not, both runs go through the same places up to a statement that shows a
text which crosses the limit. Under the limit this statement fails for the output, on its line, and
what has been stored is the beginning of what is written without a limit. The statement has changed
nothing but the output and the reports, and of what was left to do, nothing is done but to put back
the environments of callers. -/
theorem full_output_only_truncates (hfree : m.output.limit = none)
    (hroom : m.output.stored.size ≤ limit) :
    let whole := (left (order.run settings m)).output.stored
    (whole.size ≤ limit → order.run settings (m.capped limit) =
      mapResult (Machine.capped limit) id (order.run settings m)) ∧
    (limit < whole.size → ∃ place s rest text later log,
      Config.Reaches settings ⟨m, [order.task], none⟩ ⟨place, .statement s :: rest, none⟩ ∧
      Config.Reaches settings ⟨m.capped limit, [order.task], none⟩
        ⟨place.capped limit, .statement s :: rest, none⟩ ∧
      s.shows ∧ text = (s.shown place.environment).toUTF8 ∧
      whole = place.output.stored ++ text ++ later ∧
      place.output.stored.size ≤ limit ∧ limit < (place.output.stored ++ text).size ∧
      order.run settings (m.capped limit) = .error ⟨.outputFull, s.line⟩ (giveUpEach rest
        { place with output := ⟨some limit, whole.extract 0 limit⟩, log }) ∧
      (left (order.run settings (m.capped limit))).output =
        ⟨some limit, whole.extract 0 limit⟩) := by
  intro whole
  obtain ⟨c, hreaches, hover, hresult⟩ := (order.performs (m := m)).ends
  have hwhole : c.machine.output.stored = whole :=
    congrArg (fun m => m.output.stored) (Config.machine_eq hresult)
  constructor
  · intro hfits
    rw [← hwhole] at hfits
    have hcapped := Config.reaches_capped hreaches hfree hfits
    rw [← hresult, ← Config.result_capped]
    exact Order.run_eq hcapped hover
  · intro hcrossed
    rw [← hwhole] at hcrossed
    obtain ⟨before, next, hbefore, hstep, hafter, hfits, hcut⟩ :=
      Config.reaches_crossing hreaches hroom hcrossed
    have hfree' := (Config.reaches_adds hbefore hfree).1
    have hfree'' := (Config.step_adds hstep hfree').1
    obtain ⟨-, later, hlater⟩ := Config.reaches_adds hafter hfree''
    obtain ⟨place, s, rest, log, rfl, hnext, hfails⟩ := Config.step_cut hstep hfree' hfits hcut
    have hcapped := Config.reaches_capped hbefore hfree hfits
    have hbeginning : next.machine.output.stored.extract 0 limit = whole.extract 0 limit := by
      rw [← hwhole, hlater]
      exact (extract_append_of_lt hcut).symm
    rw [hbeginning] at hfails
    have hlast := (hcapped.tail hfails).trans (Config.reaches_givenUp_all _ _ _)
    have hrun := Order.run_eq hlast rfl
    refine ⟨place, s, rest, _, later, log, hbefore, hcapped, ?_, rfl, ?_, hfits, ?_, hrun, ?_⟩
    · refine Decidable.byContradiction fun hshows => ?_
      rw [hnext, Stmt.shown_eq_empty hshows, append_toUTF8_empty] at hcut
      exact absurd hcut (Nat.not_lt.mpr hfits)
    · rw [← hwhole, hlater, hnext]
    · rw [← hnext]
      exact hcut
    · rw [hrun]
      exact output_giveUpEach rest _

end truncation

/-- The text of a print in a function is cut in its middle. -/
theorem print_cut_in_call :
    let order : Order := .statement (.call 2 "f" [])
    let start (output : Output) : Machine :=
      { Machine.initial {} 0 ⟨[]⟩ output .off with
        routines := Table.empty.put "f" ⟨[], [.print 1 (.string "ab")], "f"⟩ }
    ∃ m', order.run {} (start (.limited 1)) = .error ⟨.outputFull, 1⟩ m' ∧
      m'.output = ⟨some 1, "a".toUTF8⟩ := by
  intro order start
  have hrun : ∃ m', order.run {} (start (.limited 1)) = .error ⟨.outputFull, 1⟩ m' := ⟨_, rfl⟩
  have hwhole : (left (order.run {} (start .unlimited))).output.stored = .empty ++ "ab\n".toUTF8 :=
    rfl
  have hbeginning : (ByteArray.empty ++ "ab\n".toUTF8).extract 0 1 = "a".toUTF8 := by decide
  have hcut := (full_output_only_truncates {} order (m := start .unlimited) rfl (Nat.zero_le 1)).2
  rw [hwhole, hbeginning] at hcut
  obtain ⟨-, -, -, -, -, -, -, -, -, -, -, -, -, -, houtput⟩ := hcut (by decide)
  obtain ⟨m', h⟩ := hrun
  have hcapped : (start .unlimited).capped 1 = start (.limited 1) := rfl
  rw [hcapped, h] at houtput
  exact ⟨m', h, houtput⟩

end DivisionScript
