import DivisionScript.Log.Event

/-!
# Log, proved

Reports with other lines. Some reports of a run tell the line of a statement; which reports a log
keeps is settled by their levels, and so does not depend on lines. Adding reports does not change
which ones are kept.
-/

namespace DivisionScript

/-- A report of a run with its line replaced. Other reports are as they were. -/
def Event.relabel (f : Nat → Nat) : Event → Event
  | .executing line => .executing (f line)
  | .tagMismatch line name tag type => .tagMismatch (f line) name tag type
  | event => event

@[simp] theorem Event.level_relabel (f : Nat → Nat) (event : Event) :
    (event.relabel f).level = event.level := by
  cases event <;> rfl

/-- The reports kept so far with their lines replaced. -/
def Log.relabel (f : Nat → Nat) (log : Log) : Log :=
  { log with newestFirst := log.newestFirst.map (Event.relabel f) }

theorem Log.relabel_note (f : Nat → Nat) (log : Log) (event : Event) :
    (log.note event).relabel f = (log.relabel f).note (event.relabel f) := by
  have hkeeps : (log.relabel f).keeps event.level = log.keeps event.level := rfl
  rw [note, note, Event.level_relabel, hkeeps]
  split <;> rfl

theorem Log.threshold_noteAll (log : Log) (events : List Event) :
    (log.noteAll events).threshold = log.threshold := by
  rw [noteAll]
  induction events generalizing log with
  | nil => rfl
  | cons event rest ih => rw [List.foldl_cons, ih, threshold_note]

/-- Other lines, and other reports that go with them. -/
structure Relabelling where
  line : Nat → Nat
  log : Log → Log
  log_note : ∀ l event, log (l.note event) = (log l).note (event.relabel line)

namespace Relabelling

/-- The lines of all reports are replaced too. -/
def full (f : Nat → Nat) : Relabelling :=
  ⟨f, Log.relabel f, Log.relabel_note f⟩

/-- No report is kept. -/
def silent (f : Nat → Nat) : Relabelling :=
  ⟨f, fun _ => .off, fun _ _ => rfl⟩

end Relabelling

end DivisionScript
