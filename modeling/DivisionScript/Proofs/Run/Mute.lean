import DivisionScript.Proofs.Run.Secluded

/-!
# Run — Mute

What shows nothing. A computation is mute if it goes on in the same way whatever has been written to
the output, and writes nothing to it. What is secluded is mute, and so is reading a number without a
prompt; only printing a value and showing a prompt are not.
-/

namespace DivisionScript

/-- The state with another output. -/
def Machine.withOutput (output : Output) (m : Machine) : Machine :=
  { m with output }

namespace Run

variable {α β : Type}

/-- The computation does the same whatever the output is, and leaves it alone. -/
def Mute (act : Run α) : Prop :=
  ∀ output, Mirrors (Machine.withOutput output) id act act

namespace Mute

theorem keeps {act : Run α} (h : Mute act) : Keeps Machine.output act := by
  intro m
  have hsame : act m = mapResult (Machine.withOutput m.output) id (act m) := h m.output m
  cases hact : act m with
  | ok a m' =>
    rw [hact] at hsame
    exact congrArg (fun result => (left result).output) hsame
  | error failure m' =>
    rw [hact] at hsame
    exact congrArg (fun result => (left result).output) hsame

theorem pure (a : α) : Mute (pure a : Run α) :=
  fun _ => .pure a

theorem bind {x : Run α} {f : α → Run β} (hx : Mute x) (hf : ∀ a, Mute (f a)) : Mute (x >>= f) :=
  fun output => (hx output).bind fun a => hf a output

end Mute

/-- The computation goes on in the same way from an output that is made of its own. -/
theorem Mute.mirrors {act : Run α} (h : Mute act) (f : Output → Output) :
    Mirrors (fun m => m.withOutput (f m.output)) id act act := by
  intro m
  have hkept : (left (act m)).output = m.output := h.keeps m
  show act (m.withOutput (f m.output)) = _
  rw [h (f m.output) m, ← hkept]
  cases act m <;> rfl

theorem Secluded.mute {act : Run α} (h : Secluded act) : Mute act :=
  fun output => h.mirrors id fun _ => output

/-! ## The steps -/

section steps

variable (settings : Settings) (line : Nat)

theorem mute_note (event : Event) : Mute (note event) :=
  (secluded_note event).mute

theorem mute_evaluate (e : Expr) : Mute (evaluate line e) :=
  (secluded_evaluate line e).mute

theorem mute_bind (name : String) (value : Value) : Mute (bind settings line name value) :=
  (secluded_bind settings line name value).mute

theorem mute_readLine : Mute (readLine line) := by
  intro output m
  have hinput : (m.withOutput output).input = m.input := rfl
  rw [readLine, readLine, hinput]
  cases m.input.next? with
  | none => rfl
  | some next =>
    dsimp only
    split <;> rfl

/-- Without a prompt, reading a number is reading a line. -/
theorem readNumber_unprompted :
    readNumber line "" = (do
      let text ← readLine line
      match Number.ofString? (Text.trim text) with
      | some x => do
        note (.inputRead x)
        pure x
      | none => fail line (.inputNotNumber (Text.trim text))) := by
  unfold readNumber
  dsimp only
  exact if_neg (not_not_intro rfl)

/-- A number is read in the same way after a prompt. -/
theorem readNumber_eq {prompt : String} (h : prompt ≠ "") :
    readNumber line prompt = (do write line (prompt ++ ": "); readNumber line "") := by
  rw [readNumber_unprompted]
  unfold readNumber
  dsimp only
  exact if_pos h

theorem mute_readNumber : Mute (readNumber line "") := by
  rw [readNumber_unprompted]
  refine (mute_readLine line).bind fun text => ?_
  cases Number.ofString? (Text.trim text) with
  | some x => exact (mute_note (.inputRead x)).bind fun _ => .pure x
  | none => exact (secluded_fail line _).mute

end steps

end Run

open Run

/-- Whether a statement shows something: it prints a value, or asks with a prompt. -/
def Stmt.shows : Stmt → Bool
  | .print .. => true
  | .input _ _ prompt => prompt ≠ ""
  | _ => false

/-- Whether a task is a statement that shows something. -/
def Task.shows : Task → Bool
  | .statement s => s.shows
  | _ => false

theorem Stmt.mute_begin (settings : Settings) {s : Stmt} (h : ¬ s.shows) :
    Mute (s.begin settings) := by
  cases s with
  | print => exact absurd rfl h
  | input line name prompt =>
    obtain rfl : prompt = "" := by simpa [shows] using h
    exact (mute_note _).bind fun _ => ((mute_readNumber line).bind fun _ =>
      mute_bind settings line name _).bind fun _ => .pure _
  | _ => exact Secluded.mute (Stmt.secluded_begin settings nofun)

/-- Every task is mute but the statements that show something. -/
theorem Task.mute_perform (settings : Settings) {task : Task} (h : ¬ task.shows) :
    Mute (task.perform settings) := by
  cases task with
  | statement s => exact s.mute_begin settings h
  | _ => exact (Task.secluded_perform settings (by exact nofun)).mute

end DivisionScript
