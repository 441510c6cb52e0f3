import DivisionScript.Proofs.Run.Leniency
import DivisionScript.Proofs.Run.Mute
import DivisionScript.Proofs.Run.Translation

/-!
# Run — Behind

What a run shows does not depend on what has been shown before it. If something stands in front of
all that the output of a state holds, and the output may hold as much more, then a run goes on in
the same way and adds the same to it.
-/

namespace DivisionScript

open Run

/-- The output with something in front of all that it holds, and as much more room. -/
def Output.behind (before : ByteArray) (output : Output) : Output :=
  ⟨output.limit.map (before.size + ·), before ++ output.stored⟩

theorem Output.write_behind (before : ByteArray) (output : Output) (text : String) :
    (output.behind before).write text =
      ((output.write text).1.behind before, (output.write text).2) := by
  obtain ⟨limit, stored⟩ := output
  cases limit with
  | none => simp only [behind, write, Option.map_none, ByteArray.append_assoc]
  | some limit =>
    have hroom : before.size + limit - (before ++ stored).size = limit - stored.size := by
      rw [ByteArray.size_append]
      omega
    simp only [behind, write, Option.map_some, hroom]
    split <;> simp only [Option.map_some, ByteArray.append_assoc]

theorem Output.limit_write (output : Output) (text : String) :
    (output.write text).1.limit = output.limit := by
  obtain ⟨limit, stored⟩ := output
  cases limit with
  | none => rfl
  | some limit =>
    simp only [write]
    split <;> rfl

/-- The state with something in front of all that its output holds. -/
def Machine.behind (before : ByteArray) (m : Machine) : Machine :=
  m.withOutput (m.output.behind before)

/-- Something stands in front of all that the output holds. -/
def Translation.behind (before : ByteArray) : Translation :=
  ⟨Machine.behind before, id, id⟩

namespace Run

variable {α : Type} (before : ByteArray)

/-- The computation adds the same to every output. -/
abbrev Adds (before : ByteArray) (act : Run α) : Prop :=
  Mirrors (Machine.behind before) id act act

theorem Mute.adds {act : Run α} (h : Mute act) : Adds before act :=
  h.mirrors (Output.behind before)

theorem adds_write (line : Nat) (text : String) : Adds before (write line text) := by
  intro m
  have houtput : (m.behind before).output = m.output.behind before := rfl
  simp only [write, houtput, Output.write_behind]
  split <;> rfl

theorem adds_readNumber (line : Nat) (prompt : String) : Adds before (readNumber line prompt) := by
  by_cases h : prompt = ""
  · rw [h]
    exact (mute_readNumber line).adds before
  · rw [readNumber_eq line h]
    exact (adds_write before line _).bind fun _ => (mute_readNumber line).adds before

end Run

/-- Printing a value and showing a prompt are all that has to be looked at. -/
theorem Stmt.adds_begin (before : ByteArray) (settings : Settings) (s : Stmt) :
    Adds before (s.begin settings) := by
  have hnote := (mute_note (.executing s.line)).adds before
  cases s with
  | print line e =>
    refine hnote.bind fun _ => Mirrors.bind ?_ fun _ => .pure _
    refine ((mute_evaluate line e).adds before).bind fun v => ?_
    exact (adds_write before line _).bind fun _ => (mute_note (.printed v)).adds before
  | input line name prompt =>
    refine hnote.bind fun _ => Mirrors.bind ?_ fun _ => .pure _
    exact (adds_readNumber before line prompt).bind fun _ =>
      (mute_bind settings line name _).adds before
  | _ => exact Mute.adds before (Stmt.mute_begin settings nofun)

theorem Task.adds_perform (before : ByteArray) (settings : Settings) (task : Task) :
    Adds before (task.perform settings) := by
  cases task with
  | statement s => exact s.adds_begin before settings
  | _ => exact Mute.adds before (Task.mute_perform settings nofun)

theorem Translation.behind_faithful (before : ByteArray) (settings : Settings) :
    (behind before).Faithful settings where
  perform task := .of_mirrors rfl (task.adds_perform before settings)
  giveUp task m := by cases task <;> rfl

/-- An order adds the same to every output. -/
theorem Order.run_behind (before : ByteArray) (settings : Settings) (order : Order) (m : Machine) :
    order.run settings (m.behind before) =
      mapResult (Machine.behind before) id (order.run settings m) :=
  (Translation.behind_faithful before settings).run rfl m

/-- An order does the same from states that differ in their reports. -/
theorem Order.run_unreported (settings : Settings) (order : Order) (m : Machine) :
    order.run settings m.unreported = unreportedResult (order.run settings m) :=
  (List.cons.inj (outcomes_unreported settings [order] m)).1

end DivisionScript
