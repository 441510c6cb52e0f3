import DivisionScript.Proofs.Run.Relabel
import DivisionScript.Proofs.Run.Sources

/-!
# Run — Intake

What a run leaves of the input, and which reports its log goes on to keep. Lines are only taken from
the front of the input, and only by reading a number; everything else leaves the input alone. The
lines that are left are the lines of the bytes that are left. The level from which on a log keeps
reports never changes.
-/

namespace DivisionScript

/-! ## Lines -/

namespace Input

/-- Splitting bytes into lines loses nothing. -/
theorem flatten_splitLines (bytes : List UInt8) : (splitLines bytes).flatten = bytes := by
  induction bytes with
  | nil => rfl
  | cons b bs ih =>
    rw [splitLines]
    split
    · rw [List.flatten_cons, ih, List.singleton_append]
    · cases hlines : splitLines bs with
      | nil =>
        rw [hlines] at ih
        rw [← ih]
        rfl
      | cons line rest =>
        rw [hlines] at ih
        rw [← ih]
        rfl

/-- Lines that are left are the lines of the bytes that are left. -/
theorem splitLines_flatten {lines : List (List UInt8)} {bytes : List UInt8}
    (h : lines <:+ splitLines bytes) : splitLines lines.flatten = lines := by
  induction bytes with
  | nil =>
    rw [List.suffix_nil.mp h]
    rfl
  | cons b bs ih =>
    by_cases hall : lines = splitLines (b :: bs)
    · rw [hall, flatten_splitLines]
    · -- a line is missing, so what is left was left already after the first byte
      refine ih ?_
      rw [splitLines] at h hall
      by_cases hb : b = 10
      · rw [if_pos hb] at h hall
        exact (List.suffix_cons_iff.mp h).resolve_left hall
      · rw [if_neg hb] at h hall
        cases hlines : splitLines bs with
        | nil =>
          rw [hlines] at h hall
          exact (List.suffix_cons_iff.mp h).resolve_left hall
        | cons line rest =>
          rw [hlines] at h hall
          exact ((List.suffix_cons_iff.mp h).resolve_left hall).trans (List.suffix_cons line rest)

end Input

/-! ## What computations take -/

namespace Run

variable {α β : Type}

/-- Whether or not it succeeds, the computation takes nothing from the input but lines from its
front. -/
def Takes (act : Run α) : Prop :=
  ∀ m, (left (act m)).input.lines <:+ m.input.lines

namespace Takes

theorem pure (a : α) : Takes (pure a : Run α) :=
  fun _ => List.suffix_rfl

theorem fail (line : Nat) (fault : Fault) : Takes (fail line fault : Run α) :=
  fun _ => List.suffix_rfl

theorem bind {x : Run α} {f : α → Run β} (hx : Takes x) (hf : ∀ a, Takes (f a)) :
    Takes (x >>= f) := by
  intro m
  have hfirst := hx m
  cases h : x m with
  | ok a m' =>
    rw [h] at hfirst
    rw [bind_ok h]
    exact (hf a m').trans hfirst
  | error failure m' =>
    rw [h] at hfirst
    rw [bind_error h]
    exact hfirst

theorem ite {c : Prop} [Decidable c] {x y : Run α} (hx : Takes x) (hy : Takes y) :
    Takes (if c then x else y) := by
  split
  · exact hx
  · exact hy

end Takes

/-- What leaves the input alone takes nothing from it. -/
theorem Keeps.takes {act : Run α} (h : Keeps Machine.input act) : Takes act := by
  intro m
  exact (congrArg Input.lines (h m)) ▸ List.suffix_rfl

section steps

variable (settings : Settings) (line : Nat) (name : String)

/-- A line that is not text is taken all the same. -/
theorem takes_readLine : Takes (readLine line) := by
  intro m
  cases hlines : m.input.lines with
  | nil =>
    have hnext : m.input.next? = none := by rw [Input.next?, hlines]
    rw [readLine, hnext, ← hlines]
    exact List.suffix_rfl
  | cons bytes rest =>
    have hnext : m.input.next? = some (bytes, ⟨rest⟩) := by rw [Input.next?, hlines]
    rw [readLine, hnext]
    dsimp only
    split <;> exact List.suffix_cons bytes rest

theorem takes_readNumber (prompt : String) : Takes (readNumber line prompt) := by
  unfold readNumber
  dsimp only
  -- with or without a prompt, the line is read in the same way
  refine .ite ((sources_write line _).input.takes.bind fun _ => ?_) ?_
  all_goals
    refine (takes_readLine line).bind fun text => ?_
    cases Number.ofString? (Text.trim text) with
    | some x => exact (sources_note _).input.takes.bind fun _ => .pure x
    | none => exact .fail line _

theorem takes_readInto (prompt : String) : Takes (readInto settings line name prompt) :=
  (takes_readNumber line prompt).bind fun _ => (sources_bind settings line name _).input.takes

end steps

end Run

open Run

theorem Stmt.takes_begin (settings : Settings) (s : Stmt) : Takes (s.begin settings) := by
  by_cases h : s.reads
  · cases s with
    | input line name prompt =>
      exact (sources_note _).input.takes.bind fun _ =>
        (takes_readInto settings line name prompt).bind fun _ => .pure _
    | _ => cases h
  · exact (s.keeps_input settings h).takes

/-! ## Steps and orders -/

variable {settings : Settings} {c c' : Config}

theorem Config.step_takes (h : c.step settings = some c') :
    c'.machine.input.lines <:+ c.machine.input.lines := by
  rcases step_sources h with ⟨m, s, rest, rfl, hbegin⟩ | ⟨-, hkept⟩
  · rw [hbegin]
    exact s.takes_begin settings m
  · have hinput : c'.machine.input = c.machine.input := congrArg Prod.fst hkept
    exact (congrArg Input.lines hinput) ▸ List.suffix_rfl

theorem Config.reaches_takes (h : Reaches settings c c') :
    c'.machine.input.lines <:+ c.machine.input.lines := by
  induction h with
  | refl => exact List.suffix_rfl
  | tail _ hstep ih => exact (step_takes hstep).trans ih

/-- An order takes nothing from the input but lines from its front. -/
theorem Order.takes (settings : Settings) (order : Order) : Takes (order.run settings) := by
  intro m
  have hperforms : Performs settings [order.task] (order.run settings) m := order.performs
  obtain ⟨c, hreaches, -, hresult⟩ := hperforms.ends
  rw [← Config.machine_eq hresult]
  exact Config.reaches_takes hreaches

/-! ## The level of the log -/

/-- Logs of another level than the given one have held one more report from the beginning on. -/
def Relabelling.elsewhere (threshold : Option Level) (event : Event) : Relabelling where
  line := id
  log l := if l.threshold = threshold then l
    else { l with newestFirst := l.newestFirst ++ [event] }
  log_note l later := by
    have hsame : later.relabel id = later := by cases later <;> rfl
    rw [hsame, Log.threshold_note]
    split
    · rfl
    · have hkeeps : Log.keeps { l with newestFirst := l.newestFirst ++ [event] } later.level =
          l.keeps later.level := rfl
      rw [Log.note, Log.note, hkeeps]
      split <;> rfl

/-- If an order led to a log of another level, it would not be the log that it leads to, since a
report that such logs have held before would be missing. -/
theorem Order.threshold_run (settings : Settings) (order : Order) (m : Machine) :
    (left (order.run settings m)).log.threshold = m.log.threshold := by
  refine Decidable.byContradiction fun hother => ?_
  let ρ := Relabelling.elsewhere m.log.threshold .parsingProgram
  have hstart : ρ.machine m = m := by
    rw [Relabelling.machine_eq ρ rfl]
    exact congrArg (fun log => { m with log }) (if_pos rfl)
  have hrun := relabels_run ρ settings order m
  rw [show ρ.line = id from rfl, order.relabel_id, hstart] at hrun
  have hleft : left (order.run settings m) = ρ.machine (left (order.run settings m)) :=
    (congrArg left hrun).trans (left_result ρ _)
  have hlog := congrArg (fun m => m.log.newestFirst.length) hleft
  rw [Relabelling.machine_eq ρ rfl] at hlog
  dsimp only [ρ, Relabelling.elsewhere] at hlog
  rw [if_neg hother, List.length_append] at hlog
  exact absurd hlog (by simp)

end DivisionScript
