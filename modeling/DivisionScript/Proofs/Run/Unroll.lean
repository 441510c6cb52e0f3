import DivisionScript.Proofs.Run.Leniency
import DivisionScript.Proofs.Run.Unfold

/-!
# Run — Unroll

A loop is its unrolling. The bounds are read once, where the loop begins, and what its body does
has no influence on how often it runs and with which numbers. So the loop does what the list of
statements does that assigns the numbers of the range one after another, each assignment followed
by the body; the two differ in their reports alone.
-/

namespace DivisionScript

/-- The statements of the passes of a loop: each whole number of the range in order is assigned to
the name, and the body follows. -/
def unrolled (line : Nat) (name : String) (start stop : Int) (body : List Stmt) : List Stmt :=
  (List.range (stop - start + 1).toNat).flatMap fun k : Nat =>
    .assign line name (.number (Number.ofWhole (start + k))) none :: body

namespace Run

variable {α : Type} {settings : Settings} {m : Machine} {line : Nat} {name : String}

/-- Without reports, the second computation does what the first one does. -/
abbrev Hushes (x x' : Run α) : Prop :=
  Mirrors Machine.unreported id x x'

theorem Relabels.hushes {x x' : Run α} (h : Relabels (.silent id) x x') : Hushes x x' := by
  have hmachine : (Relabelling.silent id).machine = Machine.unreported :=
    funext Relabelling.machine_silent_id
  intro m
  have hm := h m
  rwa [hmachine] at hm

theorem hushes_bind (value : Value) :
    Hushes (bind settings line name value) (bind settings line name value) :=
  (relabels_bind (.silent id) settings line name value).hushes

theorem hushes_statement (s : Stmt) :
    Hushes (Run.statement settings s) (Run.statement settings s) := by
  have hrun := relabels_run (.silent id) settings (.statement s)
  rw [Order.relabel, show (Relabelling.silent id).line = id from rfl, s.relabel_id] at hrun
  exact hrun.hushes

theorem hushes_each (body : List Stmt) : Hushes (each settings body) (each settings body) := by
  induction body with
  | nil => exact .pure ()
  | cons s rest ih => exact (hushes_statement s).bind fun _ => ih

/-- The announcement of a list of statements is a report. -/
theorem hushes_statements (body : List Stmt) :
    Hushes (Run.statements settings body) (each settings body) := by
  rw [statements_eq]
  intro m
  exact hushes_each body { m with log := m.log.note (.interpreting body.length) }

/-- The assignment of a number evaluates nothing and warns of nothing. -/
theorem hushes_assign (x : Float) :
    Hushes (bind settings line name (.number x))
      (Run.statement settings (.assign line name (.number x) none)) :=
  fun m => hushes_bind (.number x) m

theorem hushes_pass (body : List Stmt) (i : Int) :
    Hushes (pass settings line name body i)
      (each settings (.assign line name (.number (Number.ofWhole i)) none :: body)) :=
  (hushes_assign _).bind fun _ => hushes_statements body

theorem each_append (body more : List Stmt) :
    each settings (body ++ more) = (each settings body >>= fun _ => each settings more) :=
  List.forM_append

/-- The induction is on how many passes are left. -/
theorem hushes_passes (settings : Settings) (line : Nat) (name : String) (body : List Stmt)
    (count : Nat) (start : Int) :
    Hushes (forEachFrom (pass settings line name body) count start)
      (each settings ((List.range count).flatMap fun k : Nat =>
        .assign line name (.number (Number.ofWhole (start + k))) none :: body)) := by
  induction count generalizing start with
  | zero => exact .pure ()
  | succ count ih =>
    have hrest := ih (start + 1)
    simp only [Int.add_assoc, Int.add_comm 1] at hrest
    rw [List.range_succ_eq_map, List.flatMap_cons, List.flatMap_map, each_append]
    refine Mirrors.bind ?_ fun _ => hrest
    rw [Int.natCast_zero, Int.add_zero]
    exact hushes_pass body start

/-- An expression whose value is a whole number denotes it. -/
theorem integer_of_value (line : Nat) {e : Expr} {n : Int}
    (h : e.value m.environment >>= Value.asInteger = .ok n) :
    ∃ log, integer line e m = .ok n { m with log } := by
  obtain ⟨log, hinteger⟩ := integer_eq line e m
  rw [h] at hinteger
  exact ⟨log, hinteger⟩

/-- A loop whose bounds are whole numbers goes on with its passes. -/
theorem loop_eq_passes (settings : Settings) {first last : Expr} {start stop : Int}
    (body : List Stmt)
    (hstart : first.value m.environment >>= Value.asInteger = .ok start)
    (hstop : last.value m.environment >>= Value.asInteger = .ok stop) :
    ∃ log, Run.statement settings (.loop line name first last body) m =
      forRange start stop (pass settings line name body) { m with log } := by
  let noted : Machine := { m with log := m.log.note (.executing line) }
  have hnote : note (.executing line) m = .ok () noted := rfl
  obtain ⟨log₁, hfirst⟩ := integer_of_value (m := noted) line hstart
  obtain ⟨log₂, hlast⟩ := integer_of_value (m := { noted with log := log₁ }) line hstop
  refine ⟨log₂.note (.looping name start stop), ?_⟩
  rw [statement_eq, Stmt.begin, bind_assoc, bind_ok hnote, bind_assoc, bind_ok hfirst, bind_assoc,
    bind_ok hlast]
  rfl

end Run

open Run

/-- A loop is its unrolling. If the bounds of a loop are whole numbers in a state, then from there
the loop ends as the statements end that assign the numbers of its range in order to its name, on
the line of the loop, each assignment followed by the body: with success or the same failure, and
with the same environment, functions, random numbers, depth, input and output. -/
theorem loop_is_unrolling (settings : Settings) (m : Machine) (line : Nat) (name : String)
    {first last : Expr} {start stop : Int} (body : List Stmt)
    (hstart : first.value m.environment >>= Value.asInteger = .ok start)
    (hstop : last.value m.environment >>= Value.asInteger = .ok stop) :
    unreportedResult (Run.statement settings (.loop line name first last body) m) =
      unreportedResult (Run.statements settings (unrolled line name start stop body) m) := by
  obtain ⟨log, hloop⟩ := loop_eq_passes settings body hstart hstop
  have hpasses := hushes_passes settings line name body (stop - start + 1).toNat start
    { m with log }
  calc unreportedResult (Run.statement settings (.loop line name first last body) m)
    _ = each settings (unrolled line name start stop body) m.unreported := by
      rw [hloop]
      exact hpasses.symm
    _ = unreportedResult (Run.statements settings (unrolled line name start stop body) m) :=
      hushes_statements (unrolled line name start stop body) m

/-- A loop whose body redefines the function that it calls, and writes to its own name and to the
name in its bound. The new function fails in the second pass. -/
theorem unrolling_fails_in_second_pass :
    let body : List Stmt := [.call 2 "f" [], .define 3 "f" [] [.print 4 (.identifier "y")] "f",
      .assign 5 "i" (.string "x") none, .assign 6 "n" (.identifier "i") none]
    let loop : Stmt := .loop 1 "i" (.number 1.0) (.identifier "n") body
    let m : Machine := { Machine.initial {} 0 ⟨[]⟩ .unlimited .off with
      environment := Environment.empty.set "n" (.number 2.0)
      routines := Table.empty.put "f" ⟨[], [], "f"⟩ }
    (∃ failure m', Run.statement {} loop m = .error failure m' ∧ failure.line = 4) ∧
    unreportedResult (Run.statement {} loop m) =
      unreportedResult (Run.statements {} (unrolled 1 "i" 1 2 body) m) := by
  intro body loop m
  have hstart : (Expr.number 1.0).value m.environment >>= Value.asInteger = .ok 1 := rfl
  have hstop : (Expr.identifier "n").value m.environment >>= Value.asInteger = .ok 2 := rfl
  refine ⟨?_, loop_is_unrolling {} m 1 "i" body hstart hstop⟩
  have hline : (failure? (Run.statement {} loop m)).map Failure.line = some 4 := by decide +kernel
  obtain ⟨failure, hfailure, hline⟩ := Option.map_eq_some_iff.mp hline
  obtain ⟨m', hrun⟩ := failure?_eq_some.mp hfailure
  exact ⟨failure, m', hrun, hline⟩

end DivisionScript
