import DivisionScript.Proofs.Run.Frame

/-!
# Run — Failure

A statement that fails on its own account writes nothing: an assignment, a print, an input, a
random number and a call leave the environment as it was, whatever went wrong. Branches and loops
are left out, since the statements inside them that came before the failure have been carried out.
-/

namespace DivisionScript

/-- Whether a statement evaluates, prints, reads or writes by itself. -/
def Stmt.isAct : Stmt → Bool
  | .assign .. | .print .. | .input .. | .rand .. | .call .. => true
  | .branch .. | .loop .. | .define .. => false

/-- Whether a statement calls a function. -/
def Stmt.isCall : Stmt → Bool
  | .call .. => true
  | _ => false

open Run

variable {settings : Settings} {s : Stmt}

theorem Stmt.atomic_core (descent : Descent) (hact : s.isAct) (hcall : ¬ s.isCall) :
    Atomic Machine.core (s.execute settings descent) := by
  cases s with
  | assign line name value tag =>
    rw [Stmt.execute]
    exact .bind (keeps_note _) fun _ => atomic_assign settings line name value tag
  | print line value =>
    rw [Stmt.execute]
    exact .bind (keeps_note _) fun _ => (keeps_print line value).atomic
  | input line name prompt =>
    rw [Stmt.execute]
    exact .bind (keeps_note _) fun _ => atomic_readInto settings line name prompt
  | rand line name least greatest =>
    rw [Stmt.execute]
    exact .bind (keeps_note _) fun _ => atomic_drawInto settings line name least greatest
  | call => exact absurd rfl hcall
  | branch | loop | define => cases hact

theorem Stmt.atomic_environment (descent : Descent) (hact : s.isAct) :
    Atomic Machine.environment (s.execute settings descent) := by
  by_cases hcall : s.isCall
  · cases s with
    | call line name args =>
      rw [Stmt.execute]
      exact .bind ((keeps_note _).map Prod.fst) fun _ =>
        atomic_call settings line name descent args
    | _ => cases hcall
  · exact (Stmt.atomic_core descent hact hcall).map Prod.fst

/-- A failed statement leaves the environment as it was, bindings and flags alike, and the
functions too unless it is a call. -/
theorem failed_statement_writes_nothing {m m' : Machine} {failure : Failure} (hact : s.isAct)
    (h : Run.statement settings s m = .error failure m') :
    m'.environment = m.environment ∧ (¬ s.isCall → m'.routines = m.routines) := by
  constructor
  · exact Stmt.atomic_environment _ hact h
  · intro hcall
    have hcore := Stmt.atomic_core _ hact hcall h
    exact congrArg (·.2.1) hcore

/-- The body of `f` overwrites `x` and then fails; the call leaves `x` as it was. -/
theorem failed_call_restores :
    let body : List Stmt := [.assign 1 "x" (.string "new") none, .print 2 (.identifier "y")]
    let m : Machine :=
      { Machine.initial {} 0 ⟨[]⟩ .unlimited .off with
        environment := Environment.empty.set "x" (.string "old")
        routines := Table.empty.put "f" ⟨[], body, "x"⟩ }
    ∃ m', Run.statement {} (.call 4 "f" []) m = .error ⟨.unbound "y", 2⟩ m' ∧
      m'.environment = m.environment := by
  intro body m
  have hrun : ∃ m', Run.statement {} (.call 4 "f" []) m = .error ⟨.unbound "y", 2⟩ m' := ⟨_, rfl⟩
  obtain ⟨m', h⟩ := hrun
  exact ⟨m', h, (failed_statement_writes_nothing rfl h).1⟩

end DivisionScript
