import DivisionScript.Proofs.Run.Termination

/-!
# Run — Session

One state that carries out one order after another: programs, lists of statements and single
statements, whether or not those before have failed. `Session` tells every place that the steps of
the orders lead through, and `Session.carriesOut` that among them are the states that execution
leaves between the orders.
-/

namespace DivisionScript

open Run

/-- What a state can be told to carry out. -/
inductive Order where
  | program (p : Program)
  | statements (body : List Stmt)
  | statement (s : Stmt)

/-- What is to be done to carry out an order. -/
def Order.task : Order → Task
  | program p => .program p
  | statements body => .block body
  | statement s => .statement s

/-- Carries out an order. -/
def Order.run (settings : Settings) : Order → Run Unit
  | program p => Run.program settings p
  | statements body => Run.statements settings body
  | statement s => Run.statement settings s

/-- The state after orders have been carried out one after another, whether or not they failed. -/
def carryOut (settings : Settings) : List Order → Machine → Machine
  | [], m => m
  | order :: orders, m => carryOut settings orders (left (order.run settings m))

/-- A session that was opened with the state `start` is at a place, and `past` are the places that
it has left, the latest one first. An order is given where nothing is left to do; a failure before
it is forgotten. -/
inductive Session (settings : Settings) (start : Machine) : (past : List Config) → Config → Prop
  | opened : Session settings start [] ⟨start, [], none⟩
  | ordered {past : List Config} {c : Config} (h : Session settings start past c)
      (hover : c.Halted) (order : Order) :
      Session settings start (c :: past) ⟨c.machine, [order.task], none⟩
  | stepped {past : List Config} {c c' : Config} (h : Session settings start past c)
      (hstep : c.step settings = some c') : Session settings start (c :: past) c'

variable {settings : Settings} {start m : Machine} {past : List Config} {c c' : Config}

theorem Order.performs (order : Order) : Performs settings [order.task] (order.run settings) m := by
  cases order with
  | program p => exact program_performs p
  | statements body => exact statements_perform body
  | statement s => exact statement_performs s

/-- A run that has ended somewhere has the result of execution. -/
theorem Order.run_eq {order : Order} (h : Config.Reaches settings ⟨m, [order.task], none⟩ c)
    (hover : c.Halted) : order.run settings m = c.result := by
  obtain ⟨c', h', hover', hresult⟩ := (order.performs (m := m)).ends
  rw [← hresult, Config.halted_unique h h' hover hover']

theorem Config.machine_eq {result : EStateM.Result Failure Machine Unit}
    (h : c.result = result) : c.machine = left result := by
  subst h
  rw [Config.result]
  cases c.failure <;> rfl

namespace Session

theorem reaches (h : Session settings start past c) (hreaches : Config.Reaches settings c c') :
    ∃ past', Session settings start past' c' := by
  induction hreaches with
  | refl => exact ⟨past, h⟩
  | tail _ hstep ih =>
    obtain ⟨past', h'⟩ := ih
    exact ⟨_, h'.stepped hstep⟩

/-- A session that has nothing left to do can carry out orders as execution says. -/
theorem continues (orders : List Order) (h : Session settings start past c) (hover : c.Halted) :
    ∃ past' c', Session settings start past' c' ∧ c'.Halted ∧
      c'.machine = carryOut settings orders c.machine := by
  induction orders generalizing past c with
  | nil => exact ⟨past, c, h, hover, rfl⟩
  | cons order orders ih =>
    obtain ⟨after, hreaches, hover', hresult⟩ := (order.performs (m := c.machine)).ends
    obtain ⟨past', h'⟩ := (h.ordered hover order).reaches hreaches
    have hrest := ih h' hover'
    rwa [Config.machine_eq hresult] at hrest

theorem carriesOut (settings : Settings) (start : Machine) (orders : List Order) :
    ∃ past c, Session settings start past c ∧ c.Halted ∧
      c.machine = carryOut settings orders start :=
  opened.continues orders rfl

end Session

end DivisionScript
