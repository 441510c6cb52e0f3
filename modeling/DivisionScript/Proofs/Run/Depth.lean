import DivisionScript.Proofs.Run.Frame

/-!
# Run — Depth

Whatever is executed, as many calls are in progress afterwards as before, also where it fails.
-/

namespace DivisionScript

open Run

theorem Machine.levels_eq {settings : Settings} {m m' : Machine} (h : m'.depth = m.depth) :
    m'.levels settings = m.levels settings := by
  rw [Machine.levels, Machine.levels, h]

variable (settings : Settings) (descent : Descent)

theorem Run.keeps_forEachFrom {γ : Type} {view : Machine → γ} {act : Int → Run Unit}
    (h : ∀ i, Keeps view (act i)) (count : Nat) (start : Int) :
    Keeps view (forEachFrom act count start) := by
  induction count generalizing start with
  | zero => exact .pure ()
  | succ count ih => exact (h start).bind fun _ => ih (start + 1)

mutual

theorem Stmt.keeps_depth : (s : Stmt) → Keeps Machine.depth (s.execute settings descent)
  | .assign line name value tag => by
    rw [Stmt.execute]
    exact (keeps_note _).calls.depth.bind fun _ =>
      (keeps_assign settings line name value tag).depth
  | .print line value => by
    rw [Stmt.execute]
    exact (keeps_note _).calls.depth.bind fun _ => (keeps_print line value).calls.depth
  | .input line name prompt => by
    rw [Stmt.execute]
    exact (keeps_note _).calls.depth.bind fun _ =>
      (keeps_readInto settings line name prompt).depth
  | .branch line condition thenBody elseBody => by
    rw [Stmt.execute]
    refine (keeps_note _).calls.depth.bind fun _ => ?_
    refine (keeps_condition line condition).calls.depth.bind fun truthy => ?_
    refine (keeps_note _).calls.depth.bind fun _ => ?_
    cases truthy with
    | true => exact (keeps_note _).calls.depth.bind fun _ => keeps_depth_each thenBody
    | false => exact (keeps_note _).calls.depth.bind fun _ => keeps_depth_each elseBody
  | .loop line name start stop body => by
    rw [Stmt.execute]
    refine (keeps_note _).calls.depth.bind fun _ => ?_
    refine (keeps_integer line start).calls.depth.bind fun start => ?_
    refine (keeps_integer line stop).calls.depth.bind fun stop => ?_
    refine (keeps_note _).calls.depth.bind fun _ => keeps_forEachFrom (fun i => ?_) _ start
    refine (keeps_bind settings line name _).depth.bind fun _ => ?_
    exact (keeps_note _).calls.depth.bind fun _ => keeps_depth_each body
  | .rand line name least greatest => by
    rw [Stmt.execute]
    exact (keeps_note _).calls.depth.bind fun _ =>
      (keeps_drawInto settings line name least greatest).depth
  | .define line name params body result => by
    rw [Stmt.execute]
    exact (keeps_note _).calls.depth.bind fun _ => (keeps_define name _).map Prod.snd
  | .call line name args => by
    rw [Stmt.execute]
    exact (keeps_note _).calls.depth.bind fun _ =>
      keeps_call settings line name descent args

theorem keeps_depth_each : (body : List Stmt) →
    Keeps Machine.depth (executeEach settings descent body)
  | [] => .pure ()
  | s :: rest => by
    rw [executeEach]
    exact (Stmt.keeps_depth s).bind fun _ => keeps_depth_each rest

end

theorem keeps_depth_body (body : List Stmt) :
    Keeps Machine.depth (executeBody settings descent body) :=
  (keeps_note _).calls.depth.bind fun _ => keeps_depth_each settings descent body

end DivisionScript
