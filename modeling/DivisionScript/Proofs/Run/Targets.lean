import DivisionScript.Proofs.Run.Effect

/-!
# Run — Targets

Which names statements can write is read off their text: the targets that stand in them, at any
depth of branches and loops, and the names of the functions that they call. The bodies of functions
do not count, neither those that are defined nor those that are called.
-/

namespace DivisionScript

mutual

/-- The names that a statement can write. -/
def Stmt.targets : Stmt → List String
  | .assign _ name _ _ => [name]
  | .print .. => []
  | .input _ name _ => [name]
  | .branch _ _ thenBody elseBody => targetsOfEach thenBody ++ targetsOfEach elseBody
  | .loop _ name _ _ body => name :: targetsOfEach body
  | .rand _ name _ _ => [name]
  | .define .. => []
  | .call _ name _ => [name]

/-- The names that statements can write. -/
def targetsOfEach : List Stmt → List String
  | [] => []
  | s :: rest => s.targets ++ targetsOfEach rest

end

/-- An environment with some of the names written: every other name has the binding that it had, and
no name has lost its own. -/
structure Environment.Extends (names : List String) (env env' : Environment) : Prop where
  binding?_eq : ∀ name ∉ names, env'.binding? name = env.binding? name
  contains : ∀ name, env.contains name → env'.contains name

namespace Environment.Extends

variable {names : List String} {env env' env'' : Environment}

instance (names : List String) : IsPreorder Environment (Extends names) where
  refl _ := ⟨fun _ _ => rfl, fun _ h => h⟩
  trans _ _ _ h h' :=
    ⟨fun name hname => (h'.binding?_eq name hname).trans (h.binding?_eq name hname),
      fun name hname => h'.contains name (h.contains name hname)⟩

theorem set {name : String} (hname : name ∈ names) (value : Value) :
    Extends names env (env.set name value) := by
  constructor
  · intro needle hneedle
    have hne : needle ≠ name := ne_of_mem_of_not_mem hname hneedle |>.symm
    rw [binding?_set, if_neg hne]
  · intro needle hneedle
    rw [Environment.contains, binding?_set]
    split
    · rfl
    · exact hneedle

theorem allows {settings : Settings} {name : String} (hname : name ∈ names) :
    Environment.Allows settings (Extends names) name := by
  rintro env env' (rfl | ⟨-, value, rfl⟩)
  · exact refl_of (Extends names) _
  · exact set hname value

end Environment.Extends

open Run

/-! ## Statements -/

section statements

variable {r : Environment → Environment → Prop} [IsPreorder Environment r]
variable {settings : Settings} {names : List String} {descent : Descent}

mutual

/-- A preorder that allows the writes of its targets allows all that a statement does, however the
bodies of functions are run. -/
theorem Stmt.leads (hallows : ∀ name ∈ names, Environment.Allows settings r name) :
    (s : Stmt) → s.targets ⊆ names → Leads r (s.execute settings descent)
  | .assign line name value tag => by
    intro htargets
    have hname := htargets (List.mem_singleton_self name)
    rw [Stmt.execute]
    exact .after (keeps_note _) fun _ => leads_assign line (hallows name hname) value tag
  | .print line value => by
    intro _
    rw [Stmt.execute]
    exact .after (keeps_note _) fun _ => (keeps_print line value).environment.leads
  | .input line name prompt => by
    intro htargets
    have hname := htargets (List.mem_singleton_self name)
    rw [Stmt.execute]
    exact .after (keeps_note _) fun _ => leads_readInto line (hallows name hname) prompt
  | .branch line condition thenBody elseBody => by
    intro htargets
    rw [Stmt.targets, List.append_subset] at htargets
    rw [Stmt.execute]
    refine .after (keeps_note _) fun _ => .after (keeps_condition line condition) fun truthy => ?_
    refine .after (keeps_note _) fun _ => ?_
    cases truthy with
    | true => exact .after (keeps_note _) fun _ => leads_executeEach hallows thenBody htargets.1
    | false => exact .after (keeps_note _) fun _ => leads_executeEach hallows elseBody htargets.2
  | .loop line name start stop body => by
    intro htargets
    rw [Stmt.targets, List.cons_subset] at htargets
    rw [Stmt.execute]
    refine .after (keeps_note _) fun _ => .after (keeps_integer line start) fun start => ?_
    refine .after (keeps_integer line stop) fun stop => .after (keeps_note _) fun _ => ?_
    refine leads_forEachFrom (fun i => ?_) _ start
    refine (leads_bind line (hallows name htargets.1) _).bind fun _ => ?_
    exact .after (keeps_note _) fun _ => leads_executeEach hallows body htargets.2
  | .rand line name least greatest => by
    intro htargets
    have hname := htargets (List.mem_singleton_self name)
    rw [Stmt.execute]
    exact .after (keeps_note _) fun _ => leads_drawInto line (hallows name hname) least greatest
  | .define line name params body result => by
    intro _
    rw [Stmt.execute]
    exact .after (keeps_note _) fun _ => ((keeps_define name _).map Prod.fst).leads
  | .call line name args => by
    intro htargets
    have hname := htargets (List.mem_singleton_self name)
    rw [Stmt.execute]
    exact .after (keeps_note _) fun _ => leads_call line (hallows name hname) descent args

theorem leads_executeEach (hallows : ∀ name ∈ names, Environment.Allows settings r name) :
    (body : List Stmt) → targetsOfEach body ⊆ names → Leads r (executeEach settings descent body)
  | [] => fun _ => .pure ()
  | s :: rest => by
    intro htargets
    rw [targetsOfEach, List.append_subset] at htargets
    rw [executeEach]
    exact (Stmt.leads hallows s htargets.1).bind fun _ => leads_executeEach hallows rest htargets.2

end

end statements

/-- Statements write no name but their targets, and unbind none. Whether or not they succeed, and
whatever the functions are that they call or define, a name that is no target of them is bound
afterwards exactly as before, value and flag, or unbound as before; and every name that was bound
still is. -/
theorem statements_write_targets (settings : Settings) (body : List Stmt) (m : Machine) :
    (∀ name ∉ targetsOfEach body,
      (left (Run.statements settings body m)).environment.binding? name =
        m.environment.binding? name) ∧
    ∀ name, m.environment.contains name →
      (left (Run.statements settings body m)).environment.contains name := by
  have hbody : Leads (Environment.Extends (targetsOfEach body))
      (executeBody settings (descent settings (m.levels settings)) body) :=
    .after (keeps_note _) fun _ =>
      leads_executeEach (fun _ => Environment.Extends.allows) body (List.Subset.refl _)
  have hextends := hbody m
  exact ⟨hextends.binding?_eq, hextends.contains⟩

/-- The statements redefine `f`, whose new body overwrites `x` and then fails: `x` keeps its value,
and `f`, which they call, stays bound. -/
theorem redefined_body_writes_nothing :
    let body : List Stmt := [.assign 2 "x" (.string "new") none, .print 3 (.identifier "y")]
    let caller : List Stmt := [.define 1 "f" [] body "x", .call 4 "f" []]
    let m : Machine :=
      { Machine.initial {} 0 ⟨[]⟩ .unlimited .off with
        environment := (Environment.empty.set "x" (.string "old")).set "f" (.string "last")
        routines := Table.empty.put "f" ⟨[], [], "x"⟩ }
    ∃ m', Run.statements {} caller m = .error ⟨.unbound "y", 3⟩ m' ∧
      m'.environment.binding? "x" = some ⟨.string "old", false⟩ ∧
      m'.environment.contains "f" := by
  intro body caller m
  have hrun : ∃ m', Run.statements {} caller m = .error ⟨.unbound "y", 3⟩ m' := ⟨_, rfl⟩
  obtain ⟨m', h⟩ := hrun
  have hframe := statements_write_targets {} caller m
  rw [h] at hframe
  exact ⟨m', h, (hframe.1 "x" (by decide)).trans rfl, hframe.2 "f" rfl⟩

end DivisionScript
