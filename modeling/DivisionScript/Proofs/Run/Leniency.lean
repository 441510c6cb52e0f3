import DivisionScript.Proofs.Run.Relabel

/-!
# Run — Leniency

Settings that refuse less. If the only failures that other settings would have avoided do not come
up, a run under the other settings is the same run: a limit of calls that is not hit may be raised,
and constants that nothing tries to write need no protection. Both are instances of one simulation:
`Lenient` says of two settings what they do with a single write, a declaration and a call, and
`unless_run` carries this through whole runs.
-/

namespace DivisionScript

open Run

namespace Run

variable {α β : Type} {bad : Failure → Prop}

/-- The second computation does what the first one does, unless the first one fails in one of the
excepted ways. -/
def Unless (bad : Failure → Prop) (x y : Run α) : Prop :=
  ∀ m, (∃ failure m', x m = .error failure m' ∧ bad failure) ∨ y m = x m

namespace Unless

theorem refl (x : Run α) : Unless bad x x :=
  fun _ => .inr rfl

/-- An excepted failure of the first part is one of the whole. -/
theorem bind {x y : Run α} {f g : α → Run β} (hxy : Unless bad x y)
    (hfg : ∀ a, Unless bad (f a) (g a)) : Unless bad (x >>= f) (y >>= g) := by
  intro m
  rcases hxy m with ⟨failure, m', hx, hbad⟩ | hsame
  · exact .inl ⟨failure, m', bind_error hx, hbad⟩
  · cases hx : x m with
    | error failure m' =>
      right
      rw [bind_error hx, bind_error (hsame.trans hx)]
    | ok a m' =>
      rw [bind_ok hx, bind_ok (hsame.trans hx)]
      exact hfg a m'

theorem after (x : Run α) {f g : α → Run β} (hfg : ∀ a, Unless bad (f a) (g a)) :
    Unless bad (x >>= f) (x >>= g) :=
  (refl x).bind hfg

theorem get {f g : Machine → Run β} (hfg : ∀ m, Unless bad (f m) (g m)) :
    Unless bad (MonadState.get >>= f) (MonadState.get >>= g) :=
  fun m => hfg m m

theorem ite {c : Prop} [Decidable c] {x x' y y' : Run α} (hx : Unless bad x x')
    (hy : Unless bad y y') : Unless bad (if c then x else y) (if c then x' else y') := by
  split
  · exact hx
  · exact hy

theorem fail {line : Nat} {fault : Fault} (hbad : bad ⟨fault, line⟩) (y : Run α) :
    Unless bad (Run.fail line fault) y :=
  fun m => .inl ⟨_, m, rfl, hbad⟩

theorem leaving {x y : Run α} (leave : Machine → Machine) (hxy : Unless bad x y) :
    Unless bad (leaving leave x) (leaving leave y) := by
  intro m
  rw [Run.leaving, Run.leaving]
  rcases hxy m with ⟨failure, m', hx, hbad⟩ | hsame
  · rw [hx]
    exact .inl ⟨failure, leave m', rfl, hbad⟩
  · rw [hsame]
    exact .inr rfl

theorem forEachFrom {act act' : Int → Run Unit} (h : ∀ i, Unless bad (act i) (act' i))
    (count : Nat) (start : Int) :
    Unless bad (forEachFrom act count start) (forEachFrom act' count start) := by
  induction count generalizing start with
  | zero => exact refl _
  | succ count ih => exact (h start).bind fun _ => ih (start + 1)

end Unless

end Run

/-! ## Two settings -/

/-- A write, a declaration or a call under the second settings is the same as under the first ones,
unless it fails there in one of the excepted ways. -/
structure Settings.Lenient (bad : Failure → Prop) (strict lenient : Settings) : Prop where
  bind : ∀ line name value,
    Unless bad (Run.bind strict line name value) (Run.bind lenient line name value)
  defineConstant : ∀ line name value,
    Unless bad (Run.defineConstant strict line name value)
      (Run.defineConstant lenient line name value)
  limit : lenient.maxCallDepth = strict.maxCallDepth ∨
    strict.maxCallDepth ≤ lenient.maxCallDepth ∧
      ∀ line, bad ⟨.callDepth strict.maxCallDepth.toNat, line⟩

/-- What bodies are run in under the second settings does the same, and refuses a call only where
the first settings do. -/
structure Descent.Lenient (bad : Failure → Prop) (strict lenient : Settings)
    (descent descent' : Descent) : Prop where
  enters : ∀ enter ∈ descent, ∃ enter' ∈ descent', ∀ body, Unless bad (enter body) (enter' body)
  refuses : descent = none →
    descent' = none ∧ lenient.maxCallDepth = strict.maxCallDepth ∨
      ∀ line, bad ⟨.callDepth strict.maxCallDepth.toNat, line⟩

variable {bad : Failure → Prop} {strict lenient : Settings}

/-! ## What statements are made of -/

section parts

variable (h : Settings.Lenient bad strict lenient)
include h

theorem unless_assign (line : Nat) (name : String) (value : Expr) (tag : Option TypeTag) :
    Unless bad (assign strict line name value tag) (assign lenient line name value tag) :=
  .after _ fun v => .after _ fun _ => .after _ fun _ => h.bind line name v

theorem unless_readInto (line : Nat) (name prompt : String) :
    Unless bad (readInto strict line name prompt) (readInto lenient line name prompt) :=
  .after _ fun x => h.bind line name (.number x)

theorem unless_drawInto (line : Nat) (name : String) (least greatest : Expr) :
    Unless bad (drawInto strict line name least greatest)
      (drawInto lenient line name least greatest) := by
  refine .after _ fun l => .after _ fun g => .ite (.refl _) ?_
  exact .after _ fun drawn => .after _ fun _ => h.bind line name _

theorem unless_bindEach (line : Nat) (params : List String) (values : List Value) :
    Unless bad (bindEach strict line params values) (bindEach lenient line params values) := by
  induction params generalizing values with
  | nil => exact .refl _
  | cons param params ih =>
    cases values with
    | nil => exact .refl _
    | cons value values => exact .after _ fun _ => (h.bind line param value).bind fun _ => ih values

/-- The environment is put back also after an excepted failure. -/
theorem unless_activate (line : Nat) (routine : Routine) (values : List Value)
    {enter enter' : List Stmt → Run Unit} (henter : ∀ body, Unless bad (enter body) (enter' body)) :
    Unless bad (activate strict line routine values enter)
      (activate lenient line routine values enter') := by
  intro before
  refine Unless.leaving (fun after =>
    { after with environment := before.environment, depth := before.depth }) ?_ _
  exact (unless_bindEach h line routine.params values).bind fun _ =>
    (henter routine.body).bind fun _ => .refl _

theorem unless_call {descent descent' : Descent}
    (hdescent : Descent.Lenient bad strict lenient descent descent') (line : Nat) (name : String)
    (args : List Expr) :
    Unless bad (call strict descent line name args) (call lenient descent' line name args) := by
  refine .get fun m => ?_
  cases m.routines.get? name with
  | none => exact .refl _
  | some routine =>
    refine .ite (.refl _) (.after _ fun values => ?_)
    cases hd : descent with
    | none =>
      rcases hdescent.refuses hd with ⟨hd', hlimit⟩ | hbad
      · rw [hd', hlimit]
        exact .refl _
      · exact .fail (hbad line) _
    | some enter =>
      obtain ⟨enter', hd', henter⟩ := hdescent.enters enter hd
      rw [hd']
      exact .after _ fun _ => (unless_activate h line routine values henter).bind fun value =>
        .after _ fun _ => h.bind line name value

end parts

/-! ## Statements -/

section statements

variable {descent descent' : Descent}

mutual

theorem unless_statement (h : Settings.Lenient bad strict lenient)
    (hdescent : Descent.Lenient bad strict lenient descent descent') :
    (s : Stmt) → Unless bad (s.execute strict descent) (s.execute lenient descent')
  | .assign line name value tag => by
    rw [Stmt.execute, Stmt.execute]
    exact .after _ fun _ => unless_assign h line name value tag
  | .print line value => by
    rw [Stmt.execute, Stmt.execute]
    exact .refl _
  | .input line name prompt => by
    rw [Stmt.execute, Stmt.execute]
    exact .after _ fun _ => unless_readInto h line name prompt
  | .branch line condition thenBody elseBody => by
    rw [Stmt.execute, Stmt.execute]
    refine .after _ fun _ => .after _ fun truthy => .after _ fun _ => .ite ?_ ?_
    · exact .after _ fun _ => unless_statements h hdescent thenBody
    · exact .after _ fun _ => unless_statements h hdescent elseBody
  | .loop line name start stop body => by
    rw [Stmt.execute, Stmt.execute]
    refine .after _ fun _ => .after _ fun start => .after _ fun stop => .after _ fun _ => ?_
    refine .forEachFrom (fun i => (h.bind line name _).bind fun _ => ?_) _ start
    exact .after _ fun _ => unless_statements h hdescent body
  | .rand line name least greatest => by
    rw [Stmt.execute, Stmt.execute]
    exact .after _ fun _ => unless_drawInto h line name least greatest
  | .define line name params body result => by
    rw [Stmt.execute, Stmt.execute]
    exact .refl _
  | .call line name args => by
    rw [Stmt.execute, Stmt.execute]
    exact .after _ fun _ => unless_call h hdescent line name args

theorem unless_statements (h : Settings.Lenient bad strict lenient)
    (hdescent : Descent.Lenient bad strict lenient descent descent') :
    (body : List Stmt) →
      Unless bad (executeEach strict descent body) (executeEach lenient descent' body)
  | [] => .refl _
  | s :: rest => by
    rw [executeEach, executeEach]
    exact (unless_statement h hdescent s).bind fun _ => unless_statements h hdescent rest

end

end statements

/-! ## Orders -/

section orders

variable (h : Settings.Lenient bad strict lenient)
include h

/-- The induction is on how many more calls may be entered under the first settings. -/
theorem lenient_descent {levels levels' : Nat} (hlevels : levels ≤ levels')
    (hlimit : levels' = levels ∧ lenient.maxCallDepth = strict.maxCallDepth ∨
      ∀ line, bad ⟨.callDepth strict.maxCallDepth.toNat, line⟩) :
    Descent.Lenient bad strict lenient (descent strict levels) (descent lenient levels') := by
  induction levels generalizing levels' with
  | zero =>
    constructor
    · rintro enter ⟨⟩
    · intro _
      rcases hlimit with ⟨rfl, hsame⟩ | hbad
      · exact .inl ⟨rfl, hsame⟩
      · exact .inr hbad
  | succ levels ih =>
    obtain ⟨levels', rfl⟩ : ∃ k, levels' = k + 1 := ⟨levels' - 1, by omega⟩
    have hdeeper := ih (Nat.le_of_succ_le_succ hlevels) (hlimit.imp_left fun hsame =>
      ⟨Nat.succ.inj hsame.1, hsame.2⟩)
    constructor
    · rintro enter ⟨⟩
      exact ⟨_, rfl, fun body => .after _ fun _ => unless_statements h hdeeper body⟩
    · rintro ⟨⟩

theorem lenient_levels (m : Machine) :
    Descent.Lenient bad strict lenient (descent strict (m.levels strict))
      (descent lenient (m.levels lenient)) := by
  rw [Machine.levels, Machine.levels]
  rcases h.limit with hsame | ⟨hle, hbad⟩
  · rw [hsame]
    exact lenient_descent h (Nat.le_refl _) (.inl ⟨rfl, hsame⟩)
  · have hnat : strict.maxCallDepth.toNat ≤ lenient.maxCallDepth.toNat := hle
    exact lenient_descent h (by omega) (.inr hbad)

theorem unless_declareEach (ds : List Decl) :
    Unless bad (declareEach strict ds) (declareEach lenient ds) := by
  induction ds with
  | nil => exact .refl _
  | cons d rest ih =>
    refine Unless.bind ?_ fun _ => ih
    cases d with
    | program | author | date => exact .refl _
    | const line name e => exact .after _ fun value => h.defineConstant line name value

theorem unless_run (order : Order) : Unless bad (order.run strict) (order.run lenient) := by
  have hbody (body : List Stmt) :
      Unless bad (Run.statements strict body) (Run.statements lenient body) :=
    .get fun m => .after _ fun _ => unless_statements h (lenient_levels h m) body
  cases order with
  | program p =>
    refine .after _ fun _ => (unless_declareEach h p.declarations).bind fun _ => ?_
    exact (hbody p.statements).bind fun _ => .refl _
  | statements body => exact hbody body
  | statement s => exact .get fun m => unless_statement h (lenient_levels h m) s

/-- A session in which nothing fails in an excepted way. -/
theorem outcomes_lenient (orders : List Order) (m : Machine)
    (hgood : ∀ failure m', .error failure m' ∈ outcomes strict orders m → ¬ bad failure) :
    outcomes lenient orders m = outcomes strict orders m := by
  induction orders generalizing m with
  | nil => rfl
  | cons order orders ih =>
    rw [outcomes] at hgood
    have hsame : order.run lenient m = order.run strict m := by
      rcases unless_run h order m with ⟨failure, m', hfails, hbad⟩ | hsame
      · exact absurd hbad (hgood failure m' (hfails ▸ List.mem_cons_self ..))
      · exact hsame
    have hrest := ih (left (order.run strict m)) fun failure m' hmem =>
      hgood failure m' (List.mem_cons_of_mem _ hmem)
    rw [outcomes, outcomes, hsame, hrest]

end orders

/-! ## Reports -/

/-- The state with no reports, which keeps none. -/
def Machine.unreported (m : Machine) : Machine :=
  { m with log := .off }

/-- A result in a state with no reports. -/
abbrev unreportedResult :
    EStateM.Result Failure Machine Unit → EStateM.Result Failure Machine Unit :=
  mapResult Machine.unreported id

theorem Relabelling.machine_silent_id (m : Machine) :
    (Relabelling.silent id).machine m = m.unreported :=
  machine_eq (.silent id) rfl m

/-- Reports have no influence on a session. -/
theorem outcomes_unreported (settings : Settings) (orders : List Order) (m : Machine) :
    outcomes settings orders m.unreported = (outcomes settings orders m).map unreportedResult := by
  have horder : Order.relabel id = id := funext Order.relabel_id
  have hresult : (Relabelling.silent id).result = unreportedResult := by
    funext result
    cases result with
    | ok a m' => exact congrArg (EStateM.Result.ok a) (Relabelling.machine_silent_id m')
    | error failure m' =>
      exact congrArg (EStateM.Result.error failure) (Relabelling.machine_silent_id m')
  have hmirrored := outcomes_relabel settings (.silent id) orders m
  rwa [Relabelling.machine_silent_id, hresult, show (Relabelling.silent id).line = id from rfl,
    horder, List.map_id] at hmirrored

/-- States that differ in nothing but their reports go through a session alike. -/
theorem outcomes_unreported_congr {settings : Settings} {orders : List Order} {m m' : Machine}
    (h : m'.unreported = m.unreported) :
    (outcomes settings orders m').map unreportedResult =
      (outcomes settings orders m).map unreportedResult := by
  rw [← outcomes_unreported, ← outcomes_unreported, h]

/-! ## The limit of calls -/

/-- The settings with another limit of calls. -/
def Settings.withLimit (settings : Settings) (limit : UInt64) : Settings :=
  { settings with maxCallDepth := limit }

/-- Of the failures, only that of a call that is refused can be avoided by a higher limit. -/
theorem lenient_limit (settings : Settings) {low high : UInt64} (h : low ≤ high) :
    Settings.Lenient (fun failure => ¬ failure.fault.Ordinary) (settings.withLimit low)
      (settings.withLimit high) where
  bind := fun _ _ _ => .refl _
  defineConstant := fun _ _ _ => .refl _
  limit := .inr ⟨h, fun _ hordinary => hordinary _ rfl⟩

/-- Raising the limit of calls changes nothing for those who have not hit it. If an order does not
fail because too many calls are in progress, then under any higher limit it has the same result, and
leaves the same state. From states that differ in their reports, such as those in which two
interpreters start that report their settings, all but the reports is the same. -/
theorem higher_limit_changes_nothing (settings : Settings) {low high : UInt64} (h : low ≤ high)
    (order : Order) (m : Machine)
    (hordinary : ∀ failure m', order.run (settings.withLimit low) m = .error failure m' →
      failure.fault.Ordinary) :
    order.run (settings.withLimit high) m = order.run (settings.withLimit low) m ∧
    ∀ m', m'.unreported = m.unreported →
      unreportedResult (order.run (settings.withLimit high) m') =
        unreportedResult (order.run (settings.withLimit low) m) := by
  have hsame : order.run (settings.withLimit high) m = order.run (settings.withLimit low) m := by
    rcases unless_run (lenient_limit settings h) order m with ⟨failure, m', hfails, hbad⟩ | hsame
    · exact absurd (hordinary failure m' hfails) hbad
    · exact hsame
  refine ⟨hsame, fun m' hm' => ?_⟩
  have houtcomes :
      (outcomes (settings.withLimit high) [order] m').map unreportedResult =
        (outcomes (settings.withLimit high) [order] m).map unreportedResult :=
    outcomes_unreported_congr hm'
  have hresult : unreportedResult (order.run (settings.withLimit high) m') =
      unreportedResult (order.run (settings.withLimit high) m) :=
    (List.cons.inj houtcomes).1
  rw [hresult, hsame]

/-- A function that calls another one needs a limit of two, and no higher one. -/
theorem nested_call_under_higher_limit :
    let order : Order := .statement (.call 3 "f" [])
    let start (limit : UInt64) : Machine :=
      { Machine.initial (Settings.withLimit {} limit) 0 ⟨[]⟩ .unlimited (.keeping .info) with
        routines := (Table.empty.put "g" ⟨[], [.print 1 (.identifier "y")], "g"⟩).put "f"
          ⟨[], [.call 2 "g" []], "f"⟩ }
    (∃ m', order.run (Settings.withLimit {} 2) (start 2) = .error ⟨.unbound "y", 1⟩ m') ∧
    unreportedResult (order.run (Settings.withLimit {} 256) (start 256)) =
      unreportedResult (order.run (Settings.withLimit {} 2) (start 2)) := by
  intro order start
  have hrun : ∃ m', order.run (Settings.withLimit {} 2) (start 2) = .error ⟨.unbound "y", 1⟩ m' :=
    ⟨_, rfl⟩
  refine ⟨hrun, ?_⟩
  obtain ⟨m', h⟩ := hrun
  refine (higher_limit_changes_nothing {} (by decide) order (start 2) ?_).2 (start 256) rfl
  intro failure m'' h'
  cases h.symm.trans h'
  exact fun _ => nofun

/-! ## The protection of constants -/

/-- The settings with constants protected or not. -/
def Settings.protecting (settings : Settings) (enforce : Bool) : Settings :=
  { settings with enforceConstants := enforce }

/-- A protected constant is refused before anything is written. -/
theorem lenient_protection (settings : Settings) :
    Settings.Lenient (fun failure => ∃ name, failure.fault = .constant name)
      (settings.protecting true) (settings.protecting false) where
  bind := by
    intro line name value m
    let store (environment : Environment) : Run Unit := modify fun m => { m with environment }
    have hstrict : bind (settings.protecting true) line name value =
        evaluation line (fun env => env.write name value) >>= store := rfl
    rw [hstrict]
    cases hconstant : m.environment.isConstant name with
    | true => exact .inl ⟨_, _, bind_error (write_of_constant line hconstant value), name, rfl⟩
    | false =>
      right
      rw [bind_ok (write_of_free line hconstant value)]
      rfl
  defineConstant := by
    intro line name value m
    rw [Run.defineConstant, Run.defineConstant, get_bind, get_bind]
    by_cases hconstant : m.environment.isConstant name
    · left
      refine ⟨⟨.constant name, line⟩, m, ?_, name, rfl⟩
      rw [if_pos (by simpa [Settings.protecting] using hconstant)]
      rfl
    · right
      rw [if_neg (by simp [Settings.protecting]),
        if_neg (by simpa [Settings.protecting] using hconstant)]
  limit := .inl rfl

/-- Protecting constants changes nothing for those who do not write them. If no order of a session
fails because of a constant, then without protection every order has the same result, and leaves the
same state. From states that differ in their reports, such as those in which two interpreters start
that report their settings, all but the reports is the same. -/
theorem protection_changes_nothing (settings : Settings) (orders : List Order) (m : Machine)
    (hnone : ∀ failure m', .error failure m' ∈ outcomes (settings.protecting true) orders m →
      ∀ name, failure.fault ≠ .constant name) :
    outcomes (settings.protecting false) orders m = outcomes (settings.protecting true) orders m ∧
    ∀ m', m'.unreported = m.unreported →
      (outcomes (settings.protecting false) orders m').map unreportedResult =
        (outcomes (settings.protecting true) orders m).map unreportedResult := by
  have hsame : outcomes (settings.protecting false) orders m =
      outcomes (settings.protecting true) orders m := by
    refine outcomes_lenient (lenient_protection settings) orders m ?_
    rintro failure m' hmem ⟨name, hname⟩
    exact hnone failure m' hmem name hname
  refine ⟨hsame, fun m' hm' => ?_⟩
  rw [outcomes_unreported_congr hm', hsame]

/-- A constant is declared and used, and the session goes on after a failure of another kind. -/
theorem constant_left_alone :
    let orders : List Order := [.program ⟨[.const 1 "c" (.string "kept")], []⟩,
      .statement (.assign 2 "x" (.identifier "y") none),
      .statement (.assign 3 "x" (.identifier "c") none)]
    let start (enforce : Bool) : Machine :=
      .initial (Settings.protecting {} enforce) 0 ⟨[]⟩ .unlimited (.keeping .info)
    (∃ m₁ m₂ m₃, outcomes (Settings.protecting {} true) orders (start true) =
      [.ok () m₁, .error ⟨.unbound "y", 2⟩ m₂, .ok () m₃]) ∧
    (outcomes (Settings.protecting {} false) orders (start false)).map unreportedResult =
      (outcomes (Settings.protecting {} true) orders (start true)).map unreportedResult := by
  intro orders start
  have hrun : ∃ m₁ m₂ m₃, outcomes (Settings.protecting {} true) orders (start true) =
      [.ok () m₁, .error ⟨.unbound "y", 2⟩ m₂, .ok () m₃] := ⟨_, _, _, rfl⟩
  refine ⟨hrun, (protection_changes_nothing {} orders (start true) ?_).2 (start false) rfl⟩
  obtain ⟨m₁, m₂, m₃, h⟩ := hrun
  intro failure m' hmem name hname
  rw [h] at hmem
  simp only [List.mem_cons, EStateM.Result.error.injEq, reduceCtorEq, List.not_mem_nil, or_false,
    false_or] at hmem
  rw [hmem.1] at hname
  cases hname

end DivisionScript
