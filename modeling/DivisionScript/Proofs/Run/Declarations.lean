import DivisionScript.Proofs.Legible
import DivisionScript.Proofs.Run.Blame
import DivisionScript.Proofs.Run.Call
import DivisionScript.Proofs.Run.Session
import DivisionScript.Proofs.Run.Sources

/-!
# Run — Declarations

What the static division of a program means where constants are enforced. The declarations introduce
constants one after another, and the expression of each is evaluated where those before it are bound
and nothing else is. The first one whose expression has no value, or whose name has been taken,
fails the program before any of its statements.
-/

namespace DivisionScript

open Run

/-! ## What declarations say -/

/-- The environment in which the given constants are bound, and nothing else. -/
def Environment.ofConstants (constants : List (String × Value)) : Environment :=
  constants.foldl (fun env constant => env.defineConstant constant.1 constant.2) .empty

/-- Where the constants `known` are bound, declarations introduce further ones. Each has the value
that its expression has where `known` and those introduced before it are bound. -/
inductive Introduces : (known : List (String × Value)) → List Decl → List (String × Value) → Prop
  | nil {known : List (String × Value)} : Introduces known [] []
  | other {known constants : List (String × Value)} {d : Decl} {ds : List Decl}
      (hd : d.names = []) (h : Introduces known ds constants) : Introduces known (d :: ds) constants
  | const {known constants : List (String × Value)} {line : Nat} {name : String} {e : Expr}
      {value : Value} {ds : List Decl} (hvalue : e.value (.ofConstants known) = .ok value)
      (h : Introduces (known ++ [(name, value)]) ds constants) :
      Introduces known (.const line name e :: ds) ((name, value) :: constants)

/-- Why a constant cannot be declared after others: its expression has no value, or it has one, but
the name has been taken. -/
inductive Refused (constants : List (String × Value)) (name : String) (e : Expr) : Fault → Prop
  | value {fault : Fault} (h : e.value (.ofConstants constants) = .error fault) :
      Refused constants name e fault
  | taken {value : Value} (h : e.value (.ofConstants constants) = .ok value)
      (hname : name ∈ constants.map Prod.fst) : Refused constants name e (.constant name)

/-- The name that a declaration gives to the program. -/
def Decl.programName? : Decl → Option String
  | .program _ name => some name
  | _ => none

/-- The author that a declaration names. -/
def Decl.author? : Decl → Option String
  | .author _ name => some name
  | _ => none

/-- The date that a declaration gives. -/
def Decl.date? : Decl → Option String
  | .date _ text => some text
  | _ => none

/-- What declarations say about the program: of each kind the last one counts. -/
def ProgramInfo.of (ds : List Decl) : ProgramInfo where
  name := (ds.filterMap Decl.programName?).getLast?
  author := (ds.filterMap Decl.author?).getLast?
  date := (ds.filterMap Decl.date?).getLast?

/-- What is known about a program after one more declaration. -/
def ProgramInfo.record (info : ProgramInfo) : Decl → ProgramInfo
  | .program _ name => { info with name := some name }
  | .author _ name => { info with author := some name }
  | .date _ text => { info with date := some text }
  | .const .. => info

theorem ProgramInfo.foldl_record (ds : List Decl) : ds.foldl record {} = .of ds := by
  induction ds using List.reverseRecOn with
  | nil => rfl
  | append_singleton ds d ih =>
    rw [List.foldl_append, ih]
    simp only [of, List.filterMap_append, List.getLast?_append]
    cases d <;> rfl

section constants

variable {known constants constants' : List (String × Value)} {ds before after : List Decl}
variable {line : Nat} {name : String} {e : Expr}

theorem Environment.ofConstants_concat (known : List (String × Value)) (name : String)
    (value : Value) :
    ofConstants (known ++ [(name, value)]) = (ofConstants known).defineConstant name value :=
  List.foldl_append

theorem Environment.isConstant_ofConstants (constants : List (String × Value)) (name : String) :
    (ofConstants constants).isConstant name ↔ name ∈ constants.map Prod.fst := by
  induction constants using List.reverseRecOn with
  | nil => exact iff_of_false nofun List.not_mem_nil
  | append_singleton constants last ih =>
    rw [ofConstants_concat, isConstant_defineConstant, Bool.or_eq_true, decide_eq_true_eq, ih,
      List.map_append, List.mem_append, or_comm]
    exact or_congr_right List.mem_singleton.symm

/-- Constants with different names have their values and the flag, and no other name is bound. -/
theorem Environment.binding?_ofConstants (h : (constants.map Prod.fst).Nodup) (name : String) :
    (ofConstants constants).binding? name = (constants.lookup name).map (⟨·, true⟩) := by
  induction constants using List.reverseRecOn with
  | nil => rfl
  | append_singleton constants last ih =>
    obtain ⟨last, value⟩ := last
    rw [List.map_append, List.nodup_append] at h
    obtain ⟨hearlier, -, hapart⟩ := h
    rw [ofConstants_concat, binding?_defineConstant, List.lookup_append, ih hearlier]
    by_cases hname : name = last
    · have hnone : constants.lookup name = none := List.lookup_eq_none_iff.mpr fun constant hmem =>
        bne_iff_ne.mpr fun heq => hapart constant.1 (List.mem_map_of_mem hmem) last
          (List.mem_singleton_self last) (heq.symm.trans hname)
      rw [if_pos hname, hnone, hname, List.lookup_cons, beq_self_eq_true]
      rfl
    · have hother : (name == last) = false := beq_false_of_ne hname
      rw [if_neg hname, List.lookup_cons, hother, List.lookup_nil, Option.or_none]

theorem Introduces.names_eq (h : Introduces known ds constants) :
    constants.map Prod.fst = ds.flatMap Decl.names := by
  induction h with
  | nil => rfl
  | other hd _ ih => rw [List.flatMap_cons, hd, ih, List.nil_append]
  | const _ _ ih => rw [List.map_cons, List.flatMap_cons, ih, Decl.names, List.singleton_append]

/-- Declarations introduce one list of constants at most. -/
theorem Introduces.unique (h : Introduces known ds constants)
    (h' : Introduces known ds constants') : constants = constants' := by
  induction h generalizing constants' with
  | nil =>
    cases h'
    rfl
  | other hd _ ih =>
    cases h' with
    | other _ h' => exact ih h'
    | const => cases hd
  | const hvalue _ ih =>
    cases h' with
    | other hd => cases hd
    | const hvalue' h' =>
      cases hvalue.symm.trans hvalue'
      rw [ih h']

/-- The expression of a constant that is introduced has a value where the declarations before it
have introduced theirs. -/
theorem Introduces.split (h : Introduces known (before ++ .const line name e :: after) constants) :
    ∃ earlier value, Introduces known before earlier ∧
      e.value (.ofConstants (known ++ earlier)) = .ok value := by
  induction before generalizing known constants with
  | nil =>
    cases h with
    | other hd => cases hd
    | const hvalue => exact ⟨[], _, .nil, by rwa [List.append_nil]⟩
  | cons d before ih =>
    cases h with
    | other hd h =>
      obtain ⟨earlier, value, hearlier, hvalue⟩ := ih h
      exact ⟨earlier, value, .other hd hearlier, hvalue⟩
    | const hfirst h =>
      obtain ⟨earlier, value, hearlier, hvalue⟩ := ih h
      rw [List.append_assoc] at hvalue
      exact ⟨_, value, .const hfirst hearlier, hvalue⟩

end constants

/-! ## One declaration -/

section declare

variable {settings : Settings} {m : Machine} {line : Nat} {name : String} {e : Expr} {value : Value}

theorem declare_of_fault {fault : Fault} (h : e.value m.environment = .error fault) :
    ∃ log, declare settings (.const line name e) m = .error ⟨fault, line⟩ { m with log } := by
  obtain ⟨log, hevaluate⟩ := evaluate_of_fault line h
  exact ⟨log, bind_error hevaluate⟩

theorem declare_of_taken (henforce : settings.enforceConstants)
    (h : e.value m.environment = .ok value) (htaken : m.environment.isConstant name) :
    ∃ log, declare settings (.const line name e) m =
      .error ⟨.constant name, line⟩ { m with log } := by
  obtain ⟨log, hevaluate⟩ := evaluate_of_value line h
  refine ⟨log, (bind_ok hevaluate).trans ?_⟩
  rw [defineConstant, get_bind, henforce, Bool.true_and, if_pos htaken]
  rfl

theorem declare_of_free (h : e.value m.environment = .ok value)
    (hfree : ¬ m.environment.isConstant name) :
    ∃ log, declare settings (.const line name e) m =
      .ok () { m with environment := m.environment.defineConstant name value, log } := by
  obtain ⟨log, hevaluate⟩ := evaluate_of_value line h
  refine ⟨log.note (.constantDefined name value), (bind_ok hevaluate).trans ?_⟩
  rw [defineConstant, get_bind, (Bool.not_eq_true _).mp hfree, Bool.and_false,
    if_neg Bool.false_ne_true]
  rfl

end declare

/-! ## All declarations -/

section opening

variable {settings : Settings} {m : Machine} {known : List (String × Value)} {ds : List Decl}
variable {p : Program} {line : Nat} {name : String} {e : Expr}

/-- The state `m` once declarations that introduce certain constants have been carried out. -/
def Machine.declaring (m : Machine) (constants : List (String × Value)) (info : ProgramInfo)
    (log : Log) : Machine :=
  { m with environment := .ofConstants constants, info, log }

/-- How declarations end that are carried out from the state `m`, in which the constants `known` are
bound: they introduce constants with new names, or there is a first constant that is refused. -/
inductive Declares (m : Machine) (known : List (String × Value)) :
    List Decl → EStateM.Result Failure Machine Unit → Prop
  | all {ds : List Decl} {constants : List (String × Value)} {log : Log}
      (h : Introduces known ds constants) (hnew : ((known ++ constants).map Prod.fst).Nodup) :
      Declares m known ds (.ok () (m.declaring (known ++ constants) (ds.foldl .record m.info) log))
  | refused {before after : List Decl} {line : Nat} {name : String} {e : Expr}
      {constants : List (String × Value)} {fault : Fault} {log : Log}
      (h : Introduces known before constants) (hnew : ((known ++ constants).map Prod.fst).Nodup)
      (hrefused : Refused (known ++ constants) name e fault) :
      Declares m known (before ++ .const line name e :: after) (.error ⟨fault, line⟩
        (m.declaring (known ++ constants) (before.foldl .record m.info) log))

theorem Declares.other {d : Decl} {log : Log} {result : EStateM.Result Failure Machine Unit}
    (hd : d.names = []) (h : Declares { m with info := m.info.record d, log } known ds result) :
    Declares m known (d :: ds) result := by
  cases h with
  | all h hnew => exact .all (.other hd h) hnew
  | refused h hnew hrefused => exact Declares.refused (.other hd h) hnew hrefused

theorem Declares.const {value : Value} {log : Log}
    {result : EStateM.Result Failure Machine Unit}
    (hvalue : e.value (.ofConstants known) = .ok value)
    (h : Declares { m with environment := .ofConstants (known ++ [(name, value)]), log }
      (known ++ [(name, value)]) ds result) :
    Declares m known (.const line name e :: ds) result := by
  have hconcat (constants : List (String × Value)) :
      known ++ [(name, value)] ++ constants = known ++ (name, value) :: constants :=
    List.append_assoc known [(name, value)] constants
  cases h with
  | all h hnew =>
    rw [hconcat] at hnew ⊢
    exact .all (.const hvalue h) hnew
  | refused h hnew hrefused =>
    rw [hconcat] at hnew hrefused ⊢
    exact Declares.refused (.const hvalue h) hnew hrefused

/-- A constant that is refused is the first one. -/
theorem Declares.first {fault : Fault} {log : Log} (henv : m.environment = .ofConstants known)
    (hknown : (known.map Prod.fst).Nodup) (hrefused : Refused known name e fault) :
    Declares m known (.const line name e :: ds) (.error ⟨fault, line⟩ { m with log }) := by
  rw [← List.append_nil known] at hknown hrefused
  have hdeclaring : m.declaring (known ++ []) (List.foldl .record m.info []) log =
      { m with log } := by
    rw [Machine.declaring, List.append_nil, ← henv]
    rfl
  rw [← hdeclaring]
  exact Declares.refused .nil hknown hrefused

/-- Declarations that are carried out introduce constants with new names, or the first one that is
refused fails. -/
theorem declares_declareEach (henforce : settings.enforceConstants)
    (henv : m.environment = .ofConstants known) (hknown : (known.map Prod.fst).Nodup)
    (ds : List Decl) : Declares m known ds (declareEach settings ds m) := by
  induction ds generalizing known m with
  | nil =>
    have hdone : Declares m known [] (.ok () (m.declaring (known ++ []) m.info m.log)) :=
      .all .nil (by rwa [List.append_nil])
    rwa [List.append_nil, Machine.declaring, ← henv] at hdone
  | cons d ds ih =>
    rw [declareEach]
    cases d with
    | program | author | date => exact .other rfl (ih henv hknown)
    | const line name e =>
      cases hvalue : e.value m.environment with
      | error fault =>
        obtain ⟨log, hdeclare⟩ := declare_of_fault hvalue
        rw [bind_error hdeclare]
        exact .first henv hknown (.value (henv ▸ hvalue))
      | ok value =>
        by_cases hconstant : m.environment.isConstant name
        · obtain ⟨log, hdeclare⟩ := declare_of_taken henforce hvalue hconstant
          rw [bind_error hdeclare]
          rw [henv, Environment.isConstant_ofConstants] at hconstant
          exact .first henv hknown (.taken (henv ▸ hvalue) hconstant)
        · obtain ⟨log, hdeclare⟩ := declare_of_free hvalue hconstant
          rw [bind_ok hdeclare]
          rw [henv, Environment.isConstant_ofConstants] at hconstant
          have hnew : ((known ++ [(name, value)]).map Prod.fst).Nodup := by
            rw [List.map_append, List.nodup_append]
            refine ⟨hknown, List.pairwise_singleton _ name, ?_⟩
            rintro x hx _ (_ | ⟨_, ⟨⟩⟩) rfl
            exact hconstant hx
          have hrest : Declares
              { m with environment := .ofConstants (known ++ [(name, value)]), log }
              (known ++ [(name, value)]) ds _ := ih rfl hnew
          rw [henv, ← Environment.ofConstants_concat]
          exact .const (henv ▸ hvalue) hrest

/-- Where declarations succeed, they have introduced constants. -/
theorem Declares.ok {m' : Machine} (h : Declares m known ds (.ok () m')) :
    ∃ constants log, Introduces known ds constants ∧ ((known ++ constants).map Prod.fst).Nodup ∧
      m' = m.declaring (known ++ constants) (ds.foldl .record m.info) log := by
  cases h with
  | all h hnew => exact ⟨_, _, h, hnew, rfl⟩

/-- Declarations end in one way. They introduce constants with new names and are all carried out, or
they do not, and a first one is refused. -/
theorem Declares.ok_iff {result : EStateM.Result Failure Machine Unit}
    (h : Declares m known ds result) :
    (∃ m', result = .ok () m') ↔
      (known.map Prod.fst ++ ds.flatMap Decl.names).Nodup ∧
        ∃ constants, Introduces known ds constants := by
  cases h with
  | all h hnew =>
    rw [List.map_append, h.names_eq] at hnew
    exact iff_of_true ⟨_, rfl⟩ ⟨hnew, _, h⟩
  | @refused before after line name e earlier fault log h hnew hrefused =>
    refine iff_of_false nofun ?_
    rintro ⟨hnodup, constants, hall⟩
    obtain ⟨earlier', value, hearlier, hvalue⟩ := hall.split
    cases h.unique hearlier
    cases hrefused with
    | value hfault => cases hvalue.symm.trans hfault
    | taken _ hname =>
      rw [List.map_append, h.names_eq] at hname
      rw [List.flatMap_append, ← List.append_assoc, List.nodup_append] at hnodup
      exact hnodup.2.2 name hname name List.mem_cons_self rfl

/-- Where declarations fail, a constant has been refused. -/
theorem Declares.error {failure : Failure} {m' : Machine}
    (h : Declares m known ds (.error failure m')) :
    ∃ before line name e after constants fault log, ds = before ++ .const line name e :: after ∧
      Introduces known before constants ∧ ((known ++ constants).map Prod.fst).Nodup ∧
      Refused (known ++ constants) name e fault ∧ failure = ⟨fault, line⟩ ∧
      m' = m.declaring (known ++ constants) (before.foldl .record m.info) log := by
  cases h with
  | refused h hnew hrefused =>
    exact ⟨_, _, _, _, _, _, _, _, rfl, h, hnew, hrefused, rfl, rfl⟩

/-- Finitely many steps lead from one place to another, and none of them begins a statement. -/
abbrev Config.ReachesUnstated (settings : Settings) : Config → Config → Prop :=
  Relation.ReflTransGen fun c c' => c.next? = none ∧ c.step settings = some c'

theorem declarations_unstated (ds : List Decl) (rest : List Task) :
    Config.ReachesUnstated settings ⟨m, .declarations ds :: rest, none⟩
      (.of rest (declareEach settings ds m)) := by
  induction ds generalizing m with
  | nil => exact .single ⟨rfl, rfl⟩
  | cons d ds ih =>
    rw [declareEach]
    cases hdeclare : declare settings d m with
    | error failure m' =>
      rw [bind_error hdeclare]
      exact .single ⟨rfl, Config.step_error (bind_error hdeclare)⟩
    | ok u m' =>
      rw [bind_ok hdeclare]
      exact .head ⟨rfl, Config.step_ok (bind_ok hdeclare)⟩ ih

/-- The declarations of a program are carried out before anything else. -/
theorem opening_unstated (p : Program) :
    Config.ReachesUnstated settings ⟨m, [.program p], none⟩
      (.of [.block p.statements, .finish] (p.opening settings p.declarations m)) :=
  .head ⟨rfl, rfl⟩ (declarations_unstated p.declarations _)

/-- After a failure no statement is begun. -/
theorem givenUp_unstated (m : Machine) (tasks : List Task) (failure : Failure) :
    Config.ReachesUnstated settings ⟨m, tasks, some failure⟩
      ⟨giveUpEach tasks m, [], some failure⟩ := by
  induction tasks generalizing m with
  | nil => exact .refl
  | cons task rest ih =>
    refine .head ⟨?_, Config.step_giveUp⟩ (ih (task.giveUp m))
    cases task <;> rfl

end opening

/-- What a static division means. A new state in which constants are enforced is given a program.
All declarations are carried out if and only if the constants have different names and each has a
value where exactly those before it are bound. Then, before the first statement is begun, each name
of a constant is bound to its value as a constant, no other name is bound, what is known about the
program is the last text of each kind, and nothing else has changed but the reports. Otherwise there
is a first constant whose expression has no value, or has one while the name has been taken. The
program fails with this fault and the line of the constant, exactly the constants before it are
bound, and no statement has been begun. -/
theorem static_division_binds_constants (settings : Settings) (entropy : UInt64) (input : Input)
    (output : Output) (log : Log) (p : Program) (henforce : settings.enforceConstants) :
    let start := Machine.initial settings entropy input output log
    let names := p.declarations.flatMap Decl.names
    ((∃ m, p.opening settings p.declarations start = .ok () m) ↔
      names.Nodup ∧ ∃ constants, Introduces [] p.declarations constants) ∧
    (∀ constants, names.Nodup → Introduces [] p.declarations constants →
      ∃ log', let declared := start.declaring constants (.of p.declarations) log'
        p.opening settings p.declarations start = .ok () declared ∧
        Config.ReachesUnstated settings ⟨start, [.program p], none⟩
          ⟨declared, [.block p.statements, .finish], none⟩ ∧
        constants.map Prod.fst = names ∧
        ∀ name, declared.environment.binding? name = (constants.lookup name).map (⟨·, true⟩)) ∧
    ((¬ (names.Nodup ∧ ∃ constants, Introduces [] p.declarations constants)) →
      ∃ before line name e after constants fault log',
        p.declarations = before ++ .const line name e :: after ∧
        (before.flatMap Decl.names).Nodup ∧ Introduces [] before constants ∧
        Refused constants name e fault ∧
        let failed := start.declaring constants (.of before) log'
        Run.program settings p start = .error ⟨fault, line⟩ failed ∧
        Config.ReachesUnstated settings ⟨start, [.program p], none⟩
          ⟨failed, [], some ⟨fault, line⟩⟩ ∧
        ∀ name, failed.environment.binding? name = (constants.lookup name).map (⟨·, true⟩)) := by
  intro start names
  let noted : Machine :=
    { start with log := start.log.note (.running p.declarations.length p.statements.length) }
  have hopening : p.opening settings p.declarations start =
      declareEach settings p.declarations noted := rfl
  have hdeclares : Declares noted [] p.declarations (p.opening settings p.declarations start) :=
    declares_declareEach henforce rfl (by exact .nil) p.declarations
  have hunstated : Config.ReachesUnstated settings ⟨start, [.program p], none⟩ _ :=
    opening_unstated p
  refine ⟨hdeclares.ok_iff, fun constants hnodup hintroduces => ?_, fun hnot => ?_⟩
  · obtain ⟨m, hok⟩ := hdeclares.ok_iff.mpr ⟨hnodup, constants, hintroduces⟩
    rw [hok] at hdeclares hunstated
    obtain ⟨constants', log', hintroduces', hnew, rfl⟩ := hdeclares.ok
    cases hintroduces.unique hintroduces'
    have hdeclared : noted.declaring constants (p.declarations.foldl .record {}) log' =
        start.declaring constants (.of p.declarations) log' := by
      rw [ProgramInfo.foldl_record]
      rfl
    refine ⟨log', hok.trans (congrArg _ hdeclared), ?_, hintroduces.names_eq,
      Environment.binding?_ofConstants hnew⟩
    rwa [← hdeclared]
  · cases hfails : p.opening settings p.declarations start with
    | ok u m => exact absurd (hdeclares.ok_iff.mp ⟨m, hfails⟩) hnot
    | error failure m =>
      rw [hfails] at hdeclares hunstated
      obtain ⟨before, line, name, e, after, constants, fault, log', hds, hintroduces, hnew,
        hrefused, rfl, rfl⟩ := hdeclares.error
      have hfailed : noted.declaring constants (before.foldl .record {}) log' =
          start.declaring constants (.of before) log' := by
        rw [ProgramInfo.foldl_record]
        rfl
      refine ⟨before, line, name, e, after, constants, fault, log', hds, ?_, hintroduces, hrefused,
        ?_, ?_, Environment.binding?_ofConstants hnew⟩
      · exact hintroduces.names_eq ▸ hnew
      · rw [← hfailed]
        exact Run.program_eq_error.mpr (.inl hfails)
      · rw [← hfailed]
        exact hunstated.trans (givenUp_unstated _ _ _)

/-- A constant that sees the one before it, and a second declaration of a name whose expression has
no value. That it has none comes before that the name has been taken. -/
theorem static_division_binds_constants_of_second :
    let start := Machine.initial {} 0 ⟨[]⟩ .unlimited .off
    let p : Program := ⟨[.program 1 "first", .const 2 "A" (.string "v"), .program 3 "last",
      .const 4 "B" (.identifier "A")], []⟩
    let q : Program := ⟨[.const 1 "A" (.string "v"), .const 2 "A" (.identifier "B")],
      [.print 3 (.string "begun")]⟩
    (∃ m, p.opening {} p.declarations start = .ok () m ∧ m.info.name = some "last" ∧
      m.environment.binding? "B" = some ⟨.string "v", true⟩) ∧
    ∃ m, Run.program {} q start = .error ⟨.unbound "B", 2⟩ m ∧
      m.environment.binding? "A" = some ⟨.string "v", true⟩ := by
  intro start p q
  have hmeans := static_division_binds_constants {} 0 ⟨[]⟩ .unlimited .off
  constructor
  · obtain ⟨log, hopening, -, -, hbindings⟩ := (hmeans p rfl).2.1 _ (by decide)
      (.other rfl (.const rfl (.other rfl (.const rfl .nil))))
    exact ⟨_, hopening, rfl, hbindings "B"⟩
  · have hnot : ¬ ((q.declarations.flatMap Decl.names).Nodup ∧
        ∃ constants, Introduces [] q.declarations constants) := fun h => absurd h.1 (by decide)
    obtain ⟨before, line, name, e, after, constants, fault, log, hds, -, hintroduces, hrefused,
      hrun, -, hbindings⟩ := (hmeans q rfl).2.2 hnot
    have hruns : ∃ m, Run.program {} q start = .error ⟨.unbound "B", 2⟩ m := ⟨_, rfl⟩
    obtain ⟨m, hm⟩ := hruns
    cases hrun.symm.trans hm
    -- the constant of line 2 has the other one before it
    rcases before with _ | ⟨first, _ | ⟨second, before⟩⟩
    · cases hds
    · cases hds
      cases hintroduces with
      | other hd => cases hd
      | const hvalue h =>
        cases hvalue
        cases h
        exact ⟨_, hm, hbindings "A"⟩
    · simp [q] at hds

end DivisionScript
