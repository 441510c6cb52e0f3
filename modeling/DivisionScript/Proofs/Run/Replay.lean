import Mathlib.Data.Finset.Card
import DivisionScript.Run.Environment

/-!
# Run — Replay

The life of an environment that is written to, saved and restored. Its effective history is the list
of the writes that have succeeded, but whenever a copy is restored it is again the list that it was
when the copy was taken. `Life.replays` says that an environment is a replay of its effective
history; what a replay shows of a history is said by `shows_replay`, and both together by
`environment_replays_history`.
-/

namespace DivisionScript

theorem Table.mem_names_iff {α : Type} (t : Table α) (name : String) :
    name ∈ t.names ↔ (t.get? name).isSome := by
  rw [← not_iff_not, Bool.not_eq_true, Option.isSome_eq_false_iff, Option.isNone_iff_eq_none,
    get?, List.lookup_eq_none_iff, names, List.mem_map, not_exists]
  simp only [bne_iff_ne, not_and, ne_comm (a := name), ne_eq]

/-- A write to an environment. -/
structure Write where
  name : String
  value : Value
  /-- Whether it defines a constant. -/
  constant : Bool

/-- The last write to a name. -/
def lastWrite? (name : String) (history : List Write) : Option Write :=
  (history.filter (·.name = name)).getLast?

theorem lastWrite?_concat (name : String) (history : List Write) (w : Write) :
    lastWrite? name (history ++ [w]) =
      if name = w.name then some w else lastWrite? name history := by
  rw [lastWrite?, List.filter_append, List.filter_singleton]
  by_cases hname : name = w.name
  · rw [if_pos hname, decide_eq_true hname.symm, cond_true, List.getLast?_concat]
  · rw [if_neg hname, decide_eq_false (Ne.symm hname), cond_false, List.append_nil, lastWrite?]

theorem lastWrite?_isSome (name : String) (history : List Write) :
    (lastWrite? name history).isSome ↔ ∃ w ∈ history, w.name = name := by
  rw [lastWrite?, Option.isSome_iff_ne_none, Ne, List.getLast?_eq_none_iff,
    List.filter_eq_nil_iff]
  simp only [decide_eq_true_eq, not_forall, not_not, exists_prop]

namespace Environment

theorem assign_eq_ok {env env' : Environment} {name : String} {value : Value} :
    env.assign name value = .ok env' ↔ ¬ env.isConstant name ∧ env' = env.set name value := by
  rw [assign]
  split
  · next h => exact iff_of_false nofun fun hfree => hfree.1 h
  · next h => rw [and_iff_right h, Except.ok.injEq, eq_comm]

theorem assign_eq_error {env : Environment} {name : String} {value : Value} {fault : Fault} :
    env.assign name value = .error fault ↔ env.isConstant name ∧ fault = .constant name := by
  rw [assign]
  split
  · next h => rw [and_iff_right h, Except.error.injEq, eq_comm]
  · next h => exact iff_of_false nofun fun hrefused => h hrefused.1

/-! ## A replay -/

/-- The environment after a write. -/
def apply (env : Environment) (w : Write) : Environment :=
  if w.constant then env.defineConstant w.name w.value else env.set w.name w.value

/-- The environment after the writes of a history, from an empty one on. -/
def replay (history : List Write) : Environment :=
  history.foldl apply empty

variable (history : List Write) (name : String)

theorem replay_concat (w : Write) : replay (history ++ [w]) = (replay history).apply w :=
  List.foldl_append

theorem binding?_apply (env : Environment) (w : Write) :
    (env.apply w).binding? name =
      if name = w.name then some ⟨w.value, w.constant || env.isConstant w.name⟩
      else env.binding? name := by
  rw [apply]
  split
  · next hconstant => rw [binding?_defineConstant, hconstant, Bool.true_or]
  · next hplain => rw [binding?_set, (Bool.not_eq_true _).mp hplain, Bool.false_or]

theorem get_apply (env : Environment) (w : Write) :
    (env.apply w).get name = if name = w.name then .ok w.value else env.get name := by
  rw [get, binding?_apply]
  by_cases hname : name = w.name
  · rw [if_pos hname, if_pos hname]
  · rw [if_neg hname, if_neg hname, get]

theorem isConstant_apply (env : Environment) (w : Write) :
    (env.apply w).isConstant name ↔ w.name = name ∧ w.constant ∨ env.isConstant name := by
  rw [apply]
  split
  · next hconstant =>
    rw [isConstant_defineConstant, Bool.or_eq_true, decide_eq_true_eq, and_iff_left hconstant,
      eq_comm]
  · next hplain => rw [isConstant_set, or_iff_right fun h => hplain h.2]

/-- A replay binds a name to the value of the last write to it. -/
theorem get_replay :
    (replay history).get name = match lastWrite? name history with
      | some w => .ok w.value
      | none => .error (.unbound name) := by
  induction history using List.reverseRecOn with
  | nil => rfl
  | append_singleton history w ih =>
    rw [replay_concat, get_apply, lastWrite?_concat, ih]
    split <;> rfl

/-- A name stays constant whatever is written to it after a definition. -/
theorem isConstant_replay :
    (replay history).isConstant name ↔ ∃ w ∈ history, w.name = name ∧ w.constant := by
  induction history using List.reverseRecOn with
  | nil => exact iff_of_false nofun fun ⟨w, hmem, _⟩ => absurd hmem List.not_mem_nil
  | append_singleton history w ih =>
    rw [replay_concat, isConstant_apply, ih, or_comm]
    simp only [List.mem_append, List.mem_singleton, or_and_right, exists_or, exists_eq_left]

theorem contains_eq (env : Environment) :
    env.contains name ↔ ∃ value, env.get name = .ok value := by
  rw [contains, get]
  cases env.binding? name with
  | none => exact iff_of_false nofun nofun
  | some b => exact iff_of_true rfl ⟨b.value, rfl⟩

theorem contains_replay : (replay history).contains name ↔ ∃ w ∈ history, w.name = name := by
  rw [contains_eq, get_replay, ← lastWrite?_isSome]
  cases lastWrite? name history with
  | none => exact iff_of_false nofun nofun
  | some w => exact iff_of_true ⟨w.value, rfl⟩ rfl

theorem size_replay : (replay history).size = (history.map Write.name).toFinset.card := by
  have hnames : (replay history).bindings.names.toFinset = (history.map Write.name).toFinset := by
    ext name
    rw [List.mem_toFinset, List.mem_toFinset, Table.mem_names_iff, List.mem_map]
    exact contains_replay history name
  have hdistinct : (replay history).bindings.names.Nodup := (replay history).bindings.distinct
  rw [← hnames, List.toFinset_card_of_nodup hdistinct, size, Table.size_eq_length_names]

/-- What an environment shows of a history of writes. -/
structure Shows (env : Environment) (history : List Write) : Prop where
  contains : ∀ name, env.contains name ↔ ∃ w ∈ history, w.name = name
  get : ∀ name, env.get name = match lastWrite? name history with
    | some w => .ok w.value
    | none => .error (.unbound name)
  isConstant : ∀ name, env.isConstant name ↔ ∃ w ∈ history, w.name = name ∧ w.constant
  refuses : ∀ name value fault, env.assign name value = .error fault ↔
    (∃ w ∈ history, w.name = name ∧ w.constant) ∧ fault = .constant name
  size : env.size = (history.map Write.name).toFinset.card

theorem shows_replay : (replay history).Shows history where
  contains := contains_replay history
  get := get_replay history
  isConstant := isConstant_replay history
  refuses name value fault := by rw [assign_eq_error, isConstant_replay]
  size := size_replay history

end Environment

/-! ## A life -/

/-- What can be done to an environment. Its copies are numbered in the order in which they are
taken. -/
inductive Operation where
  | set (name : String) (value : Value)
  | assign (name : String) (value : Value)
  | defineConstant (name : String) (value : Value)
  /-- Takes a copy. -/
  | save
  /-- Goes back to a copy, which is kept. -/
  | restore (copy : Nat)

/-- An environment with its effective history, and its copies with theirs. -/
structure Life where
  environment : Environment
  history : List Write
  copies : List (Environment × List Write)

namespace Life

/-- A new environment. -/
def fresh : Life :=
  ⟨.empty, [], []⟩

/-- The life after a write that has left an environment. -/
def written (life : Life) (environment : Environment) (w : Write) : Life :=
  { life with environment, history := life.history ++ [w] }

/-- The life after an operation. A copy that has not been taken cannot be restored. -/
def after (life : Life) : Operation → Life
  | .set name value => life.written (life.environment.set name value) ⟨name, value, false⟩
  | .assign name value =>
    match life.environment.assign name value with
    | .ok environment => life.written environment ⟨name, value, false⟩
    | .error _ => life
  | .defineConstant name value =>
    life.written (life.environment.defineConstant name value) ⟨name, value, true⟩
  | .save => { life with copies := life.copies ++ [(life.environment, life.history)] }
  | .restore copy =>
    match life.copies[copy]? with
    | some (environment, history) => { life with environment, history }
    | none => life

/-- The life after operations, from a new environment on. -/
def of (operations : List Operation) : Life :=
  operations.foldl after fresh

variable {life : Life}

/-- An environment and its copies are replays of their effective histories. -/
structure Replays (life : Life) : Prop where
  environment : life.environment = .replay life.history
  copies : ∀ copy ∈ life.copies, copy.1 = .replay copy.2

theorem Replays.written (h : life.Replays) {environment : Environment} {w : Write}
    (hwrite : environment = life.environment.apply w) : (life.written environment w).Replays where
  environment := by
    rw [hwrite, h.environment, ← Environment.replay_concat]
    rfl
  copies := h.copies

/-- Every operation leaves replays. -/
theorem Replays.after (h : life.Replays) (operation : Operation) :
    (life.after operation).Replays := by
  cases operation with
  | set name value => exact h.written rfl
  | defineConstant name value => exact h.written rfl
  | assign name value =>
    rw [Life.after]
    split
    · next environment hassigned => exact h.written (Environment.assign_eq_ok.mp hassigned).2
    · exact h
  | save =>
    refine ⟨h.environment, fun copy hmem => ?_⟩
    rcases List.mem_append.mp hmem with hmem | hmem
    · exact h.copies copy hmem
    · rw [List.mem_singleton.mp hmem]
      exact h.environment
  | restore copy =>
    rw [Life.after]
    split
    · next hcopy => exact ⟨h.copies _ (List.mem_of_getElem? hcopy), h.copies⟩
    · exact h

theorem replays (operations : List Operation) : (of operations).Replays := by
  induction operations using List.reverseRecOn with
  | nil => exact ⟨rfl, fun _ hmem => absurd hmem List.not_mem_nil⟩
  | append_singleton operations operation ih =>
    rw [of, List.foldl_append]
    exact ih.after operation

/-- No operation loses or changes a copy. -/
theorem copies_prefix (operations : List Operation) (life : Life) :
    life.copies <+: (operations.foldl after life).copies := by
  induction operations generalizing life with
  | nil => exact List.prefix_rfl
  | cons operation operations ih =>
    refine List.IsPrefix.trans ?_ (ih (life.after operation))
    cases operation with
    | set | defineConstant => exact List.prefix_rfl
    | save => exact List.prefix_append ..
    | assign | restore =>
      rw [Life.after]
      split <;> exact List.prefix_rfl

/-- Whatever has been done since a copy was taken, restoring it leads back to the environment and
to the effective history of that time. -/
theorem restore_saved (before since : List Operation) :
    let saved := of before
    let restored := (of (before ++ .save :: since)).after (.restore saved.copies.length)
    restored.environment = saved.environment ∧ restored.history = saved.history := by
  intro saved restored
  have hkept : (saved.after .save).copies <+: (of (before ++ .save :: since)).copies := by
    rw [of, List.foldl_append]
    exact copies_prefix since _
  have hcopy : (of (before ++ .save :: since)).copies[saved.copies.length]? =
      some (saved.environment, saved.history) := by
    obtain ⟨later, hlater⟩ := hkept
    rw [← hlater, Life.after, List.append_assoc, List.getElem?_append_right le_rfl, Nat.sub_self]
    rfl
  have hrestored : restored = { of (before ++ .save :: since) with
      environment := saved.environment, history := saved.history } := by
    simp only [restored, Life.after, hcopy]
  exact hrestored ▸ ⟨rfl, rfl⟩

/-- Assigning to a constant leaves everything as it was; to any other name it is a plain write. -/
theorem after_assign (life : Life) (name : String) (value : Value) :
    life.after (.assign name value) =
      if life.environment.isConstant name then life else life.after (.set name value) := by
  rw [after, after]
  split
  · next environment hassigned =>
    obtain ⟨hfree, heq⟩ := Environment.assign_eq_ok.mp hassigned
    rw [if_neg hfree, heq]
  · next fault hassigned => rw [if_pos (Environment.assign_eq_error.mp hassigned).1]

end Life

/-- An environment is a replay of its effective history, which consists of the writes that have
succeeded, and which a restoration makes what it was when the copy was taken. So after any
operations the bound names are those that have been written, each with the value of the last write
to it, and a name is constant if a write to it has defined a constant. Only assigning to a constant
fails, and then nothing changes. The environment has as many names as have been written. -/
theorem environment_replays_history (operations : List Operation) :
    let life := Life.of operations
    life.environment = .replay life.history ∧
    life.environment.Shows life.history ∧
    (∀ name value, life.after (.assign name value) =
      if life.environment.isConstant name then life else life.after (.set name value)) ∧
    ∀ since, let restored :=
        (Life.of (operations ++ .save :: since)).after (.restore life.copies.length)
      restored.environment = life.environment ∧ restored.history = life.history := by
  intro life
  have hreplays : life.environment = .replay life.history := (Life.replays operations).environment
  refine ⟨hreplays, ?_, life.after_assign, Life.restore_saved operations⟩
  rw [hreplays]
  exact Environment.shows_replay life.history

end DivisionScript
