import DivisionScript.Proofs.Run.Integer
import DivisionScript.Proofs.Run.Session
import DivisionScript.Proofs.Run.Unroll

/-!
# Run — Counting

The numbers that the variable of a loop has, one at the start of each pass. They are the numbers
nearest to the whole numbers of the range in order, whatever the passes do in between, and a loop
that ends without a failure has gone through all of them: `loop_counts`.
-/

namespace DivisionScript

open Run

/-- A run that has begun at the place `start` is at another one, and `past` are the places that it
has left, the latest one first. -/
inductive Path (settings : Settings) (start : Config) : (past : List Config) → Config → Prop
  | begun : Path settings start [] start
  | step {past : List Config} {c c' : Config} (h : Path settings start past c)
      (hstep : c.step settings = some c') : Path settings start (c :: past) c'

/-- Whether a pass of the loop that the run began with is about to run the body. -/
def Config.startsPass (c : Config) : Bool :=
  match c.tasks, c.failure with
  | [.block _, .passes ..], none => true
  | _, _ => false

/-- The values that a name has at the starts of the passes. -/
def passValues (name : String) (places : List Config) : List (Except Fault Value) :=
  (places.filter Config.startsPass).map (·.machine.environment.get name)

/-- The number that stands for a whole number as a value. -/
abbrev Value.ofWhole (n : Int) : Value :=
  .number (Number.ofWhole n)

/-- Where a loop is that has started `k` passes. -/
inductive Counting (settings : Settings) (line : Nat) (name : String) (body : List Stmt)
    (start stop : Int) : Nat → Config → Prop
  | first {c : Config} {m : Machine} (hquiet : c.startsPass = false)
      (hstep : c.step settings = some ⟨m, [.passes line name start stop body], none⟩) :
      Counting settings line name body start stop 0 c
  | between {k : Nat} (m : Machine) {next : Int} (failure : Option Failure)
      (hnext : next = start + k) (hle : k ≤ (stop - start + 1).toNat) :
      Counting settings line name body start stop k
        ⟨m, [.passes line name next stop body], failure⟩
  | starting {k : Nat} {m : Machine} {next : Int} (hnext : next = start + (k + 1 : Nat))
      (hle : k + 1 ≤ (stop - start + 1).toNat)
      (hvalue : m.environment.get name = .ok (.ofWhole (start + k))) :
      Counting settings line name body start stop (k + 1)
        ⟨m, [.block body, .passes line name next stop body], none⟩
  | within {k : Nat} (m : Machine) (tasks : List Task) (rest : List Stmt) {next : Int}
      (failure : Option Failure) (hnext : next = start + k) (hle : k ≤ (stop - start + 1).toNat) :
      Counting settings line name body start stop k
        ⟨m, tasks ++ [.statements rest, .passes line name next stop body], failure⟩
  | ended {k : Nat} (m : Machine) {failure : Option Failure} (hle : k ≤ (stop - start + 1).toNat)
      (hall : failure = none → k = (stop - start + 1).toNat) :
      Counting settings line name body start stop k ⟨m, [], failure⟩

section counting

variable {settings : Settings} {m m' : Machine} {line : Nat} {name : String} {first last : Expr}
variable {body : List Stmt} {start stop : Int} {k : Nat} {past : List Config} {c c' : Config}

theorem Config.startsPass_within (m : Machine) (tasks : List Task) (rest : List Stmt) (next : Int)
    (failure : Option Failure) : Config.startsPass
      ⟨m, tasks ++ [.statements rest, .passes line name next stop body], failure⟩ = false := by
  rcases tasks with _ | ⟨t, _ | ⟨t', tasks⟩⟩ <;> simp [startsPass]

/-- A step within the body stays there, or ends the pass. -/
theorem Counting.step_within {tasks : List Task} {rest : List Stmt} {next : Int}
    {failure : Option Failure} (hnext : next = start + k) (hle : k ≤ (stop - start + 1).toNat)
    (hstep : Config.step settings
      ⟨m, tasks ++ [.statements rest, .passes line name next stop body], failure⟩ = some c') :
    c'.startsPass = false ∧ Counting settings line name body start stop k c' := by
  have inside : ∀ m more rest failure, Config.startsPass
      ⟨m, more ++ [.statements rest, .passes line name next stop body], failure⟩ = false ∧
      Counting settings line name body start stop k
        ⟨m, more ++ [.statements rest, .passes line name next stop body], failure⟩ :=
    fun m more rest failure => ⟨Config.startsPass_within m more rest next failure,
      .within m more rest failure hnext hle⟩
  cases tasks with
  | nil =>
    cases failure with
    | some failure =>
      cases hstep
      exact ⟨rfl, .between _ _ hnext hle⟩
    | none =>
      cases rest with
      | nil =>
        cases hstep
        exact ⟨rfl, .between _ _ hnext hle⟩
      | cons s rest =>
        cases hstep
        exact inside m [.statement s] rest none
  | cons task tasks =>
    cases failure with
    | some failure =>
      cases hstep
      exact inside _ tasks rest _
    | none =>
      rw [List.cons_append, Config.step_perform] at hstep
      cases hstep
      cases task.perform settings m with
      | ok more m' =>
        have := inside m' (more ++ tasks) rest none
        rwa [List.append_assoc] at this
      | error failure m' => exact inside m' tasks rest (some failure)

/-- A step between two passes starts the next one, or ends the loop. -/
theorem Counting.step_between {next : Int} {failure : Option Failure}
    (hnext : next = start + k) (hle : k ≤ (stop - start + 1).toNat)
    (hstep : Config.step settings ⟨m, [.passes line name next stop body], failure⟩ = some c') :
    (c'.startsPass = false ∧ Counting settings line name body start stop k c') ∨
      (c'.startsPass = true ∧ Counting settings line name body start stop (k + 1) c' ∧
        c'.machine.environment.get name = .ok (.ofWhole (start + k))) := by
  cases failure with
  | some failure =>
    cases hstep
    exact .inl ⟨rfl, .ended _ hle nofun⟩
  | none =>
    rw [Config.step_perform] at hstep
    cases hstep
    rw [Task.perform]
    split
    · next hmore =>
      cases hbind : bind settings line name (.number (Number.ofWhole next)) m with
      | ok u m' =>
        obtain ⟨log, rfl⟩ := bind_written hbind
        rw [bind_ok hbind]
        have hvalue : (m.environment.set name (.ofWhole next)).get name =
            .ok (.ofWhole (start + k)) := by
          rw [Environment.get_set_self, hnext]
        exact .inr ⟨rfl, .starting (by omega) (by omega) hvalue, hvalue⟩
      | error failure m' =>
        rw [bind_error hbind]
        exact .inl ⟨rfl, .ended _ hle nofun⟩
    · next hdone => exact .inl ⟨rfl, .ended _ hle fun _ => by omega⟩

/-- A step starts the next pass or leaves the count as it is. -/
theorem Counting.step (h : Counting settings line name body start stop k c)
    (hstep : c.step settings = some c') :
    (c'.startsPass = false ∧ Counting settings line name body start stop k c') ∨
      (c'.startsPass = true ∧ Counting settings line name body start stop (k + 1) c' ∧
        c'.machine.environment.get name = .ok (.ofWhole (start + k))) := by
  cases h with
  | first hquiet hfirst =>
    rw [hfirst] at hstep
    cases hstep
    exact .inl ⟨rfl, .between _ _ (by simp) (Nat.zero_le _)⟩
  | between m failure hnext hle => exact step_between hnext hle hstep
  | starting hnext hle hvalue =>
    cases hstep
    exact .inl ⟨rfl, .within _ [] body none hnext hle⟩
  | within m tasks rest failure hnext hle => exact .inl (step_within hnext hle hstep)
  | ended => cases hstep

theorem passValues_append (places more : List Config) :
    passValues name (places ++ more) = passValues name places ++ passValues name more := by
  rw [passValues, List.filter_append, List.map_append]
  rfl

/-- The passes that a run has started have had the whole numbers of the range in order. -/
theorem Counting.of_path {begin : Config} (hpath : Path settings begin past c)
    (hfirst : Counting settings line name body start stop 0 begin)
    (hquiet : begin.startsPass = false) :
    ∃ k, Counting settings line name body start stop k c ∧
      passValues name (c :: past).reverse =
        (List.range k).map fun j : Nat => .ok (.ofWhole (start + j)) := by
  induction hpath with
  | begun => exact ⟨0, hfirst, by simp [passValues, hquiet]⟩
  | @step past c c' hpath hstep ih =>
    obtain ⟨k, hcounting, hvalues⟩ := ih
    rw [List.reverse_cons, passValues_append, hvalues]
    rcases hcounting.step hstep with ⟨hquiet, hnext⟩ | ⟨hstarts, hnext, hvalue⟩
    · exact ⟨k, hnext, by simp [passValues, hquiet]⟩
    · refine ⟨k + 1, hnext, ?_⟩
      rw [List.range_succ, List.map_append]
      simp [passValues, hstarts, hvalue]

theorem Counting.le (h : Counting settings line name body start stop k c) :
    k ≤ (stop - start + 1).toNat := by
  cases h with
  | first => exact Nat.zero_le _
  | between _ _ _ hle | starting _ hle _ | within _ _ _ _ _ hle | ended _ hle _ => exact hle

/-- A loop that is over without a failure has started all its passes. -/
theorem Counting.all (h : Counting settings line name body start stop k c) (hover : c.Halted)
    (hsuccess : c.failure = none) : k = (stop - start + 1).toNat := by
  cases h with
  | first _ hstep =>
    rw [Config.step_eq_none.mpr hover] at hstep
    cases hstep
  | between | starting => cases hover
  | within => exact absurd hover (by simp [Config.Halted])
  | ended _ _ hall => exact hall hsuccess

/-- A loop whose bounds are whole numbers begins with its passes. -/
theorem loop_step (hstart : first.value m.environment >>= Value.asInteger = .ok start)
    (hstop : last.value m.environment >>= Value.asInteger = .ok stop) :
    ∃ m', Config.step settings ⟨m, [.statement (.loop line name first last body)], none⟩ =
      some ⟨m', [.passes line name start stop body], none⟩ := by
  let noted : Machine := { m with log := m.log.note (.executing line) }
  have hnote : note (.executing line) m = .ok () noted := rfl
  obtain ⟨log₁, hfirst⟩ := integer_of_value (m := noted) line hstart
  obtain ⟨log₂, hlast⟩ := integer_of_value (m := { noted with log := log₁ }) line hstop
  have hperform : Task.perform settings (.statement (.loop line name first last body)) m =
      .ok [.passes line name start stop body]
        { m with log := log₂.note (.looping name start stop) } := by
    rw [Task.perform, Stmt.begin, bind_ok hnote, bind_ok hfirst, bind_ok hlast]
    rfl
  rw [Config.step_perform, hperform]
  exact ⟨_, rfl⟩

/-- The passes of a loop whose bounds are accepted. -/
theorem passes_in_order (hstart : first.value m.environment >>= Value.asInteger = .ok start)
    (hstop : last.value m.environment >>= Value.asInteger = .ok stop)
    (hpath : Path settings ⟨m, [.statement (.loop line name first last body)], none⟩ past c) :
    ∃ k ≤ (stop - start + 1).toNat,
      passValues name (c :: past).reverse =
        (List.range k).map (fun j : Nat => .ok (.ofWhole (start + j))) ∧
      (c.Halted → c.failure = none → k = (stop - start + 1).toNat) := by
  obtain ⟨m', hstep⟩ := loop_step hstart hstop
  obtain ⟨k, hcounting, hvalues⟩ := Counting.of_path hpath (.first rfl hstep) rfl
  exact ⟨k, hcounting.le, hvalues, hcounting.all⟩

theorem Path.of_reaches {begin : Config} (h : Config.Reaches settings begin c) :
    ∃ past, Path settings begin past c := by
  induction h with
  | refl => exact ⟨[], .begun⟩
  | tail _ hstep ih =>
    obtain ⟨past, hpath⟩ := ih
    exact ⟨_, hpath.step hstep⟩

theorem Path.reaches {begin : Config} (h : Path settings begin past c) :
    Config.Reaches settings begin c := by
  induction h with
  | begun => exact .refl
  | step _ hstep ih => exact ih.tail hstep

/-- The path of a statement to its end. -/
theorem path_of_statement (settings : Settings) (s : Stmt) (m : Machine) :
    ∃ past c, Path settings ⟨m, [.statement s], none⟩ past c ∧ c.Halted ∧
      c.failure = failure? (Run.statement settings s m) := by
  obtain ⟨c, hreaches, hover, hresult⟩ := (statement_performs s (m := m)).ends
  obtain ⟨past, hpath⟩ := Path.of_reaches hreaches
  refine ⟨past, c, hpath, hover, ?_⟩
  rw [← hresult, Config.result]
  cases c.failure <;> rfl

end counting

open Number

/-- The number that stands for a whole number of the range of bounds. -/
theorem ofWhole_of_range {n : Int} (hleast : -2 ^ 63 ≤ n) (hmost : n < 2 ^ 63) :
    Nearest n (ofWhole n) ∧
      ((∃ z : Float, z.isFinite ∧ value z = n) → value (ofWhole n) = n) ∧
      (n.natAbs ≤ 2 ^ 53 → value (ofWhole n) = n) := by
  have hnearest := ofWhole_nearest (k := n) (by omega)
  have hexact : (∃ z : Float, z.isFinite ∧ value z = n) → value (ofWhole n) = n := by
    rintro ⟨z, hz, hvalue⟩
    rw [← hvalue] at hnearest ⊢
    exact hnearest.value_eq hz
  exact ⟨hnearest, hexact, fun hle => hexact (exists_of_natAbs_le hle)⟩

/-- What the variable of a loop counts. In every state, for every loop whose bounds are the whole
numbers `start` and `stop`, it has at the starts of the passes the numbers that stand for `start`,
`start + 1` and so on, and if the loop succeeds, up to `stop`. Each of them is a number nearest to
its whole number, and equal to it if any number is, as for magnitudes up to `2 ^ 53`. The first is
equal to `start` and the last one to `stop`, and none is less than the one before. -/
theorem loop_counts {settings : Settings} {m : Machine} {line : Nat} {name : String}
    {first last : Expr} {body : List Stmt} {x y : Float} {start stop : Int} {past : List Config}
    {c : Config} (hfirst : first.value m.environment >>= Value.asNumber = .ok x)
    (hstart : Integral x start) (hlast : last.value m.environment >>= Value.asNumber = .ok y)
    (hstop : Integral y stop)
    (hpath : Path settings ⟨m, [.statement (.loop line name first last body)], none⟩ past c) :
    (∃ k ≤ (stop - start + 1).toNat,
      passValues name (c :: past).reverse =
        (List.range k).map (fun j : Nat => .ok (.ofWhole (start + j))) ∧
      (c.Halted → c.failure = none → k = (stop - start + 1).toNat)) ∧
    (∀ i, start ≤ i → i ≤ stop → Nearest i (ofWhole i) ∧
      ((∃ z : Float, z.isFinite ∧ value z = i) → value (ofWhole i) = i) ∧
      (i.natAbs ≤ 2 ^ 53 → value (ofWhole i) = i)) ∧
    value (ofWhole start) = start ∧ value (ofWhole stop) = stop ∧
    ∀ i j, start ≤ i → i < j → j ≤ stop → value (ofWhole i) ≤ value (ofWhole j) := by
  obtain ⟨hx, hxvalue, hleast, hbelow⟩ := id hstart
  obtain ⟨hy, hyvalue, habove, hmost⟩ := id hstop
  have hrange : ∀ i, start ≤ i → i ≤ stop → Nearest i (ofWhole i) ∧
      ((∃ z : Float, z.isFinite ∧ value z = i) → value (ofWhole i) = i) ∧
      (i.natAbs ≤ 2 ^ 53 → value (ofWhole i) = i) :=
    fun i hlow hhigh => ofWhole_of_range (hleast.trans hlow) (hhigh.trans_lt hmost)
  refine ⟨passes_in_order (Expr.integer_eq_ok.mpr ⟨x, hfirst, .inl hstart⟩)
    (Expr.integer_eq_ok.mpr ⟨y, hlast, .inl hstop⟩) hpath, hrange,
    (ofWhole_of_range hleast hbelow).2.1 ⟨x, hx, hxvalue⟩,
    (ofWhole_of_range habove hmost).2.1 ⟨y, hy, hyvalue⟩, fun i j hlow hlt hhigh => ?_⟩
  have hi := (hrange i hlow (by omega)).1
  have hj := (hrange j (by omega) hhigh).1
  exact hi.mono hj (by exact_mod_cast hlt)

/-- The state before the loops below. -/
def countingStart : Machine :=
  .initial {} 0 ⟨[]⟩ .unlimited .off

/-- The numbers of a loop from one to three. -/
theorem loop_counts_to_three : ∃ past c,
    Path {} ⟨countingStart, [.statement (.loop 1 "i" (.number 1.0) (.number 3.0) [])], none⟩
      past c ∧
    c.Halted ∧ passValues "i" (c :: past).reverse = [.ok (.ofWhole 1), .ok (.ofWhole 2),
      .ok (.ofWhole 3)] ∧ value (ofWhole 3) = 3 := by
  obtain ⟨past, c, hpath, hover, hfailure⟩ :=
    path_of_statement {} (.loop 1 "i" (.number 1.0) (.number 3.0) []) countingStart
  have hsuccess : failure? (Run.statement {} (.loop 1 "i" (.number 1.0) (.number 3.0) [])
      countingStart) = none := by decide +kernel
  have hone : Integral 1.0 1 := .of_whole (by decide +kernel) (by decide) (by decide)
  have hthree : Integral 3.0 3 := .of_whole (by decide +kernel) (by decide) (by decide)
  obtain ⟨⟨k, -, hvalues, hall⟩, -, -, hlast, -⟩ :=
    loop_counts (by rfl) hone (by rfl) hthree hpath
  rw [hall hover (hfailure.trans hsuccess)] at hvalues
  exact ⟨past, c, hpath, hover, hvalues, hlast⟩

/-- From `2 ^ 53` on the number type has not every whole number: a loop that starts there has
`2 ^ 53` again in its second pass. -/
theorem loop_repeats_two_pow_53 :
    let loop : Stmt := .loop 1 "i" (.number 9007199254740992) (.number 9007199254740994) []
    ¬ ∀ past c, Path {} ⟨countingStart, [.statement loop], none⟩ past c →
      ∀ (k : Nat) (z : Float),
        (passValues "i" (c :: past).reverse)[k]? = some (.ok (.number z)) →
          value z = (9007199254740992 + k : Int) := by
  intro loop hexact
  have hstart : Integral 9007199254740992 9007199254740992 :=
    .of_whole (by decide +kernel) (by decide) (by decide)
  have hstop : Integral 9007199254740994 9007199254740994 :=
    .of_whole (by decide +kernel) (by decide) (by decide)
  obtain ⟨past, c, hpath, hover, hfailure⟩ := path_of_statement {} loop countingStart
  have hsuccess : failure? (Run.statement {} loop countingStart) = none := by decide +kernel
  obtain ⟨k, -, hvalues, hall⟩ := passes_in_order
    (Expr.integer_eq_ok.mpr ⟨_, by rfl, .inl hstart⟩)
    (Expr.integer_eq_ok.mpr ⟨_, by rfl, .inl hstop⟩) hpath
  rw [hall hover (hfailure.trans hsuccess)] at hvalues
  have hsecond := hexact past c hpath 1 (ofWhole 9007199254740993) (by rw [hvalues]; rfl)
  have hwhole : whole? (ofWhole 9007199254740993) = some 9007199254740992 := by decide +kernel
  rw [(whole?_eq_some_iff.mp hwhole).2] at hsecond
  exact absurd (by exact_mod_cast hsecond : (9007199254740992 : Int) = 9007199254740992 + 1)
    (by decide)

end DivisionScript
