import DivisionScript.Proofs.Run.Integer
import DivisionScript.Proofs.Run.Session
import DivisionScript.Proofs.Run.Sources

/-!
# Run — Drawing

Random numbers. A number that is drawn between two bounds stays between the numbers that the bounds
have come from, in the order of the language, and in a session every draw is made by a statement
whose bounds are accepted. Nothing else takes from the random numbers, and nothing puts back what
has been taken.
-/

namespace DivisionScript

/-! ## Draws -/

namespace Random.Generator

variable {range : Nat} {least greatest : Int}

/-- The high half of the product of a word and a range. -/
theorem high_lt (word : UInt64) (hpos : 0 < range) : word.toNat * range / wordSize < range := by
  rw [Nat.div_lt_iff_lt_mul (by decide), Nat.mul_comm range]
  exact Nat.mul_lt_mul_of_pos_right word.toNat_lt hpos

theorem below_lt (hpos : 0 < range) (attempts : Nat) (g : Generator) :
    (g.below range attempts).1 < range := by
  induction attempts generalizing g with
  | zero => exact high_lt _ hpos
  | succ attempts ih =>
    simp only [below]
    split
    · exact high_lt _ hpos
    · exact ih _

/-! The search for a word ends only because it is bounded, but the bound does not show. -/

/-- The words of a stream repeat after a period. -/
theorem wordAt_add_period (key : Key) (position : Nat) :
    wordAt key (position + period) = wordAt key position := by
  have hblock : (position + period) / 8 = position / 8 + 2 ^ 64 := by
    rw [period, wordSize]
    omega
  have hplace : (position + period) % 8 = position % 8 := by
    rw [period, wordSize]
    omega
  have hcounter : UInt64.ofNat (position / 8 + 2 ^ 64) = UInt64.ofNat (position / 8) := by
    rw [← UInt64.toNat_inj]
    simp
  simp only [wordAt, hblock, hplace, hcounter]

/-- The word that is `k` words ahead is in the zone of a range. -/
def Accepts (range : Nat) (g : Generator) (k : Nat) : Prop :=
  (wordAt g.key (g.position + k)).toNat * range % wordSize ≤ zone range

theorem below_of_accepts {k attempts : Nat} {g : Generator} (hlt : k < attempts)
    (hfirst : ∀ i < k, ¬ Accepts range g i) (haccepts : Accepts range g k) :
    g.below range attempts = ((wordAt g.key (g.position + k)).toNat * range / wordSize,
      { g with position := g.position + k + 1 }) := by
  induction attempts generalizing g k with
  | zero => exact absurd hlt (Nat.not_lt_zero k)
  | succ attempts ih =>
    cases k with
    | zero => exact if_pos haccepts
    | succ k =>
      have hshift (i : Nat) : Accepts range g.next.2 i ↔ Accepts range g (i + 1) := by
        rw [Accepts, Accepts, next, Nat.add_assoc g.position, Nat.add_comm 1]
      have hrest := ih (Nat.lt_of_succ_lt_succ hlt)
        (fun i hi h => hfirst (i + 1) (Nat.succ_lt_succ hi) ((hshift i).mp h))
        ((hshift k).mpr haccepts)
      have hnext : g.below range (attempts + 1) = g.next.2.below range attempts :=
        if_neg (hfirst 0 (Nat.succ_pos k))
      rw [hnext, hrest, next, Nat.add_assoc g.position, Nat.add_comm 1]

/-- A search takes the first word of the stream that is in the zone, however far ahead it is. -/
theorem below_period {k : Nat} {g : Generator} (hfirst : ∀ i < k, ¬ Accepts range g i)
    (haccepts : Accepts range g k) :
    g.below range period = ((wordAt g.key (g.position + k)).toNat * range / wordSize,
      { g with position := g.position + k + 1 }) := by
  refine below_of_accepts (Nat.lt_of_not_le fun hle => ?_) hfirst haccepts
  have hpos : 0 < period := by decide
  refine hfirst (k - period) (by omega) ?_
  rw [Accepts, ← wordAt_add_period, Nat.add_assoc, Nat.sub_add_cancel hle]
  exact haccepts

/-- A draw stays between its bounds. -/
theorem draw_between (g : Generator) (hleast : -2 ^ 63 ≤ least) (hle : least ≤ greatest)
    (hgreatest : greatest < 2 ^ 63) :
    least ≤ (g.draw least greatest).1 ∧ (g.draw least greatest).1 ≤ greatest := by
  simp only [draw]
  split
  · next hall =>
    rw [wordSize] at hall
    have hlow := Int64.le_toInt g.next.1.toInt64
    have hhigh := Int64.toInt_lt g.next.1.toInt64
    constructor
    · show least ≤ g.next.1.toInt64.toInt
      omega
    · show g.next.1.toInt64.toInt ≤ greatest
      omega
  · have hlt := below_lt (by omega : 0 < (greatest - least + 1).toNat) period g
    constructor <;> dsimp only <;> omega

end Random.Generator

namespace Number

variable {lo hi : Float} {a b n : Int}

theorem Bound.range (h : Bound lo a) : -2 ^ 63 ≤ a ∧ a < 2 ^ 63 := by
  rcases h with ⟨-, -, hleast, hmost⟩ | ⟨-, -, rfl⟩
  · exact ⟨hleast, hmost⟩
  · decide

/-- The number that stands for a whole number between two bounds is between the numbers that the
bounds have come from. -/
theorem ofWhole_between (hlo : Bound lo a) (hhi : Bound hi b) (hle : a ≤ n) (hle' : n ≤ b) :
    (∃ k, whole? (ofWhole n) = some k) ∧ lo ≤ ofWhole n ∧ ofWhole n ≤ hi := by
  have hleast := hlo.range.1
  have hmost := hhi.range.2
  have hnearest : Nearest n (ofWhole n) := ofWhole_nearest (by omega)
  refine ⟨hnearest.whole, ?_, ?_⟩
  · rcases hlo with ⟨hfinite, hvalue, -⟩ | ⟨hfinite, hvalue, rfl⟩
    · refine (le_iff hfinite hnearest.isFinite).mpr (hnearest.le_value hfinite ?_)
      rw [hvalue]
      exact_mod_cast hle
    · -- The number of the greatest bound is the one above it.
      obtain rfl : n = 2 ^ 63 - 1 := by omega
      have hwhole : whole? (ofWhole (2 ^ 63 - 1)) = some (2 ^ 63) := by decide +kernel
      refine (le_iff hfinite hnearest.isFinite).mpr ?_
      rw [hvalue, (whole?_eq_some_iff.mp hwhole).2]
      norm_num
  · have hbound : hi.isFinite ∧ (b : ℚ) ≤ value hi := by
      rcases hhi with ⟨hfinite, hvalue, -⟩ | ⟨hfinite, hvalue, rfl⟩
      · exact ⟨hfinite, hvalue.ge⟩
      · refine ⟨hfinite, ?_⟩
        rw [hvalue]
        norm_num
    refine (le_iff hnearest.isFinite hbound.1).mpr (hnearest.value_le hbound.1 ?_)
    exact le_trans (by exact_mod_cast hle') hbound.2

end Number

/-! ## The statement -/

/-- The range that a random number is drawn from, if the values of the two expressions are accepted
as its bounds. -/
def drawnRange? (env : Environment) (least greatest : Expr) : Option (Int × Int) :=
  match least.value env >>= Value.asInteger, greatest.value env >>= Value.asInteger with
  | .ok a, .ok b => if a ≤ b then some (a, b) else none
  | _, _ => none

/-- The range that a statement draws a random number from, if it does. -/
def Stmt.drawnRange? (env : Environment) : Stmt → Option (Int × Int)
  | .rand _ _ least greatest => DivisionScript.drawnRange? env least greatest
  | _ => none

/-- The random numbers that a draw from a range leaves. -/
def Random.Generator.after (g : Generator) (range : Int × Int) : Generator :=
  (g.draw range.1 range.2).2

theorem drawnRange?_eq_some {env : Environment} {least greatest : Expr} {a b : Int} :
    drawnRange? env least greatest = some (a, b) ↔
      least.value env >>= Value.asInteger = .ok a ∧
      greatest.value env >>= Value.asInteger = .ok b ∧ a ≤ b := by
  rw [drawnRange?]
  cases least.value env >>= Value.asInteger with
  | error fault => simp
  | ok n =>
    cases greatest.value env >>= Value.asInteger with
    | error fault => simp
    | ok k =>
      dsimp only
      split
      · next hle =>
        simp only [Option.some.injEq, Prod.mk.injEq, Except.ok.injEq]
        constructor
        · rintro ⟨rfl, rfl⟩
          exact ⟨rfl, rfl, hle⟩
        · rintro ⟨rfl, rfl, -⟩
          exact ⟨rfl, rfl⟩
      · next hgt =>
        refine iff_of_false nofun ?_
        rintro ⟨⟨⟩, ⟨⟩, hle⟩
        exact hgt hle

namespace Run

variable {settings : Settings} {line : Nat} {name : String} {least greatest : Expr}
variable {m m' : Machine}

/-- Writing the drawn number is what is left of the statement where its bounds are accepted, and
the statement fails where they are not. -/
theorem drawInto_eq (settings : Settings) (line : Nat) (name : String) (least greatest : Expr)
    (m : Machine) :
    (∃ a b log, drawnRange? m.environment least greatest = some (a, b) ∧
      drawInto settings line name least greatest m =
        bind settings line name (.number (Number.ofWhole (m.generator.draw a b).1))
          { m with generator := m.generator.after (a, b), log }) ∨
    drawnRange? m.environment least greatest = none ∧
      ∃ failure log, drawInto settings line name least greatest m =
        .error failure { m with log } := by
  obtain ⟨log, hleast⟩ := integer_eq line least m
  obtain ⟨log', hgreatest⟩ := integer_eq line greatest { m with log }
  rw [drawnRange?, drawInto]
  cases ha : least.value m.environment >>= Value.asInteger with
  | error fault =>
    rw [ha] at hleast
    exact .inr ⟨rfl, _, log, bind_error hleast⟩
  | ok a =>
    rw [ha] at hleast
    rw [bind_ok hleast]
    cases hb : greatest.value m.environment >>= Value.asInteger with
    | error fault =>
      rw [hb] at hgreatest
      exact .inr ⟨rfl, _, log', bind_error hgreatest⟩
    | ok b =>
      rw [hb] at hgreatest
      rw [bind_ok hgreatest]
      dsimp only
      by_cases hle : a ≤ b
      · rw [if_pos hle, if_neg (not_lt.mpr hle)]
        exact .inl ⟨a, b, _, rfl, rfl⟩
      · rw [if_neg hle, if_pos (not_le.mp hle)]
        exact .inr ⟨rfl, _, log', rfl⟩

/-- One draw if the bounds are accepted, none if they are not. -/
theorem generator_drawInto (settings : Settings) (line : Nat) (name : String)
    (least greatest : Expr) (m : Machine) :
    (left (drawInto settings line name least greatest m)).generator =
      (drawnRange? m.environment least greatest).elim m.generator m.generator.after := by
  rcases drawInto_eq settings line name least greatest m with
    ⟨a, b, log, hrange, hdraw⟩ | ⟨hrange, failure, log, hdraw⟩
  · rw [hrange, hdraw]
    exact (sources_bind settings line name _).generator _
  · rw [hrange, hdraw]
    rfl

/-- A number that is drawn is between the bounds that the program sees. -/
theorem drawInto_between (h : drawInto settings line name least greatest m = .ok () m') :
    ∃ lo hi v, least.value m.environment >>= Value.asNumber = .ok lo ∧
      greatest.value m.environment >>= Value.asNumber = .ok hi ∧
      m'.environment.get name = .ok (.number v) ∧ (∃ k, Number.whole? v = some k) ∧
      lo ≤ v ∧ v ≤ hi := by
  rcases drawInto_eq settings line name least greatest m with
    ⟨a, b, log, hrange, hdraw⟩ | ⟨-, failure, log, hdraw⟩
  · obtain ⟨ha, hb, hle⟩ := drawnRange?_eq_some.mp hrange
    obtain ⟨lo, hlo, hleast⟩ := Expr.integer_eq_ok.mp ha
    obtain ⟨hi, hhi, hgreatest⟩ := Expr.integer_eq_ok.mp hb
    obtain ⟨hlow, hhigh⟩ := m.generator.draw_between hleast.range.1 hle hgreatest.range.2
    obtain ⟨log', rfl⟩ := bind_written (hdraw.symm.trans h)
    exact ⟨lo, hi, _, hlo, hhi, Environment.get_set_self ..,
      Number.ofWhole_between hleast hgreatest hlow hhigh⟩
  · rw [hdraw] at h
    cases h

end Run

open Run

/-! ## Sessions -/

section sessions

variable {settings : Settings} {start m : Machine} {past : List Config} {c c' : Config}

theorem Stmt.generator_begin (settings : Settings) (s : Stmt) (m : Machine) :
    (left (s.begin settings m)).generator =
      (s.drawnRange? m.environment).elim m.generator m.generator.after := by
  by_cases h : s.draws
  · cases s with
    | rand line name least greatest =>
      let noted : Machine := { m with log := m.log.note (.executing line) }
      have hdraw := generator_drawInto settings line name least greatest noted
      have hbegin : (left (Stmt.begin settings (.rand line name least greatest) m)).generator =
          (left (drawInto settings line name least greatest noted)).generator :=
        Keeps.left_bind (x := drawInto settings line name least greatest) (fun _ => .pure []) noted
      rw [hbegin]
      exact hdraw
    | _ => cases h
  · have hnone : s.drawnRange? m.environment = none := by
      cases s with
      | rand => exact absurd rfl h
      | _ => rfl
    rw [hnone]
    exact s.keeps_generator settings h m

/-- The range that the next step draws a random number from, if it does. -/
def Config.drawnRange? (c : Config) : Option (Int × Int) :=
  c.next?.bind (·.drawnRange? c.machine.environment)

/-- A step makes the draw of its statement and no other. -/
theorem Config.step_generator (h : c.step settings = some c') :
    c'.machine.generator = c.drawnRange?.elim c.machine.generator c.machine.generator.after := by
  rcases step_sources h with ⟨m, s, rest, rfl, hbegin⟩ | ⟨hnone, hkept⟩
  · rw [hbegin]
    exact s.generator_begin settings m
  · rw [drawnRange?, hnone]
    exact congrArg Prod.snd hkept

/-- The random numbers of a session are what the draws of its statements have left. -/
theorem Session.generator_eq (h : Session settings start past c) :
    c.machine.generator = (past.filterMap Config.drawnRange?).foldr
      (fun range g => g.after range) start.generator := by
  induction h with
  | opened => rfl
  | @ordered past c h hover order ih =>
    have hidle : c.drawnRange? = none := by
      rw [Config.drawnRange?, Config.next?_of_halted hover]
      rfl
    rw [List.filterMap_cons_none hidle]
    exact ih
  | @stepped past c c' h hstep ih =>
    rw [Config.step_generator hstep]
    cases hrange : c.drawnRange? with
    | none =>
      rw [List.filterMap_cons_none hrange]
      exact ih
    | some range =>
      rw [List.filterMap_cons_some hrange, List.foldr_cons, ← ih]
      rfl

end sessions

theorem statement_rand (settings : Settings) (line : Nat) (name : String) (least greatest : Expr)
    (m : Machine) :
    Run.statement settings (.rand line name least greatest) m =
      drawInto settings line name least greatest { m with log := m.log.note (.executing line) } :=
  rfl

/-- Random numbers stay within their bounds, and nothing but the statement that draws them takes
from them. In every state the statement fails without a draw if its bounds are no whole numbers in
order; if they are, it makes one draw, and what is left of it is writing the drawn number to its
name. If it succeeds, its bounds have the numbers `lo` and `hi`, and its name has a whole number
that the comparisons of the language find between them. In a session, whatever is called and
wherever it fails, the random numbers are what the draws have left, one after another, of those at
its start. -/
theorem draws_stay_in_range {settings : Settings} {start : Machine} {past : List Config}
    {c : Config} (hsession : Session settings start past c) :
    (∀ (m : Machine) line name least greatest,
      (drawnRange? m.environment least greatest = none → ∃ failure m',
        Run.statement settings (.rand line name least greatest) m = .error failure m' ∧
        m'.generator = m.generator) ∧
      (∀ range, drawnRange? m.environment least greatest = some range →
        (left (Run.statement settings (.rand line name least greatest) m)).generator =
          m.generator.after range ∧
        ∃ log, Run.statement settings (.rand line name least greatest) m =
          Run.bind settings line name
            (.number (Number.ofWhole (m.generator.draw range.1 range.2).1))
            { m with generator := m.generator.after range, log }) ∧
      ∀ m', Run.statement settings (.rand line name least greatest) m = .ok () m' →
        ∃ lo hi v, least.value m.environment >>= Value.asNumber = .ok lo ∧
          greatest.value m.environment >>= Value.asNumber = .ok hi ∧
          m'.environment.get name = .ok (.number v) ∧ (∃ k, Number.whole? v = some k) ∧
          Comparison.lessEqual.holds lo v ∧ Comparison.lessEqual.holds v hi) ∧
    c.machine.generator = (past.filterMap Config.drawnRange?).foldr
      (fun range g => g.after range) start.generator := by
  refine ⟨fun m line name least greatest => ?_, hsession.generator_eq⟩
  let noted : Machine := { m with log := m.log.note (.executing line) }
  rw [statement_rand]
  refine ⟨fun hnone => ?_, fun range hrange => ⟨?_, ?_⟩, fun m' h => ?_⟩
  · rcases drawInto_eq settings line name least greatest noted with
      ⟨a, b, log, hsome, -⟩ | ⟨-, failure, log, hfailed⟩
    · exact absurd (hsome.symm.trans hnone) nofun
    · exact ⟨failure, _, hfailed, rfl⟩
  · rw [generator_drawInto, hrange]
    rfl
  · rcases drawInto_eq settings line name least greatest noted with
      ⟨a, b, log, hsome, hdraw⟩ | ⟨hnone, -⟩
    · obtain rfl : (a, b) = range := Option.some_inj.mp (hsome.symm.trans hrange)
      exact ⟨log, hdraw⟩
    · exact absurd (hrange.symm.trans hnone) nofun
  · obtain ⟨lo, hi, v, hlo, hhi, hget, hwhole, hlow, hhigh⟩ := drawInto_between h
    exact ⟨lo, hi, v, hlo, hhi, hget, hwhole, decide_eq_true hlow, decide_eq_true hhigh⟩

/-- A number drawn between `-2 ^ 63` and `2 ^ 63`, and the one draw that it takes. -/
theorem draws_stay_in_range_of_all :
    let least : Float := .ofBits 0xC3E0000000000000
    let greatest : Float := .ofBits 0x43E0000000000000
    let m : Machine := .initial {} 0 ⟨[]⟩ .unlimited .off
    ∃ past m' v k, Session {} m past ⟨m', [], none⟩ ∧
      Run.statement {} (.rand 1 "r" (.number least) (.number greatest)) m = .ok () m' ∧
      m'.generator = m.generator.after (-2 ^ 63, 2 ^ 63 - 1) ∧
      m'.environment.get "r" = .ok (.number v) ∧ Number.whole? v = some k ∧
      -2 ^ 63 ≤ k ∧ k ≤ 2 ^ 63 := by
  intro least greatest m
  have hsuccess : failure? (Run.statement {} (.rand 1 "r" (.number least) (.number greatest)) m) =
      none := by
    decide +kernel
  cases hrun : Run.statement {} (.rand 1 "r" (.number least) (.number greatest)) m with
  | error failure m' =>
    rw [hrun] at hsuccess
    cases hsuccess
  | ok u m' =>
    have hbegin : Task.perform {} (.statement (.rand 1 "r" (.number least) (.number greatest))) m =
        .ok [] m' := by
      rw [statement_rand] at hrun
      exact bind_ok (f := fun _ => pure []) hrun
    have hsession : Session {} m
        [⟨m, [.statement (.rand 1 "r" (.number least) (.number greatest))], none⟩, ⟨m, [], none⟩]
        ⟨m', [], none⟩ :=
      (Session.opened.ordered rfl (.statement _)).stepped (Config.step_ok hbegin)
    obtain ⟨hstatements, hgenerator⟩ := draws_stay_in_range hsession
    obtain ⟨-, -, hbetween⟩ := hstatements m 1 "r" (.number least) (.number greatest)
    obtain ⟨lo, hi, v, hlo, hhi, hget, ⟨k, hwhole⟩, hlow, hhigh⟩ := hbetween m' hrun
    obtain rfl : least = lo := Except.ok.inj hlo
    obtain rfl : greatest = hi := Except.ok.inj hhi
    have hrange : Config.drawnRange?
        ⟨m, [.statement (.rand 1 "r" (.number least) (.number greatest))], none⟩ =
          some (-2 ^ 63, 2 ^ 63 - 1) := by decide +kernel
    rw [List.filterMap_cons_some hrange] at hgenerator
    have hleast : Number.whole? least = some (-2 ^ 63) := by decide +kernel
    have hgreatest : Number.whole? greatest = some (2 ^ 63) := by decide +kernel
    obtain ⟨hfinite, hvalue⟩ := Number.whole?_eq_some_iff.mp hwhole
    obtain ⟨hfinite₁, hvalue₁⟩ := Number.whole?_eq_some_iff.mp hleast
    obtain ⟨hfinite₂, hvalue₂⟩ := Number.whole?_eq_some_iff.mp hgreatest
    have hle := (Number.le_iff hfinite₁ hfinite).mp (of_decide_eq_true hlow)
    have hge := (Number.le_iff hfinite hfinite₂).mp (of_decide_eq_true hhigh)
    rw [hvalue, hvalue₁] at hle
    rw [hvalue, hvalue₂] at hge
    exact ⟨_, m', v, k, hsession, rfl, hgenerator, hget, hwhole, by exact_mod_cast hle,
      by exact_mod_cast hge⟩

end DivisionScript
