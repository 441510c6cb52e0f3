import DivisionScript.Grammar.Program
import DivisionScript.Proofs.Grammar.Statement

/-!
# Grammar — Program, proved

Whole programs and lone expressions. A list of tokens that ends once, at its last token, spells a
program exactly if the grammar derives one from it, and then it is that program.
-/

namespace DivisionScript.Grammar

variable {n line : Nat} {ts us rest : List Token} {log after : Array Milestone}

/-! ## The static division -/

section declarations

variable {d : Decl}

theorem reads_metadata {keyword : String} {make : String → Decl} :
    Reads (metadata keyword make ts) d rest ↔
      ∃ text stop shown, ts = text :: stop :: rest ∧ text.kind = .string shown ∧
        stop.shape = .symbol .semicolon ∧ make shown = d := by
  simp only [metadata, reads_bind, reads_next, reads_stringLiteral, reads_expectSymbol, reads_ok,
    value_give, rest_give]
  grind

theorem reads_constant :
    Reads (constant n line ts) d rest ↔
      ∃ name equals mid e stop, ts = name :: equals :: mid ∧ name.shape = .identifier ∧
        equals.shape = .symbol .equal ∧ Reads (expression n mid) e (stop :: rest) ∧
        stop.shape = .symbol .semicolon ∧ .const line name.lexeme e = d := by
  simp only [constant, reads_bind, reads_next, reads_expect, reads_expectSymbol, reads_ok,
    value_give, rest_give]
  grind

theorem tracks_declaration :
    Tracks (declaration n ts) log d rest after ↔
      Reads (openedDeclaration n ts) d rest ∧ after = log.push .declaration :=
  tracks_reach.trans tracks_tracked

theorem openedDeclaration_sound : Sound (openedDeclaration n) (DerivesDeclaration n) := by
  intro ts d rest h
  cases ts with
  | nil => exact absurd h not_reads_reject
  | cons t us =>
    rw [openedDeclaration] at h
    split at h
    · next ht =>
      obtain ⟨text, stop, shown, rfl, htext, hstop, rfl⟩ := reads_metadata.mp (reads_behind.mp h)
      exact ⟨[t, text, stop], rfl, .program ht htext hstop⟩
    · next ht =>
      obtain ⟨text, stop, shown, rfl, htext, hstop, rfl⟩ := reads_metadata.mp (reads_behind.mp h)
      exact ⟨[t, text, stop], rfl, .author ht htext hstop⟩
    · next ht =>
      obtain ⟨text, stop, shown, rfl, htext, hstop, rfl⟩ := reads_metadata.mp (reads_behind.mp h)
      exact ⟨[t, text, stop], rfl, .date ht htext hstop⟩
    · next ht =>
      obtain ⟨name, equals, mid, e, stop, rfl, hname, hequals, he, hstop, rfl⟩ :=
        reads_constant.mp (reads_behind.mp h)
      obtain ⟨vs, rfl, hvs⟩ := expression_sound he
      exact ⟨t :: name :: equals :: (vs ++ [stop]), by simp, .const ht hname hequals hvs hstop⟩
    · exact absurd h not_reads_reject

theorem DerivesDeclaration.head (h : DerivesDeclaration n us d) :
    ∃ t vs, us = t :: vs ∧ t.shape ≠ .keyword .dynamic := by
  cases h with
  | program ht _ _ | author ht _ _ | date ht _ _ | const ht _ _ _ _ =>
    exact ⟨_, _, rfl, by rw [ht]; decide⟩

theorem DerivesDeclaration.reads (h : DerivesDeclaration n us d) (rest : List Token) :
    Reads (openedDeclaration n (us ++ rest)) d rest := by
  cases h with
  | program ht htext hstop | author ht htext hstop | date ht htext hstop =>
    rw [List.cons_append, openedDeclaration, ht]
    exact reads_behind.mpr (reads_metadata.mpr ⟨_, _, _, rfl, htext, hstop, rfl⟩)
  | @const ts e word name equals stop ht hname hequals he hstop =>
    have hts : word :: name :: equals :: (ts ++ [stop]) ++ rest =
        word :: name :: equals :: (ts ++ stop :: rest) := by simp
    rw [hts, openedDeclaration, ht]
    exact reads_behind.mpr (reads_constant.mpr ⟨name, equals, _, e, stop, rfl, hname, hequals,
      he.reads_before hstop (by decide), hstop, rfl⟩)

variable {ds : List Decl}

/-- The declarations are over at `dynamic` or where no tokens are left. -/
def Dynamic : List Token → Prop
  | [] => True
  | t :: _ => t.shape = .keyword .dynamic

theorem tracks_declarations_dynamic (h : Dynamic ts) :
    Tracks (declarations n ts) log ds rest after ↔ [] = ds ∧ ts = rest ∧ after = log := by
  cases ts with
  | nil =>
    rw [declarations]
    exact tracks_pure
  | cons t us =>
    have ht : t.shape = .keyword .dynamic := h
    rw [declarations, if_pos ht]
    exact tracks_pure

theorem tracks_declarations_cons {t : Token} (h : t.shape ≠ .keyword .dynamic) :
    Tracks (declarations n (t :: us)) log ds rest after ↔
      ∃ d mid between more, Tracks (declaration n (t :: us)) log d mid between ∧
        Tracks (declarations n mid) between more rest after ∧ d :: more = ds := by
  rw [declarations, if_neg h]
  simp only [tracks_bind, tracks_pure]
  constructor
  · intro h
    rcases h with ⟨d, mid, between, hd, more, end_, last, hmore, hds, hrest, rfl⟩
    obtain rfl : end_ = rest := hrest
    exact ⟨d, mid, between, more, hd, hmore, hds⟩
  · intro h
    rcases h with ⟨d, mid, between, more, hd, hmore, hds⟩
    exact ⟨d, mid, between, hd, more, rest, after, hmore, hds, rfl, rfl⟩

theorem declarations_sound (h : Tracks (declarations n ts) log ds rest after) :
    ∃ us, us ++ rest = ts ∧ DerivesDeclarations n us ds := by
  induction hsize : ts.length using Nat.strongRecOn generalizing ts log ds with
  | _ size ih =>
    by_cases hdynamic : Dynamic ts
    · obtain ⟨rfl, rfl, -⟩ := (tracks_declarations_dynamic hdynamic).mp h
      exact ⟨[], rfl, .nil⟩
    · cases ts with
      | nil => exact absurd trivial hdynamic
      | cons t us =>
        obtain ⟨d, mid, between, more, hd, hmore, rfl⟩ := (tracks_declarations_cons hdynamic).mp h
        have hshort : mid.length < size := by
          have := hd.shorter
          omega
        obtain ⟨vs, hvs, hphrase⟩ := openedDeclaration_sound (tracks_declaration.mp hd).1
        obtain ⟨ws, rfl, hws⟩ := ih mid.length hshort hmore rfl
        exact ⟨vs ++ ws, by simpa using hvs, .cons hphrase hws⟩

theorem declarations_complete (h : DerivesDeclarations n us ds) (hrest : Dynamic rest) :
    ∀ log, ∃ after, Tracks (declarations n (us ++ rest)) log ds rest after := by
  induction h with
  | nil => exact fun log => ⟨log, (tracks_declarations_dynamic hrest).mpr ⟨rfl, rfl, rfl⟩⟩
  | @cons _ us _ _ hd _ ih =>
    intro log
    have hread := hd.reads (us ++ rest)
    obtain ⟨after, hmore⟩ := ih (log.push .declaration)
    obtain ⟨t, vs, rfl, ht⟩ := hd.head
    rw [List.append_assoc]
    exact ⟨after, (tracks_declarations_cons ht).mpr
      ⟨_, _, _, _, tracks_declaration.mpr ⟨hread, rfl⟩, hmore, rfl⟩⟩

theorem tracks_staticDivision_absent (h : nextIs (.keyword .static) ts = false) :
    Tracks (staticDivision n ts) log ds rest after ↔ [] = ds ∧ ts = rest ∧ after = log := by
  cases ts with
  | nil => exact tracks_pure
  | cons t us =>
    rw [staticDivision, if_neg (by simpa [nextIs] using h)]
    exact tracks_pure

theorem tracks_staticDivision_present {t : Token} (h : t.shape = .keyword .static) :
    Tracks (staticDivision n (t :: us)) log ds rest after ↔
      ∃ word mid, us = word :: mid ∧ word.shape = .keyword .division ∧
        Tracks (declarations n mid) log ds rest after := by
  rw [staticDivision, if_pos h]
  simp only [tracks_bind, tracks_tracked, tracks_nextOptional, tracks_pure, reads_expectKeyword,
    value_loosen, rest_loosen, value_behind, rest_behind]
  grind

theorem staticDivision_sound (h : Tracks (staticDivision n ts) log ds rest after) :
    ∃ us, us ++ rest = ts ∧ DerivesStatic n us ds := by
  by_cases hstatic : nextIs (.keyword .static) ts = true
  · cases ts with
    | nil => cases hstatic
    | cons t us =>
      have ht : t.shape = .keyword .static := by simpa [nextIs] using hstatic
      obtain ⟨word, mid, rfl, hword, hds⟩ := (tracks_staticDivision_present ht).mp h
      obtain ⟨vs, rfl, hvs⟩ := declarations_sound hds
      exact ⟨t :: word :: vs, rfl, .present ht hword hvs⟩
  · obtain ⟨rfl, rfl, -⟩ := (tracks_staticDivision_absent (by simpa using hstatic)).mp h
    exact ⟨[], rfl, .absent⟩

theorem staticDivision_complete {t : Token} (h : DerivesStatic n us ds)
    (ht : t.shape = .keyword .dynamic) (log : Array Milestone) :
    ∃ after, Tracks (staticDivision n (us ++ t :: rest)) log ds (t :: rest) after := by
  cases h with
  | absent =>
    exact ⟨log, (tracks_staticDivision_absent (by simp [nextIs, ht])).mpr ⟨rfl, rfl, rfl⟩⟩
  | present hstatic hdivision hds =>
    have hdynamic : Dynamic (t :: rest) := ht
    obtain ⟨after, hafter⟩ := declarations_complete hds hdynamic log
    exact ⟨after, (tracks_staticDivision_present hstatic).mpr ⟨_, _, rfl, hdivision, hafter⟩⟩

end declarations

/-! ## The dynamic division -/

theorem allStatements_cons {t : Token} {body : List Stmt} :
    allStatements n (t :: us) log = .ok body after ↔
      ∃ s mid between more, Tracks (statement n (t :: us)) log s mid between ∧
        allStatements n mid between = .ok more after ∧ s :: more = body := by
  rw [allStatements, read_bind_eq_ok]
  constructor
  · intro h
    rcases h with ⟨s, mid, between, hs, h⟩
    obtain ⟨more, last, hmore, h⟩ := bind_eq_ok.mp h
    cases h
    exact ⟨s, mid, between, more, hs, hmore, rfl⟩
  · intro h
    rcases h with ⟨s, mid, between, more, hs, hmore, rfl⟩
    exact ⟨s, mid, between, hs, bind_eq_ok.mpr ⟨more, after, hmore, rfl⟩⟩

/-- The induction is on how many tokens are left. -/
theorem allStatements_sound {body : List Stmt} (h : allStatements n ts log = .ok body after) :
    DerivesStatements maxArity n ts body := by
  induction hsize : ts.length using Nat.strongRecOn generalizing ts log body with
  | _ size ih =>
    cases ts with
    | nil =>
      rw [allStatements] at h
      cases h
      exact .nil
    | cons t us =>
      obtain ⟨s, mid, between, more, hs, hmore, rfl⟩ := allStatements_cons.mp h
      have hshort : mid.length < size := by
        have := hs.shorter
        omega
      obtain ⟨vs, hvs, hphrase⟩ := statement_sound n hs
      rw [← hvs]
      exact .cons hphrase (ih mid.length hshort hmore rfl)

theorem allStatements_complete {body : List Stmt} :
    ∀ {ts}, DerivesStatements maxArity n ts body → ∀ log,
      ∃ after, allStatements n ts log = .ok body after := by
  induction body with
  | nil =>
    intro ts h log
    cases h with
    | nil => exact ⟨log, by rw [allStatements]; rfl⟩
  | cons s body ih =>
    intro ts h log
    cases h with
    | @cons _ us vs _ _ hs hmore =>
      have hfollow : nextIs (.keyword .elseWord) vs = false := by
        cases hmore with
        | nil => rfl
        | cons hnext _ => exact hnext.nextIs_eq_false (by simp [Opens]) _
      obtain ⟨between, hfirst⟩ := statement_complete n hs log vs hfollow
      obtain ⟨after, hlast⟩ := ih hmore between
      obtain ⟨t, us, rfl, -⟩ := hs.head
      exact ⟨after, allStatements_cons.mpr ⟨s, vs, between, body, hfirst, hlast, rfl⟩⟩

/-! ## Whole texts -/

theorem program_eq_ok {p : Program} :
    program n ts log = .ok p after ↔
      ∃ ds dynamic division us between body,
        Tracks (staticDivision n ts) log ds (dynamic :: division :: us) between ∧
        dynamic.shape = .keyword .dynamic ∧ division.shape = .keyword .division ∧
        allStatements n us between = .ok body after ∧ ⟨ds, body⟩ = p := by
  simp only [program, read_bind_eq_ok, tracks_tracked, reads_next, reads_expectKeyword]
  constructor
  · rintro ⟨ds, mid, between, hds, dynamic, us, last, ⟨⟨rfl, hdynamic⟩, rfl⟩, division, vs, end_,
      ⟨⟨rfl, hdivision⟩, rfl⟩, h⟩
    obtain ⟨body, last, hbody, h⟩ := bind_eq_ok.mp h
    cases h
    exact ⟨ds, dynamic, division, vs, end_, body, hds, hdynamic, hdivision, hbody, rfl⟩
  · intro h
    rcases h with ⟨ds, dynamic, division, us, between, body, hds, hdynamic, hdivision, hbody, rfl⟩
    exact ⟨ds, _, between, hds, dynamic, _, between, ⟨⟨rfl, hdynamic⟩, rfl⟩, division, us, between,
      ⟨⟨rfl, hdivision⟩, rfl⟩, bind_eq_ok.mpr ⟨body, after, hbody, rfl⟩⟩

/-- The rule of programs reads the tokens before the end of the text. -/
theorem derivesProgram_iff {p : Program} {stop : Token} (log : Array Milestone)
    (hstop : stop.shape = .endOfText) :
    (∃ after, program n ts log = .ok p after) ↔ DerivesProgram maxArity n (ts ++ [stop]) p := by
  constructor
  · intro h
    rcases h with ⟨after, h⟩
    obtain ⟨ds, dynamic, division, us, between, body, hds, hdynamic, hdivision, hbody, rfl⟩ :=
      program_eq_ok.mp h
    obtain ⟨vs, rfl, hvs⟩ := staticDivision_sound hds
    rw [List.append_assoc]
    exact .mk hvs hdynamic hdivision (allStatements_sound hbody) hstop
  · intro h
    -- the derivation has an end of its own, which has to be `stop`
    generalize hws : ts ++ [stop] = ws at h
    cases h with
    | @mk us vs ds body dynamic division _ hds hdynamic hdivision hbody _ =>
      rw [← List.cons_append, ← List.cons_append, ← List.append_assoc] at hws
      obtain ⟨rfl, -⟩ := List.append_inj' hws rfl
      obtain ⟨between, hbetween⟩ : ∃ between, Tracks (staticDivision n (us ++ dynamic :: _)) log ds
          (dynamic :: division :: vs) between :=
        staticDivision_complete hds hdynamic log
      obtain ⟨after, hafter⟩ := allStatements_complete hbody between
      exact ⟨after, program_eq_ok.mpr
        ⟨ds, dynamic, division, vs, between, body, hbetween, hdynamic, hdivision, hafter, rfl⟩⟩

theorem loneExpression_eq_ok {e : Expr} :
    loneExpression n ts = .ok e ↔ Reads (expression n ts) e [] := by
  rw [loneExpression]
  cases hread : expression n ts with
  | error r =>
    constructor
    · intro h
      cases h
    · intro h
      obtain ⟨_, hread⟩ := h
      cases hread
  | ok r =>
    obtain ⟨a, rest, hshort⟩ := r
    cases rest with
    | nil =>
      rw [reads_ok]
      constructor
      · intro h
        cases h
        exact ⟨rfl, rfl⟩
      · intro h
        rcases h with ⟨rfl, -⟩
        rfl
    | cons t us =>
      constructor
      · intro h
        cases h
      · intro h
        obtain ⟨_, hread⟩ := h
        cases hread

/-- The rule of lone expressions reads the tokens before the end of the text. -/
theorem derivesLone_iff {e : Expr} {stop : Token} (hstop : stop.shape = .endOfText) :
    loneExpression n ts = .ok e ↔ DerivesLone n (ts ++ [stop]) e := by
  rw [loneExpression_eq_ok]
  constructor
  · intro h
    obtain ⟨us, rfl, hus⟩ := expression_sound h
    rw [List.append_nil]
    exact .mk hus hstop
  · intro h
    generalize hws : ts ++ [stop] = ws at h
    cases h with
    | @mk us _ _ he _ =>
      obtain ⟨rfl, -⟩ := List.append_inj' hws rfl
      have hend : Ends Category.expression.strength [] := trivial
      have hread := Derives.reads he hend
      rwa [List.append_nil] at hread

end DivisionScript.Grammar

namespace DivisionScript

open Grammar

/-- The last token is the end of the text, and no other one is. -/
def EndsOnce (ts : List Token) : Prop :=
  ∃ body stop, ts = body ++ [stop] ∧ stop.shape = .endOfText ∧
    ∀ t ∈ body, t.shape ≠ .endOfText

theorem terminated_eq_ok {body : List Token} {stop : Token} (hstop : stop.shape = .endOfText)
    (hbody : ∀ t ∈ body, t.shape ≠ .endOfText) :
    terminated (body ++ [stop]) = .ok (body, stop) := by
  have htake : (body ++ [stop]).takeWhile (fun t => decide (t.shape ≠ .endOfText)) = body := by
    rw [List.takeWhile_append_of_pos (by simpa using hbody)]
    simp [hstop]
  have hfind : (body ++ [stop]).find? (fun t => decide (t.shape = .endOfText)) = some stop := by
    rw [List.find?_append, List.find?_eq_none.mpr (by simpa using hbody)]
    simp [hstop]
  rw [terminated, List.getLast?_concat]
  show (if stop.shape = .endOfText then _ else _) = _
  rw [if_pos hstop, htake, hfind, Option.getD_some]

/-- The program of a list that ends once is what the rule of programs makes of the tokens before its
end. -/
theorem ofTokens_eq_ok {body : List Token} {stop : Token} {p : Program}
    (hstop : stop.shape = .endOfText) (hbody : ∀ t ∈ body, t.shape ≠ .endOfText) :
    (Program.ofTokens (body ++ [stop])).1 = .ok p ↔
      ∃ trail, program maxNesting body #[] = .ok p trail := by
  rw [Program.ofTokens, terminated_eq_ok hstop hbody]
  dsimp only
  cases program maxNesting body #[] with
  | ok q trail => simp
  | error r trail => simp

/-- The same of lone expressions. -/
theorem exprOfTokens_eq_ok {body : List Token} {stop : Token} {e : Expr}
    (hstop : stop.shape = .endOfText) (hbody : ∀ t ∈ body, t.shape ≠ .endOfText) :
    Expr.ofTokens (body ++ [stop]) = .ok e ↔ loneExpression maxNesting body = .ok e := by
  rw [Expr.ofTokens, terminated_eq_ok hstop hbody]
  dsimp only
  cases loneExpression maxNesting body with
  | ok q =>
    constructor
    · intro h
      cases h
      rfl
    · intro h
      cases h
      rfl
  | error r =>
    constructor
    · intro h
      cases h
    · intro h
      cases h

/-- A list of tokens that ends once spells the program that the grammar derives from it. -/
theorem ofTokens_iff_derives {ts : List Token} {p : Program} (h : EndsOnce ts) :
    (Program.ofTokens ts).1 = .ok p ↔ DerivesProgram maxArity maxNesting ts p := by
  obtain ⟨body, stop, rfl, hstop, hbody⟩ := h
  exact (ofTokens_eq_ok hstop hbody).trans (derivesProgram_iff #[] hstop)

/-- A list of tokens that ends once spells exactly the program, and exactly the lone expression,
that the grammar derives from it with at most 255 parameters or arguments and never more than 1024
rules open. -/
theorem spells_iff_derives {ts : List Token} (h : EndsOnce ts) :
    (∀ p, (Program.ofTokens ts).1 = .ok p ↔ DerivesProgram 255 1024 ts p) ∧
      ∀ e, Expr.ofTokens ts = .ok e ↔ DerivesLone 1024 ts e := by
  refine ⟨fun p => ofTokens_iff_derives h, fun e => ?_⟩
  obtain ⟨body, stop, rfl, hstop, hbody⟩ := h
  exact (exprOfTokens_eq_ok hstop hbody).trans (derivesLone_iff hstop)

/-- In `-a ^ b` the minus sign belongs to the base. -/
theorem spells_negated_power :
    (Program.ofTokens
      [⟨.keyword .dynamic, "dynamic", 1⟩, ⟨.keyword .division, "division", 1⟩,
        ⟨.keyword .print, "print", 2⟩, ⟨.symbol .minus, "-", 2⟩, ⟨.identifier, "a", 2⟩,
        ⟨.symbol .caret, "^", 2⟩, ⟨.identifier, "b", 2⟩, ⟨.symbol .semicolon, ";", 2⟩,
        ⟨.endOfText, "", 2⟩]).1 =
      .ok ⟨[], [.print 2 (.power (.negate (.identifier "a")) (.identifier "b"))]⟩ := by
  refine ((spells_iff_derives ?_).1 _).mpr ?_
  · exact ⟨[_, _, _, _, _, _, _, _], _, rfl, rfl, by decide⟩
  · have hbase : Derives .unary 1022 [⟨.symbol .minus, "-", 2⟩, ⟨.identifier, "a", 2⟩]
        (.negate (.identifier "a")) :=
      .negate rfl (.operand (.unaryOne (.identifier rfl)))
    have hexponent : Derives .exponent 1022 [⟨.identifier, "b", 2⟩] (.identifier "b") :=
      .exponent (.powerOne (.unaryOne (.identifier rfl)))
    have hpower := Derives.power (t := ⟨.symbol .caret, "^", 2⟩) hbase rfl hexponent
    have hvalue : Derives .expression 1023 _ _ :=
      .of_sum (.sumOne (.termOne hpower))
    have hprint : DerivesStatement 255 1024
        (⟨.keyword .print, "print", 2⟩ :: (_ ++ [⟨.symbol .semicolon, ";", 2⟩])) _ :=
      .print rfl hvalue rfl
    have hprogram : DerivesProgram 255 1024
        ([] ++ ⟨.keyword .dynamic, "dynamic", 1⟩ :: ⟨.keyword .division, "division", 1⟩ ::
          (_ ++ [⟨.endOfText, "", 2⟩])) _ :=
      .mk .absent rfl rfl (.cons hprint .nil) rfl
    exact hprogram

end DivisionScript
