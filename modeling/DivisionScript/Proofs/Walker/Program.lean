import DivisionScript.Proofs.Walker.Statement

/-!
# Walker — Program

Declarations, whole programs and lone expressions as walks, and what a walk does over any list of
tokens. A list that does not end is refused before anything is read. Otherwise every rule ends,
wherever before the first end of the text it starts: it looks at no token outside the list, comes to
stand not behind that end, and has read something where it succeeds. What follows the first end does
not matter.
-/

namespace DivisionScript

open Grammar

namespace Walker

section follows

variable {stream : TokenStream} {depth : Nat}

theorem follows_metadata (keyword : String) (make : String → Decl) (ts : List Token) :
    Follows stream depth ts (fun _ => metadata stream.tokens keyword make)
      (tracked (Grammar.metadata keyword make ts)) := by
  refine .read (follows_stringLiteral _) fun text _ _ => ?_
  exact .read (.next (follows_consume _ _)) fun _ _ _ => .done rfl

theorem follows_constant (line : Nat) (ts : List Token) :
    Follows stream depth ts (fun rules => constant stream.tokens rules line)
      (tracked (Grammar.constant (maxNesting - depth) line ts)) := by
  refine .identifier (follows_consume _ _) fun name _ _ => ?_
  refine .read (.next (follows_consume _ _)) fun equals _ _ => ?_
  refine .read (.next (follows_expression _)) fun value _ _ => ?_
  exact .read (.next (follows_consume _ _)) fun _ _ _ => .done rfl

theorem follows_declaration (ts : List Token) :
    Follows stream depth ts (declaration stream.tokens)
      (Grammar.declaration (maxNesting - depth) ts) := by
  refine .reach (.peek ?_)
  refine .accept (fun t rest _ hts ht => ?_) fun hprogram => ?_
  · subst hts
    rw [openedDeclaration, ht]
    exact (follows_metadata _ _ _).tracked_map fun _ => ⟨rfl, rfl⟩
  refine .accept (fun t rest _ hts ht => ?_) fun hauthor => ?_
  · subst hts
    rw [openedDeclaration, ht]
    exact (follows_metadata _ _ _).tracked_map fun _ => ⟨rfl, rfl⟩
  refine .accept (fun t rest _ hts ht => ?_) fun hdate => ?_
  · subst hts
    rw [openedDeclaration, ht]
    exact (follows_metadata _ _ _).tracked_map fun _ => ⟨rfl, rfl⟩
  refine .accept (fun t rest _ hts ht => ?_) fun hconst => ?_
  · subst hts
    rw [openedDeclaration, ht]
    exact (follows_constant _ _).tracked_map fun _ => ⟨rfl, rfl⟩
  cases ts with
  | nil => exact follows_refuseAt rfl
  | cons t rest =>
    rw [openedDeclaration]
    rw [nextIs_cons_false] at hprogram hauthor hdate hconst
    split
    all_goals first | contradiction | exact follows_refuseAt rfl

theorem follows_declarations (ts : List Token) :
    Follows stream depth ts Rules.declarations
      (Grammar.declarations (maxNesting - depth) ts) := by
  refine follows_repeated (fun _ => rfl) follows_declaration ?_ ?_ (Nat.le_refl _)
  · rw [Grammar.declarations]
  · intro t rest
    rw [Grammar.declarations]

theorem follows_staticDivision (ts : List Token) :
    Follows stream depth ts (staticDivision stream.tokens)
      (Grammar.staticDivision (maxNesting - depth) ts) := by
  refine .accept (fun t rest _ hts ht => ?_) fun hno => ?_
  · subst hts
    rw [Grammar.staticDivision, if_pos ht]
    refine .bind (follows_consume _ _) fun word => ?_
    rw [bind_pure_comp]
    exact .map (.trackedNextOptional (follows_declarations _)) fun _ => ⟨rfl, rfl⟩
  · have hnone : Grammar.staticDivision (maxNesting - depth) ts = pure (.nothing [] ts) := by
      cases ts with
      | nil => rfl
      | cons t rest => exact if_neg (nextIs_cons_false.mp hno)
    rw [hnone]
    exact .done rfl

/-! ## Whole texts -/

/-- A computation after which no token is left. -/
def whole {α : Type} (x : Tracked α) : Tracked (Read α 1) :=
  (fun a => ⟨a, [], Nat.one_pos⟩) <$> x

variable {α β : Type}

theorem whole_bind (x : Tracked α) (f : α → Tracked β) :
    whole (x >>= f) = x >>= fun a => whole (f a) :=
  map_bind ..

theorem tracked_bind (x : Except Rejection α) (f : α → Except Rejection β) :
    tracked (x >>= f) = tracked x >>= fun a => tracked (f a) := by
  cases x <;> rfl

theorem whole_pure (x : Tracked α) (f : α → β) :
    whole (x >>= fun a => pure (f a)) =
      whole x >>= fun r => pure (r.give (f r.value)) := by
  simp only [whole, bind_pure_comp, Functor.map_map]
  rfl

theorem follows_allStatements {ts : List Token} {size : Nat} (hsize : ts.length ≤ size) :
    Follows stream depth ts Rules.allStatements
      (whole (Grammar.allStatements (maxNesting - depth) ts)) := by
  induction size generalizing ts with
  | zero =>
    rw [List.eq_nil_of_length_eq_zero (Nat.le_zero.mp hsize), Grammar.allStatements]
    exact .unfold (fun _ => rfl) (.move moves_atEnd (List.suffix_refl _) (.done rfl))
  | succ size ih =>
    refine .unfold (fun _ => rfl) (.move moves_atEnd (List.suffix_refl _) ?_)
    cases ts with
    | nil =>
      rw [Grammar.allStatements]
      exact .done rfl
    | cons t rest =>
      rw [Grammar.allStatements, whole_bind]
      refine .bind (follows_statement rfl _) fun first => ?_
      have hfirst : first.rest.length ≤ size :=
        Nat.le_of_lt_succ (Nat.lt_of_lt_of_le first.shorter hsize)
      rw [whole_pure]
      exact .bind (ih hfirst) fun _ => .done rfl

theorem follows_program (ts : List Token) :
    Follows stream depth ts (program stream.tokens)
      (whole (Grammar.program (maxNesting - depth) ts)) := by
  rw [Grammar.program, whole_bind]
  refine .bind (follows_staticDivision _) fun decls => ?_
  rw [whole_bind]
  refine .bind (.next (follows_consume _ _)) fun dynamicWord => ?_
  rw [whole_bind]
  refine .bind (.next (follows_consume _ _)) fun divisionWord => ?_
  rw [whole_pure]
  exact .bind (follows_allStatements (Nat.le_refl _)) fun _ => .done rfl

theorem follows_loneExpression (ts : List Token) :
    Follows stream depth ts (loneExpression stream.tokens)
      (whole (tracked (Grammar.loneExpression (maxNesting - depth) ts))) := by
  rw [Grammar.loneExpression, tracked_bind, whole_bind]
  refine .bind (follows_expression _) fun e => ?_
  obtain ⟨e, ts, _⟩ := e
  refine .move moves_atEnd (List.suffix_refl _) ?_
  cases ts with
  | nil => exact .done rfl
  | cons t rest => exact follows_refuse rfl

end follows

/-! ## Safety -/

/-- The rules of the parser. -/
inductive Nonterminal where
  | declaration
  | metadata (keyword : String) (make : String → Decl)
  | statement
  | simpleStatement
  | assignment (line : Nat)
  | inputStatement (line : Nat)
  | ifStatement (line : Nat)
  | loopStatement (line : Nat)
  | randStatement (line : Nat)
  | function (line : Nat)
  | callStatement (line : Nat)
  | block (place : String)
  | expression
  | disjunction
  | conjunction
  | comparison
  | sum
  | term
  | power
  | unary
  | primary

namespace Nonterminal

/-- What a rule yields. -/
def Value : Nonterminal → Type
  | declaration | metadata .. => Decl
  | statement | simpleStatement | assignment _ | inputStatement _ | ifStatement _ | loopStatement _
  | randStatement _ | function _ | callStatement _ => Stmt
  | block _ => List Stmt
  | expression | disjunction | conjunction | comparison | sum | term | power | unary | primary =>
    Expr

/-- A rule as a walk. -/
def walk (tokens : List Token) (rules : Rules) : (n : Nonterminal) → Attempt n.Value
  | declaration => Walker.declaration tokens rules
  | metadata keyword make => Walker.metadata tokens keyword make
  | statement => Walker.statement tokens rules
  | simpleStatement => Walker.simpleStatement tokens rules
  | assignment line => Walker.assignment tokens rules line
  | inputStatement line => Walker.inputStatement tokens line
  | ifStatement line => Walker.ifStatement tokens rules line
  | loopStatement line => Walker.loopStatement tokens rules line
  | randStatement line => Walker.randStatement tokens rules line
  | function line => Walker.function tokens rules line
  | callStatement line => Walker.callStatement tokens rules line
  | block place => Walker.block tokens rules place
  | expression => Walker.expression tokens rules
  | disjunction => Walker.disjunction tokens rules
  | conjunction => Walker.conjunction tokens rules
  | comparison => Walker.comparison tokens rules
  | sum => Walker.sum tokens rules
  | term => Walker.term tokens rules
  | power => Walker.power tokens rules
  | unary => Walker.unary tokens rules
  | primary => Walker.primary tokens rules

/-- The rule of the grammar, with so many levels left. -/
def rule (levels : Nat) : (n : Nonterminal) → TrackedRule n.Value
  | declaration => Grammar.declaration levels
  | metadata keyword make => fun ts => tracked (Grammar.metadata keyword make ts)
  | statement => Grammar.statement levels
  | simpleStatement => openedStatement levels (Grammar.statement levels)
  | assignment line => fun ts => tracked (Grammar.assignment levels line ts)
  | inputStatement line => fun ts => tracked (Grammar.inputStatement line ts)
  | ifStatement line => Grammar.ifStatement levels line (Grammar.statement levels)
  | loopStatement line => Grammar.loopStatement levels line (Grammar.statement levels)
  | randStatement line => fun ts => tracked (Grammar.randStatement levels line ts)
  | function line => Grammar.defineStatement line (Grammar.statement levels)
  | callStatement line => fun ts => tracked (Grammar.callStatement levels line ts)
  | block place => Grammar.block (Grammar.statement levels) place
  | expression => fun ts => tracked (Grammar.expression levels ts)
  | disjunction => fun ts => tracked (Grammar.disjunction (Grammar.expression levels)
      (Grammar.exponent levels) (Grammar.operand levels) ts)
  | conjunction => fun ts => tracked (Grammar.conjunction (Grammar.expression levels)
      (Grammar.exponent levels) (Grammar.operand levels) ts)
  | comparison => fun ts => tracked (Grammar.comparison (Grammar.expression levels)
      (Grammar.exponent levels) (Grammar.operand levels) ts)
  | sum => fun ts => tracked (Grammar.sum (Grammar.expression levels)
      (Grammar.exponent levels) (Grammar.operand levels) ts)
  | term => fun ts => tracked (Grammar.term (Grammar.expression levels)
      (Grammar.exponent levels) (Grammar.operand levels) ts)
  | power => fun ts => tracked (Grammar.power (Grammar.expression levels)
      (Grammar.exponent levels) (Grammar.operand levels) ts)
  | unary => fun ts => tracked (Grammar.unary (Grammar.expression levels)
      (Grammar.operand levels) ts)
  | primary => fun ts => tracked (Grammar.primary (Grammar.expression levels) ts)

theorem follows (n : Nonterminal) (stream : TokenStream) (depth : Nat) (ts : List Token) :
    Follows stream depth ts (fun rules => n.walk stream.tokens rules)
      (n.rule (maxNesting - depth) ts) := by
  obtain ⟨hexpression, hexponent, hoperand⟩ : FollowsLevels stream depth (maxNesting - depth) :=
    followsLevels rfl
  have hstatement (ts : List Token) : Follows stream depth ts Rules.statement
      (Grammar.statement (maxNesting - depth) ts) := follows_statement rfl ts
  cases n with
  | declaration => exact follows_declaration ts
  | metadata keyword make => exact follows_metadata keyword make ts
  | statement => exact .fold (fun _ => rfl) (hstatement ts)
  | simpleStatement => exact follows_simpleStatement hstatement ts
  | assignment line => exact follows_assignment line ts
  | inputStatement line => exact follows_inputStatement line ts
  | ifStatement line => exact follows_ifStatement hstatement line ts
  | loopStatement line => exact follows_loopStatement hstatement line ts
  | randStatement line => exact follows_randStatement line ts
  | function line => exact follows_function hstatement line ts
  | callStatement line => exact follows_callStatement line ts
  | block place => exact follows_block hstatement place ts
  | expression => exact .fold (fun _ => rfl) (hexpression ts)
  | disjunction => exact follows_disjunction hexpression hexponent hoperand ts
  | conjunction => exact follows_conjunction hexpression hexponent hoperand ts
  | comparison => exact follows_comparison hexpression hexponent hoperand ts
  | sum => exact follows_sum hexpression hexponent hoperand ts
  | term => exact follows_term hexpression hexponent hoperand ts
  | power => exact follows_power hexpression hexponent hoperand ts
  | unary => exact follows_unary hexpression hoperand ts
  | primary => exact follows_primary hexpression ts

end Nonterminal

/-- Over the tokens and over the cut a walk ends alike: with the same result and in the same place,
which is not before the one it starts from and not behind the first end of the text, and with as
many rules open as before. -/
structure Within {α : Type} (eof : Nat) (tokens cut : List Token)
    (walk : List Token → Rules → Attempt α) (s : Walker) (result : Except SyntaxError α)
    (s' : Walker) : Prop where
  ends : Ends tokens (walk tokens) s result s'
  ends_cut : Ends cut (walk cut) s result s'
  current_le : s.current ≤ s'.current
  le_eof : s'.current ≤ eof
  depth_eq : s'.depth = s.depth

section safety

variable {α : Type} {bound : Nat} {stream : TokenStream} {s : Walker} {x : Tracked (Read α bound)}

theorem before_drop (hs : s.current ≤ stream.body.length) :
    stream.before (stream.body.drop s.current) s.depth = s := by
  rw [TokenStream.before, List.length_drop, Nat.sub_sub_self hs]

theorem Follows.within (walk : List Token → Rules → Attempt α)
    (hs : s.current ≤ stream.body.length)
    (h : Follows stream s.depth (stream.body.drop s.current) (walk stream.tokens) x)
    (hcut : Follows stream.cut s.depth (stream.body.drop s.current) (walk stream.cut.tokens) x)
    (log : Array Milestone) :
    Within stream.body.length stream.tokens stream.cut.tokens walk s
      (verdict stream.stop (x log)).1
      (stream.before (verdict stream.stop (x log)).2 s.depth) := by
  obtain ⟨hrest, hends⟩ := h (List.drop_suffix ..) log
  obtain ⟨-, hends_cut⟩ := hcut (List.drop_suffix ..) log
  have hbefore : stream.cut.before (stream.body.drop s.current) s.depth = s := before_drop hs
  rw [before_drop hs] at hends
  rw [hbefore] at hends_cut
  have hlength := hrest.length_le
  rw [List.length_drop] at hlength
  have hcurrent : s.current ≤ stream.body.length -
      (verdict stream.stop (x log)).2.length := by omega
  exact ⟨hends, hends_cut, hcurrent, Nat.sub_le .., rfl⟩

/-- What reads at least one token goes on. -/
theorem current_lt_of_ok {rule : TrackedRule α} {a : α} {log : Array Milestone}
    (hs : s.current ≤ stream.body.length)
    (h : (verdict stream.stop (rule (stream.body.drop s.current) log)).1 = .ok a) :
    s.current < (stream.before
      (verdict stream.stop (rule (stream.body.drop s.current) log)).2 s.depth).current := by
  cases hrule : rule (stream.body.drop s.current) log with
  | error r after =>
    rw [hrule] at h
    cases h
  | ok r after =>
    have hshorter : r.rest.length < stream.body.length - s.current :=
      Nat.lt_of_lt_of_eq r.shorter List.length_drop
    show s.current < stream.body.length - r.rest.length
    omega

theorem terminated_tokens (h : stream.tokens.getLast?.map Token.shape = some .endOfText) :
    terminated stream.tokens = .ok (stream.body, stream.stop) := by
  obtain ⟨last, hlast, hshape⟩ := Option.map_eq_some_iff.mp h
  rw [terminated, hlast]
  dsimp only
  rw [if_pos hshape, TokenStream.takeWhile_tokens, TokenStream.find?_tokens, Option.getD_some]

/-- Nothing is read to find out whether a list ends. -/
theorem ends_ensureTerminated (tokens : List Token) (s : Walker) :
    Ends tokens (fun _ => ensureTerminated tokens) s ((terminated tokens).map fun _ => ()) s := by
  rw [ensureTerminated, terminated]
  cases tokens.getLast? with
  | none => exact .throw ..
  | some last =>
    dsimp only
    split
    · exact .pure ..
    · exact .throw ..

/-- A list that ends is read as if it had not been looked at. -/
theorem Follows.terminated {rest : Rules → Attempt α} {depth : Nat} {ts : List Token}
    (hlast : stream.tokens.getLast?.map Token.shape = some .endOfText)
    (h : Follows stream depth ts rest x) :
    Follows stream depth ts (fun rules => do ensureTerminated stream.tokens; rest rules) x := by
  intro hts log
  obtain ⟨hrest, hends⟩ := h hts log
  have hensure := ends_ensureTerminated stream.tokens (stream.before ts depth)
  rw [terminated_tokens hlast] at hensure
  exact ⟨hrest, hensure.ok hends⟩

/-- Any other list is refused at once. -/
theorem Ends.openStream {rest : Rules → Attempt α} {tokens : List Token} {e : SyntaxError}
    (h : Grammar.terminated tokens = .error e) (s : Walker) :
    Ends tokens (fun rules => do ensureTerminated tokens; rest rules) s (.error e) s := by
  have hensure := ends_ensureTerminated tokens s
  rw [h] at hensure
  exact hensure.error

theorem terminated_open {tokens : List Token}
    (h : tokens.getLast?.map Token.shape ≠ some .endOfText) :
    ∃ e, Grammar.terminated tokens = .error e := by
  rw [Grammar.terminated]
  cases hlast : tokens.getLast? with
  | none => exact ⟨_, rfl⟩
  | some last =>
    rw [hlast, Option.map_some, ne_eq, Option.some.injEq] at h
    dsimp only
    rw [if_neg h]
    exact ⟨_, rfl⟩

theorem last_cut : stream.cut.tokens.getLast?.map Token.shape = some .endOfText := by
  rw [TokenStream.tokens, TokenStream.cut, List.getLast?_append, List.getLast?_singleton,
    Option.some_or, Option.map_some, stream.shape_stop]

theorem ofTokens_eq (hlast : stream.tokens.getLast?.map Token.shape = some .endOfText) :
    (Program.ofTokens stream.tokens).1 =
      (verdict stream.stop (whole (Grammar.program maxNesting stream.body) #[])).1 := by
  rw [Program.ofTokens, terminated_tokens hlast]
  show _ = (verdict stream.stop (EStateM.map _ _ _)).1
  dsimp only
  rw [EStateM.map]
  cases Grammar.program maxNesting stream.body #[] <;> rfl

theorem exprOfTokens_eq (hlast : stream.tokens.getLast?.map Token.shape = some .endOfText) :
    Expr.ofTokens stream.tokens = (verdict stream.stop
      (whole (tracked (Grammar.loneExpression maxNesting stream.body)) #[])).1 := by
  rw [Expr.ofTokens, terminated_tokens hlast]
  dsimp only
  cases Grammar.loneExpression maxNesting stream.body <;> rfl

end safety

/-- Over any list of tokens the parser ends and looks at no token outside the list. Where the last
token is not the end of the text, the list is refused and the walker does not move. Elsewhere the
walk to the list's own first end gives the same: a program, an expression and every single rule end
there alike, with as many rules open as before, not before the place where they started and not
behind that end, and a rule that succeeds has gone on. What is read from the start on is what the
grammar says of the list. -/
theorem walk_ends_within_stream (tokens : List Token) :
    (tokens.getLast?.map Token.shape ≠ some .endOfText →
      ∃ e, (Program.ofTokens tokens).1 = .error e ∧ Expr.ofTokens tokens = .error e ∧
        ∀ s, Ends tokens (parse tokens) s (.error e) s ∧
          Ends tokens (parseExpression tokens) s (.error e) s) ∧
    (tokens.getLast?.map Token.shape = some .endOfText →
      let eof := tokens.findIdx (·.shape = .endOfText)
      let cut := tokens.take (eof + 1)
      ∀ s : Walker, s.current ≤ eof →
        (∃ result s', Within eof tokens cut parse s result s' ∧
          (s = first → result = (Program.ofTokens tokens).1)) ∧
        (∃ result s', Within eof tokens cut parseExpression s result s' ∧
          (s = first → result = Expr.ofTokens tokens)) ∧
        ∀ n : Nonterminal, ∃ result s',
          Within eof tokens cut (fun ts rules => n.walk ts rules) s result s' ∧
            ∀ a, result = .ok a → s.current < s'.current) := by
  constructor
  · intro hlast
    obtain ⟨e, he⟩ := terminated_open hlast
    refine ⟨e, ?_, ?_, fun s => ⟨.openStream he s, .openStream he s⟩⟩
    · rw [Program.ofTokens, he]
    · rw [Expr.ofTokens, he]
  · intro hlast
    obtain ⟨stream, rfl⟩ : ∃ stream : TokenStream, stream.tokens = tokens := by
      obtain ⟨t, ht, hshape⟩ := Option.map_eq_some_iff.mp hlast
      exact TokenStream.exists_of_mem (List.mem_of_getLast? ht) hshape
    dsimp only
    rw [TokenStream.findIdx_tokens, TokenStream.take_tokens]
    intro s hs
    refine ⟨?_, ?_, fun n => ?_⟩
    · have hwithin := Follows.within parse hs (.terminated hlast (follows_program _))
        (.terminated last_cut (follows_program _)) #[]
      refine ⟨_, _, hwithin, ?_⟩
      rintro rfl
      exact (ofTokens_eq hlast).symm
    · have hwithin := Follows.within parseExpression hs
        (.terminated hlast (follows_loneExpression _))
        (.terminated last_cut (follows_loneExpression _)) #[]
      refine ⟨_, _, hwithin, ?_⟩
      rintro rfl
      exact (exprOfTokens_eq hlast).symm
    · have hwithin := Follows.within (fun ts rules => n.walk ts rules) hs
        (n.follows stream s.depth _) (n.follows stream.cut s.depth _) #[]
      exact ⟨_, _, hwithin, fun a => current_lt_of_ok hs⟩

/-- A list that goes on after its first end. -/
theorem walk_stops_at_first_end :
    let x : Token := ⟨.identifier, "x", 1⟩
    let stop : Token := ⟨.endOfText, "", 1⟩
    let paren : Token := ⟨.symbol .rightParen, ")", 1⟩
    let tokens := [x, stop, paren, stop]
    ∃ s, Ends tokens (parseExpression tokens) first (.ok (.identifier "x")) s ∧
      s.current ≤ 1 := by
  intro x stop paren tokens
  obtain ⟨-, ⟨result, s, hwithin, hresult⟩, -⟩ :=
    (walk_ends_within_stream tokens).2 rfl first (Nat.zero_le _)
  have hread : Grammar.expression (1023 + 1) [x] = .ok ⟨.identifier "x", [], by decide⟩ := by
    rw [Grammar.expression]
    simp [Grammar.disjunction, Grammar.conjunction, Grammar.comparison, Grammar.sum, Grammar.term,
      Grammar.power, Grammar.unary, Grammar.primary, chain, Grammar.chainFrom, x, Token.shape,
      TokenKind.shape, Read.accept?, Read.nextOptional, Read.one, Read.nothing, Read.afterOptional,
      bind, Except.bind, Functor.map, Except.map]
  have hx : Expr.ofTokens tokens = .ok (.identifier "x") := by
    show (Grammar.loneExpression (1023 + 1) [x]).mapError _ = _
    rw [Grammar.loneExpression, hread]
    rfl
  rw [hresult rfl, hx] at hwithin
  exact ⟨s, hwithin.ends, hwithin.le_eof⟩

end Walker

end DivisionScript
