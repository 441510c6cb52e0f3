import DivisionScript.Proofs.Grammar.StatementRules

/-!
# Grammar — Statement, proved

The rules of statements read exactly the statements of the grammar. Both directions go by the
number of levels: what stands inside a statement has one level less. A statement may be followed
by anything but `else`.
-/

namespace DivisionScript.Grammar

/-! ## Soundness -/

/-- Whatever a rule with milestones reads is a phrase. -/
def TrackedSound {α : Type} (rule : TrackedRule α) (phrase : List Token → α → Prop) : Prop :=
  ∀ ⦃ts log a rest after⦄, Tracks (rule ts) log a rest after → ∃ us, us ++ rest = ts ∧ phrase us a

section sound

variable {n line : Nat} {s : Stmt} {t : Token} {ts rest : List Token}
variable {inner : TrackedRule Stmt} {log after : Array Milestone}

theorem expression_sound {e : Expr} (h : Reads (expression n ts) e rest) :
    ∃ us, us ++ rest = ts ∧ Derives .expression n us e :=
  rule_sound n .expression h

theorem identifier_sound {shown : String} :
    Sound (expect .identifier shown) Identifier := by
  intro ts t rest h
  obtain ⟨rfl, ht⟩ := reads_expect.mp h
  exact ⟨[t], rfl, .mk ht⟩

theorem prompt_sound {shown : String} (h : Reads (prompt ts) shown rest) :
    ∃ us, us ++ rest = ts ∧ DerivesPrompt us shown := by
  rcases reads_prompt.mp h with ⟨t, rfl, ht⟩ | ⟨-, rfl, rfl⟩
  · exact ⟨[t], rfl, .present ht⟩
  · exact ⟨[], rfl, .absent⟩

theorem typeTag_sound {tag : Option TypeTag} (h : Reads (typeTag ts) tag rest) :
    ∃ us, us ++ rest = ts ∧ DerivesTag us tag := by
  by_cases has : nextIs (.keyword .as) ts = true
  · cases ts with
    | nil => cases has
    | cons word ts =>
      have hword : word.shape = .keyword .as := by simpa [nextIs] using has
      obtain ⟨kind, known, rfl, hkind, rfl⟩ := reads_tagName.mp ((reads_typeTag_present hword).mp h)
      exact ⟨[word, kind], rfl, .present known hword hkind⟩
  · obtain ⟨rfl, rfl⟩ := (reads_typeTag_absent (by simpa using has)).mp h
    exact ⟨[], rfl, .absent⟩

variable (hinner : TrackedSound inner (DerivesStatement maxArity n))
include hinner

/-- The induction is on how many tokens are left. -/
theorem statements_sound {body : List Stmt} (h : Tracks (statements inner ts) log body rest after) :
    ∃ us, us ++ rest = ts ∧ DerivesStatements maxArity n us body := by
  induction hsize : ts.length using Nat.strongRecOn generalizing ts log body with
  | _ size ih =>
    by_cases hclosed : Closed ts
    · obtain ⟨rfl, rfl, -⟩ := (tracks_statements_closed hclosed).mp h
      exact ⟨[], rfl, .nil⟩
    · cases ts with
      | nil => exact absurd trivial hclosed
      | cons t us =>
        obtain ⟨s, mid, between, more, hs, hmore, rfl⟩ := (tracks_statements_cons hclosed).mp h
        have hshort : mid.length < size := by
          have := hs.shorter
          omega
        obtain ⟨vs, hvs, hphrase⟩ := hinner hs
        obtain ⟨ws, rfl, hws⟩ := ih mid.length hshort hmore rfl
        exact ⟨vs ++ ws, by simpa using hvs, .cons hphrase hws⟩

theorem block_sound {place : String} :
    TrackedSound (block inner place) (DerivesBlock maxArity n) := by
  intro ts log body rest after h
  obtain ⟨opening, mid, closing, rfl, hopening, hbody, hclosing⟩ := tracks_block.mp h
  obtain ⟨us, rfl, hus⟩ := statements_sound hinner hbody
  exact ⟨opening :: (us ++ [closing]), by simp, .mk hopening hus hclosing⟩

theorem elseBranch_sound {other : List Stmt}
    (h : Tracks (elseBranch inner ts) log other rest after) :
    ∃ us, us ++ rest = ts ∧ DerivesElse maxArity n us other := by
  by_cases helse : nextIs (.keyword .elseWord) ts = true
  · cases ts with
    | nil => cases helse
    | cons word ts =>
      have hword : word.shape = .keyword .elseWord := by simpa [nextIs] using helse
      rcases (tracks_elseBranch_present hword).mp h with ⟨hif, s, hs, rfl⟩ | ⟨-, hbody⟩
      -- the rule reads any statement here, but one that starts with `if` is a conditional
      · obtain ⟨us, rfl, hus⟩ := hinner hs
        obtain ⟨m, rfl, hbranch⟩ := hus.conditional hif
        exact ⟨word :: us, rfl, .chained hword hbranch⟩
      · obtain ⟨us, rfl, hus⟩ := block_sound hinner hbody
        exact ⟨word :: us, rfl, .block hword hus⟩
  · obtain ⟨rfl, rfl, -⟩ := (tracks_elseBranch_absent (by simpa using helse)).mp h
    exact ⟨[], rfl, .absent⟩

theorem openedStatement_sound :
    TrackedSound (openedStatement n inner) (DerivesStatement maxArity (n + 1)) := by
  intro ts log s rest after h
  cases ts with
  | nil => exact absurd h not_tracks_throw
  | cons t us =>
    rw [openedStatement, tracks_reach] at h
    split at h
    · next ht =>
      obtain ⟨hread, -⟩ := tracks_tracked.mp (tracks_behind.mp h)
      obtain ⟨e, stop, he, hstop, rfl⟩ := reads_printStatement.mp hread
      obtain ⟨vs, rfl, hvs⟩ := expression_sound he
      exact ⟨t :: (vs ++ [stop]), by simp, .print ht hvs hstop⟩
    · next ht =>
      obtain ⟨hread, -⟩ := tracks_tracked.mp (tracks_behind.mp h)
      obtain ⟨name, mid, shown, stop, rfl, hname, hshown, hstop, rfl⟩ :=
        reads_inputStatement.mp hread
      obtain ⟨vs, rfl, hvs⟩ := prompt_sound hshown
      exact ⟨t :: name :: (vs ++ [stop]), by simp, .input ht hname hvs hstop⟩
    · next ht =>
      obtain ⟨e, mid, body, ws, between, other, he, hbody, hother, rfl⟩ :=
        tracks_ifStatement.mp (tracks_behind.mp h)
      obtain ⟨vs, rfl, hvs⟩ := expression_sound he
      obtain ⟨bs, rfl, hbs⟩ := block_sound hinner hbody
      obtain ⟨os, rfl, hos⟩ := elseBranch_sound hinner hother
      exact ⟨t :: (vs ++ (bs ++ os)), by simp, .branch (.mk ht hvs hbs hos)⟩
    · next ht =>
      obtain ⟨name, l, r, mid, body, hheader, hbody, rfl⟩ :=
        tracks_loopStatement.mp (tracks_behind.mp h)
      obtain ⟨word, fromWord, start, l, toWord, stop, r, rfl, hword, hfrom, hl, hto, hr, e⟩ :=
        reads_loopHeader.mp hheader
      cases e
      obtain ⟨vs, rfl, hvs⟩ := expression_sound hl
      obtain ⟨ws, rfl, hws⟩ := expression_sound hr
      obtain ⟨bs, rfl, hbs⟩ := block_sound hinner hbody
      exact ⟨t :: word :: fromWord :: (vs ++ toWord :: (ws ++ bs)), by simp,
        .loop ht hword hfrom hvs hto hws hbs⟩
    · next ht =>
      obtain ⟨hread, -⟩ := tracks_tracked.mp (tracks_behind.mp h)
      obtain ⟨name, fromWord, mid, l, toWord, between, r, stop, rfl, hname, hfrom, hl, hto, hr,
        hstop, rfl⟩ := reads_randStatement.mp hread
      obtain ⟨vs, rfl, hvs⟩ := expression_sound hl
      obtain ⟨ws, rfl, hws⟩ := expression_sound hr
      exact ⟨t :: name :: fromWord :: (vs ++ toWord :: (ws ++ [stop])), by simp,
        .rand ht hname hfrom hvs hto hws hstop⟩
    · next ht =>
      obtain ⟨name, params, result, mid, body, hheader, hbody, rfl⟩ :=
        tracks_defineStatement.mp (tracks_behind.mp h)
      obtain ⟨word, start, named, returns, yielded, rfl, hword, hparams, hreturns, hyielded, e⟩ :=
        reads_functionHeader.mp hheader
      cases e
      obtain ⟨ps, rfl, hps⟩ := parenthesized_sound identifier_sound hparams
      obtain ⟨bs, rfl, hbs⟩ := block_sound hinner hbody
      exact ⟨t :: word :: (ps ++ returns :: yielded :: bs), by simp,
        .define ht hword hps hreturns hyielded hbs⟩
    · next ht =>
      obtain ⟨hread, -⟩ := tracks_tracked.mp (tracks_behind.mp h)
      obtain ⟨name, mid, args, stop, rfl, hname, hargs, hstop, rfl⟩ := reads_callStatement.mp hread
      obtain ⟨vs, rfl, hvs⟩ := parenthesized_sound (rule_sound n .expression) hargs
      exact ⟨t :: name :: (vs ++ [stop]), by simp, .call ht hname hvs hstop⟩
    · next ht =>
      obtain ⟨hread, -⟩ := tracks_tracked.mp h
      obtain ⟨name, equals, mid, e, between, tag, stop, hcons, hname, hequals, he, htag, hstop,
        rfl⟩ := reads_assignment.mp hread
      cases hcons
      obtain ⟨vs, rfl, hvs⟩ := expression_sound he
      obtain ⟨gs, rfl, hgs⟩ := typeTag_sound htag
      exact ⟨t :: equals :: (vs ++ (gs ++ [stop])), by simp, .assign hname hequals hvs hgs hstop⟩
    · exact absurd h not_tracks_throw

omit hinner in
/-- Whatever the rule of statements reads is a statement. -/
theorem statement_sound (n : Nat) : TrackedSound (statement n) (DerivesStatement maxArity n) := by
  induction n with
  | zero => exact fun ts log s rest after h => absurd h not_tracks_throw
  | succ n ih => exact openedStatement_sound ih

end sound

/-! ## Completeness -/

/-- Every phrase is read, where `else` does not follow. -/
def TrackedComplete {α : Type} (rule : TrackedRule α) (phrase : List Token → α → Prop) : Prop :=
  ∀ ⦃us a⦄, phrase us a → ∀ log rest, nextIs (.keyword .elseWord) rest = false →
    ∃ after, Tracks (rule (us ++ rest)) log a rest after

section complete

variable {n line : Nat} {s : Stmt} {t : Token} {us rest : List Token}
variable {inner : TrackedRule Stmt}

/-- An expression is read up to a token that no expression goes on with. -/
theorem Derives.reads_before {e : Expr} {shape : TokenKind.Shape}
    (h : Derives .expression n us e) (ht : t.shape = shape) (hs : binding shape < 1) :
    Reads (Grammar.expression n (us ++ t :: rest)) e (t :: rest) :=
  Derives.reads (c := .expression) h (ends_cons ht hs)

theorem Identifier.reads {shown : String} (h : Identifier us t) :
    Reads (expect .identifier shown (us ++ rest)) t rest := by
  cases h with
  | mk ht => exact reads_expect.mpr ⟨rfl, ht⟩

theorem DerivesPrompt.reads {shown : String} (h : DerivesPrompt us shown)
    (ht : t.shape = .symbol .semicolon) :
    Reads (prompt (us ++ t :: rest)) shown (t :: rest) := by
  cases h with
  | absent =>
    refine reads_prompt.mpr (.inr ⟨?_, rfl, rfl⟩)
    intro u vs text hcons hkind
    cases hcons
    rw [Token.shape, hkind] at ht
    cases ht
  | present hu => exact reads_prompt.mpr (.inl ⟨_, rfl, hu⟩)

theorem DerivesTag.reads {tag : Option TypeTag} (h : DerivesTag us tag)
    (ht : t.shape = .symbol .semicolon) :
    Reads (typeTag (us ++ t :: rest)) tag (t :: rest) := by
  cases h with
  | absent => exact (reads_typeTag_absent (by simp [nextIs, ht])).mpr ⟨rfl, rfl⟩
  | present known hword hkind =>
    exact (reads_typeTag_present hword).mpr (reads_tagName.mpr ⟨_, known, rfl, hkind, rfl⟩)

variable (hinner : TrackedComplete inner (DerivesStatement maxArity n))
include hinner

/-- The induction is on the statements that are read. -/
theorem statements_complete {body : List Stmt} :
    ∀ {us}, DerivesStatements maxArity n us body → ∀ log, Closed rest →
      ∃ after, Tracks (statements inner (us ++ rest)) log body rest after := by
  induction body with
  | nil =>
    intro us h log hrest
    cases h with
    | nil => exact ⟨log, (tracks_statements_closed hrest).mpr ⟨rfl, rfl, rfl⟩⟩
  | cons s body ih =>
    intro us h log hrest
    cases h with
    | @cons _ vs ws _ _ hs hmore =>
      -- what follows is the next statement, or the brace that closes the list
      have hfollow : nextIs (.keyword .elseWord) (ws ++ rest) = false := by
        cases hmore with
        | nil =>
          cases rest with
          | nil => rfl
          | cons t ts =>
            have ht : t.shape = .symbol .rightBrace := hrest
            simp [nextIs, ht]
        | cons hnext _ =>
          rw [List.append_assoc]
          exact hnext.nextIs_eq_false (by simp [Opens]) _
      obtain ⟨between, hfirst⟩ := hinner hs log _ hfollow
      obtain ⟨after, hlast⟩ := ih hmore between hrest
      obtain ⟨t, vs, rfl, ht⟩ := hs.head
      have hopen : t.shape ≠ .symbol .rightBrace := by
        intro h
        rw [h] at ht
        exact ht
      rw [List.append_assoc]
      exact ⟨after, (tracks_statements_cons hopen).mpr ⟨s, _, between, body, hfirst, hlast, rfl⟩⟩

theorem block_complete {place : String} {body : List Stmt} (h : DerivesBlock maxArity n us body)
    (log : Array Milestone) :
    ∃ after, Tracks (block inner place (us ++ rest)) log body rest after := by
  cases h with
  | @mk _ ts _ opening closing hopening hbody hclosing =>
    have hclosed : Closed (closing :: rest) := hclosing
    obtain ⟨after, hafter⟩ := statements_complete hinner hbody log hclosed
    exact ⟨after, tracks_block.mpr ⟨opening, ts ++ closing :: rest, closing, by simp, hopening,
      hafter, hclosing⟩⟩

theorem elseBranch_complete {other : List Stmt} (h : DerivesElse maxArity n us other)
    (log : Array Milestone) (hrest : nextIs (.keyword .elseWord) rest = false) :
    ∃ after, Tracks (elseBranch inner (us ++ rest)) log other rest after := by
  cases h with
  | absent => exact ⟨log, (tracks_elseBranch_absent hrest).mpr ⟨rfl, rfl, rfl⟩⟩
  | block hword hbody =>
    obtain ⟨after, hafter⟩ := block_complete hinner hbody log
    cases hbody with
    | mk hopening _ _ =>
      exact ⟨after, (tracks_elseBranch_present hword).mpr
        (.inr ⟨by simp [nextIs, hopening], hafter⟩)⟩
  | chained hword hif =>
    obtain ⟨after, hafter⟩ := hinner (.branch hif) log rest hrest
    obtain ⟨t, vs, rfl, ht⟩ := hif.head
    exact ⟨after, (tracks_elseBranch_present hword).mpr
      (.inl ⟨by simp [nextIs, ht], _, hafter, rfl⟩)⟩

omit hinner in
theorem assignment_complete {ts us : List Token} {e : Expr} {tag : Option TypeTag}
    {name equals stop : Token} (hname : name.shape = .identifier)
    (hequals : equals.shape = .symbol .equal) (he : Derives .expression n ts e)
    (htag : DerivesTag us tag) (hstop : stop.shape = .symbol .semicolon) :
    Reads (assignment n line (name :: equals :: (ts ++ (us ++ stop :: rest))))
      (.assign line name.lexeme e tag) rest := by
  have hvalue : Reads (expression n (ts ++ (us ++ stop :: rest))) e (us ++ stop :: rest) := by
    cases htag with
    | absent => exact he.reads_before hstop (by decide)
    | present known hword _ => exact he.reads_before hword (by decide)
  exact reads_assignment.mpr ⟨name, equals, _, e, _, tag, stop, rfl, hname, hequals, hvalue,
    htag.reads hstop, hstop, rfl⟩

omit hinner in
theorem randStatement_complete {ts us : List Token} {l r : Expr} {name fromWord toWord stop : Token}
    (hname : name.shape = .identifier) (hfrom : fromWord.shape = .keyword .fromWord)
    (hl : Derives .expression n ts l) (hto : toWord.shape = .keyword .toWord)
    (hr : Derives .expression n us r) (hstop : stop.shape = .symbol .semicolon) :
    Reads (randStatement n line (name :: fromWord :: (ts ++ toWord :: (us ++ stop :: rest))))
      (.rand line name.lexeme l r) rest :=
  reads_randStatement.mpr ⟨name, fromWord, _, l, toWord, _, r, stop, rfl, hname, hfrom,
    hl.reads_before hto (by decide), hto, hr.reads_before hstop (by decide), hstop, rfl⟩

omit hinner in
theorem callStatement_complete {ts : List Token} {args : List Expr} {name stop : Token}
    (hname : name.shape = .identifier)
    (hargs : Parenthesized maxArity (Derives .expression n) ts args)
    (hstop : stop.shape = .symbol .semicolon) :
    Reads (callStatement n line (name :: (ts ++ stop :: rest))) (.call line name.lexeme args)
      rest := by
  have hlist : Reads (arguments n (ts ++ stop :: rest)) args (stop :: rest) := by
    refine hargs.reads ?_ ?_ _
    · exact fun us e h => h.nextIs_rightParen
    · exact fun us e rest h hrest => Derives.reads h hrest
  exact reads_callStatement.mpr ⟨name, _, args, stop, rfl, hname, hlist, hstop, rfl⟩

theorem ifStatement_complete (line : Nat) {ts us vs : List Token} {e : Expr}
    {body other : List Stmt} (he : Derives .expression n ts e)
    (hbody : DerivesBlock maxArity n us body)
    (hother : DerivesElse maxArity n vs other) (log : Array Milestone)
    (hrest : nextIs (.keyword .elseWord) rest = false) :
    ∃ after, Tracks (ifStatement n line inner (ts ++ (us ++ (vs ++ rest)))) log
      (.branch line e body other) rest after := by
  have hcondition : Reads (expression n (ts ++ (us ++ (vs ++ rest)))) e (us ++ (vs ++ rest)) := by
    cases hbody with
    | mk hopening _ _ => exact he.reads_before hopening (by decide)
  obtain ⟨between, hbetween⟩ := block_complete hinner hbody log
  obtain ⟨after, hafter⟩ := elseBranch_complete hinner hother between hrest
  exact ⟨after, tracks_ifStatement.mpr
    ⟨e, _, body, vs ++ rest, between, other, hcondition, hbetween, hafter, rfl⟩⟩

theorem loopStatement_complete (line : Nat) {ts us vs : List Token} {l r : Expr}
    {body : List Stmt} {name fromWord toWord : Token} (hname : name.shape = .identifier)
    (hfrom : fromWord.shape = .keyword .fromWord) (hl : Derives .expression n ts l)
    (hto : toWord.shape = .keyword .toWord) (hr : Derives .expression n us r)
    (hbody : DerivesBlock maxArity n vs body) (log : Array Milestone) (rest : List Token) :
    ∃ after, Tracks (loopStatement n line inner
      (name :: fromWord :: (ts ++ toWord :: (us ++ (vs ++ rest))))) log
      (.loop line name.lexeme l r body) rest after := by
  have hstop : Reads (expression n (us ++ (vs ++ rest))) r (vs ++ rest) := by
    cases hbody with
    | mk hopening _ _ => exact hr.reads_before hopening (by decide)
  have hheader : Reads (loopHeader n (name :: fromWord :: (ts ++ toWord :: (us ++ (vs ++ rest)))))
      (name.lexeme, l, r) (vs ++ rest) :=
    reads_loopHeader.mpr ⟨name, fromWord, _, l, toWord, _, r, rfl, hname, hfrom,
      hl.reads_before hto (by decide), hto, hstop, rfl⟩
  obtain ⟨after, hafter⟩ := block_complete hinner hbody log
  exact ⟨after, tracks_loopStatement.mpr ⟨name.lexeme, l, r, _, body, hheader, hafter, rfl⟩⟩

theorem defineStatement_complete (line : Nat) {ts us params : List Token} {body : List Stmt}
    {name returns result : Token} (hname : name.shape = .identifier)
    (hparams : Parenthesized maxArity Identifier ts params)
    (hreturns : returns.shape = .keyword .returns) (hresult : result.shape = .identifier)
    (hbody : DerivesBlock maxArity n us body) (log : Array Milestone) (rest : List Token) :
    ∃ after, Tracks (defineStatement line inner
      (name :: (ts ++ returns :: result :: (us ++ rest)))) log
      (.define line name.lexeme (params.map Token.lexeme) body result.lexeme) rest after := by
  have hlist : Reads (parameters name.line (ts ++ returns :: result :: (us ++ rest))) params
      (returns :: result :: (us ++ rest)) := by
    refine hparams.reads ?_ ?_ _
    · intro us t h rest
      cases h with
      | mk ht => simp [nextIs, ht]
    · intro us t rest h _
      exact h.reads
  have hheader : Reads (functionHeader (name :: (ts ++ returns :: result :: (us ++ rest))))
      (name.lexeme, params.map Token.lexeme, result.lexeme) (us ++ rest) :=
    reads_functionHeader.mpr
      ⟨name, _, params, returns, result, rfl, hname, hlist, hreturns, hresult, rfl⟩
  obtain ⟨after, hafter⟩ := block_complete hinner hbody log
  exact ⟨after, tracks_defineStatement.mpr ⟨_, _, _, _, body, hheader, hafter, rfl⟩⟩

theorem openedStatement_complete :
    TrackedComplete (openedStatement n inner) (DerivesStatement maxArity (n + 1)) := by
  intro us s h log rest hrest
  -- in each case the tokens are first grouped to the right, then the first one is looked at
  cases h with
  | @assign _ ts us e tag name equals stop hname hequals he htag hstop =>
    have hts : name :: equals :: (ts ++ (us ++ [stop])) ++ rest =
        name :: equals :: (ts ++ (us ++ stop :: rest)) := by simp
    refine ⟨log.push (.statement name.line), ?_⟩
    rw [hts, openedStatement, tracks_reach, hname]
    exact tracks_tracked.mpr ⟨assignment_complete hname hequals he htag hstop, rfl⟩
  | @print _ ts e word stop hword he hstop =>
    have hread : Reads (printStatement n word.line (ts ++ stop :: rest)) (.print word.line e)
        rest :=
      reads_printStatement.mpr ⟨e, stop, he.reads_before hstop (by decide), hstop, rfl⟩
    have hts : word :: (ts ++ [stop]) ++ rest = word :: (ts ++ stop :: rest) := by simp
    refine ⟨log.push (.statement word.line), ?_⟩
    rw [hts, openedStatement, tracks_reach, hword]
    exact tracks_behind.mpr (tracks_tracked.mpr ⟨hread, rfl⟩)
  | @input _ ts shown word name stop hword hname hshown hstop =>
    have hread : Reads (inputStatement word.line (name :: (ts ++ stop :: rest)))
        (.input word.line name.lexeme shown) rest :=
      reads_inputStatement.mpr
        ⟨name, _, shown, stop, rfl, hname, hshown.reads hstop, hstop, rfl⟩
    have hts : word :: name :: (ts ++ [stop]) ++ rest = word :: name :: (ts ++ stop :: rest) := by
      simp
    refine ⟨log.push (.statement word.line), ?_⟩
    rw [hts, openedStatement, tracks_reach, hword]
    exact tracks_behind.mpr (tracks_tracked.mpr ⟨hread, rfl⟩)
  | branch hif =>
    cases hif with
    | @mk _ ts us vs e body other word hword he hbody hother =>
      obtain ⟨after, hread⟩ := ifStatement_complete hinner word.line he hbody hother
        (log.push (.statement word.line)) hrest
      have hts : word :: (ts ++ (us ++ vs)) ++ rest = word :: (ts ++ (us ++ (vs ++ rest))) := by
        simp
      refine ⟨after, ?_⟩
      rw [hts, openedStatement, tracks_reach, hword]
      exact tracks_behind.mpr hread
  | @loop _ ts us vs l r body word name fromWord toWord hword hname hfrom hl hto hr hbody =>
    obtain ⟨after, hread⟩ := loopStatement_complete hinner word.line hname hfrom hl hto hr
      hbody (log.push (.statement word.line)) rest
    have hts : word :: name :: fromWord :: (ts ++ toWord :: (us ++ vs)) ++ rest =
        word :: name :: fromWord :: (ts ++ toWord :: (us ++ (vs ++ rest))) := by simp
    refine ⟨after, ?_⟩
    rw [hts, openedStatement, tracks_reach, hword]
    exact tracks_behind.mpr hread
  | @rand _ ts us l r word name fromWord toWord stop hword hname hfrom hl hto hr hstop =>
    have hts : word :: name :: fromWord :: (ts ++ toWord :: (us ++ [stop])) ++ rest =
        word :: name :: fromWord :: (ts ++ toWord :: (us ++ stop :: rest)) := by simp
    refine ⟨log.push (.statement word.line), ?_⟩
    rw [hts, openedStatement, tracks_reach, hword]
    exact tracks_behind.mpr
      (tracks_tracked.mpr ⟨randStatement_complete hname hfrom hl hto hr hstop, rfl⟩)
  | @define _ ts us params body word name returns result hword hname hparams hreturns hresult
      hbody =>
    obtain ⟨after, hread⟩ := defineStatement_complete hinner word.line hname hparams hreturns
      hresult hbody (log.push (.statement word.line)) rest
    have hts : word :: name :: (ts ++ returns :: result :: us) ++ rest =
        word :: name :: (ts ++ returns :: result :: (us ++ rest)) := by simp
    refine ⟨after, ?_⟩
    rw [hts, openedStatement, tracks_reach, hword]
    exact tracks_behind.mpr hread
  | @call _ ts args word name stop hword hname hargs hstop =>
    have hts : word :: name :: (ts ++ [stop]) ++ rest = word :: name :: (ts ++ stop :: rest) := by
      simp
    refine ⟨log.push (.statement word.line), ?_⟩
    rw [hts, openedStatement, tracks_reach, hword]
    exact tracks_behind.mpr (tracks_tracked.mpr ⟨callStatement_complete hname hargs hstop, rfl⟩)

omit hinner in
/-- Every statement is read, where `else` does not follow. -/
theorem statement_complete (n : Nat) :
    TrackedComplete (statement n) (DerivesStatement maxArity n) := by
  induction n with
  | zero =>
    intro us s h
    cases h
  | succ n ih => exact openedStatement_complete ih

end complete

end DivisionScript.Grammar
