import Mathlib.Data.List.Forall2
import DivisionScript.Proofs.Grammar.Derivation
import DivisionScript.Proofs.Program

/-!
# Grammar — Alike

What tokens with other lines spell. A derivation looks at the kinds and the texts of tokens; their
lines it only hands on, from the first token of a statement or a declaration, which is no string, to
the tree. Tokens that are alike therefore spell trees that are alike: if the lines of all but the
strings agree after `f`, the trees are the same once `f` has been applied to their lines.
-/

namespace DivisionScript

/-- Two tokens differ at most in their lines, and after `f` in them only if they are strings. -/
structure Token.Alike (f : Nat → Nat) (t u : Token) : Prop where
  kind_eq : u.kind = t.kind
  lexeme_eq : u.lexeme = t.lexeme
  line_eq : t.shape ≠ .string → f u.line = f t.line

theorem Token.Alike.shape_eq {f : Nat → Nat} {t u : Token} (h : t.Alike f u) : u.shape = t.shape :=
  congrArg TokenKind.shape h.kind_eq

namespace Grammar

/-- Tokens that differ at most in their lines, and after `f` only in those of strings. -/
abbrev Alike (f : Nat → Nat) : List Token → List Token → Prop :=
  List.Forall₂ (Token.Alike f)

variable {arity n : Nat} {f : Nat → Nat} {t : Token} {ts us ws : List Token}

/-! ## Parts -/

theorem alike_cons (h : Alike f (t :: ts) ws) :
    ∃ u us, ws = u :: us ∧ t.Alike f u ∧ Alike f ts us := by
  obtain ⟨u, us, ht, hts, rfl⟩ := List.forall₂_cons_left_iff.mp h
  exact ⟨u, us, rfl, ht, hts⟩

theorem alike_append (h : Alike f (ts ++ us) ws) :
    ∃ vs xs, ws = vs ++ xs ∧ Alike f ts vs ∧ Alike f us xs := by
  refine ⟨ws.take ts.length, ws.drop ts.length, (List.take_append_drop ..).symm, ?_, ?_⟩
  · simpa using List.forall₂_take ts.length h
  · simpa using List.forall₂_drop ts.length h

theorem alike_between (h : Alike f (ts ++ t :: us) ws) :
    ∃ vs u xs, ws = vs ++ u :: xs ∧ Alike f ts vs ∧ t.Alike f u ∧ Alike f us xs := by
  obtain ⟨vs, rest, rfl, hts, hrest⟩ := alike_append h
  obtain ⟨u, xs, rfl, ht, hus⟩ := alike_cons hrest
  exact ⟨vs, u, xs, rfl, hts, ht, hus⟩

theorem alike_last (h : Alike f (ts ++ [t]) ws) :
    ∃ vs u, ws = vs ++ [u] ∧ Alike f ts vs ∧ t.Alike f u := by
  obtain ⟨vs, u, xs, rfl, hts, ht, hxs⟩ := alike_between h
  cases hxs
  exact ⟨vs, u, rfl, hts, ht⟩

theorem alike_one (h : Alike f [t] ws) : ∃ u, ws = [u] ∧ t.Alike f u := by
  obtain ⟨u, us, rfl, ht, hus⟩ := alike_cons h
  cases hus
  exact ⟨u, rfl, ht⟩

theorem alike_three {t' t'' : Token} (h : Alike f [t, t', t''] ws) :
    ∃ u v x, ws = [u, v, x] ∧ t.Alike f u ∧ t'.Alike f v ∧ t''.Alike f x := by
  obtain ⟨u, rest, rfl, hu, hrest⟩ := alike_cons h
  obtain ⟨v, rest, rfl, hv, hrest⟩ := alike_cons hrest
  obtain ⟨x, rfl, hx⟩ := alike_one hrest
  exact ⟨u, v, x, rfl, hu, hv, hx⟩

/-! ## Phrases of tokens that are alike -/

/-- Expressions have no lines. -/
theorem Derives.alike {c : Category} {e : Expr} (h : Derives c n ts e)
    (hts : Alike f ts ws) : Derives c n ws e := by
  induction h generalizing ws with
  | expression _ ih => exact .expression (ih hts)
  | disjunctionOne _ ih => exact .disjunctionOne (ih hts)
  | conjunctionOne _ ih => exact .conjunctionOne (ih hts)
  | comparisonOne _ ih => exact .comparisonOne (ih hts)
  | sumOne _ ih => exact .sumOne (ih hts)
  | termOne _ ih => exact .termOne (ih hts)
  | powerOne _ ih => exact .powerOne (ih hts)
  | exponent _ ih => exact .exponent (ih hts)
  | unaryOne _ ih => exact .unaryOne (ih hts)
  | operand _ ih => exact .operand (ih hts)
  | disjunction _ ht _ ihl ihr =>
    obtain ⟨vs, u, xs, rfl, hl, hu, hr⟩ := alike_between hts
    exact .disjunction (ihl hl) (hu.shape_eq.trans ht) (ihr hr)
  | conjunction _ ht _ ihl ihr =>
    obtain ⟨vs, u, xs, rfl, hl, hu, hr⟩ := alike_between hts
    exact .conjunction (ihl hl) (hu.shape_eq.trans ht) (ihr hr)
  | comparison op _ ht _ ihl ihr =>
    obtain ⟨vs, u, xs, rfl, hl, hu, hr⟩ := alike_between hts
    exact .comparison op (ihl hl) (hu.shape_eq.trans ht) (ihr hr)
  | sum op _ ht _ ihl ihr =>
    obtain ⟨vs, u, xs, rfl, hl, hu, hr⟩ := alike_between hts
    exact .sum op (ihl hl) (hu.shape_eq.trans ht) (ihr hr)
  | term op _ ht _ ihl ihr =>
    obtain ⟨vs, u, xs, rfl, hl, hu, hr⟩ := alike_between hts
    exact .term op (ihl hl) (hu.shape_eq.trans ht) (ihr hr)
  | power _ ht _ ihb ihe =>
    obtain ⟨vs, u, xs, rfl, hb, hu, he⟩ := alike_between hts
    exact .power (ihb hb) (hu.shape_eq.trans ht) (ihe he)
  | negate ht _ ih =>
    obtain ⟨u, us, rfl, hu, hrest⟩ := alike_cons hts
    exact .negate (hu.shape_eq.trans ht) (ih hrest)
  | number ht =>
    obtain ⟨u, rfl, hu⟩ := alike_one hts
    exact .number (hu.kind_eq.trans ht)
  | string ht =>
    obtain ⟨u, rfl, hu⟩ := alike_one hts
    exact .string (hu.kind_eq.trans ht)
  | identifier ht =>
    obtain ⟨u, rfl, hu⟩ := alike_one hts
    rw [← hu.lexeme_eq]
    exact .identifier (hu.shape_eq.trans ht)
  | group hopening _ hclosing ih =>
    obtain ⟨u, rest, rfl, hu, hrest⟩ := alike_cons hts
    obtain ⟨vs, v, rfl, hvs, hv⟩ := alike_last hrest
    exact .group (hu.shape_eq.trans hopening) (ih hvs) (hv.shape_eq.trans hclosing)

theorem DerivesPrompt.alike {text : String} (h : DerivesPrompt ts text)
    (hts : Alike f ts ws) : DerivesPrompt ws text := by
  cases h with
  | absent =>
    cases hts
    exact .absent
  | present ht =>
    obtain ⟨u, rfl, hu⟩ := alike_one hts
    exact .present (hu.kind_eq.trans ht)

theorem DerivesTag.alike {tag : Option TypeTag} (h : DerivesTag ts tag)
    (hts : Alike f ts ws) : DerivesTag ws tag := by
  cases h with
  | absent =>
    cases hts
    exact .absent
  | present tag hword hkind =>
    obtain ⟨u, rest, rfl, hu, hrest⟩ := alike_cons hts
    obtain ⟨v, rfl, hv⟩ := alike_one hrest
    exact .present tag (hu.shape_eq.trans hword) (hv.shape_eq.trans hkind)

section lists

variable {α β : Type} {item : List Token → α → Prop} {value : α → β} {as : List α}

/-- Items that stay items for tokens that are alike, up to what is taken of them. -/
def Carries (f : Nat → Nat) (item : List Token → α → Prop) (value : α → β) : Prop :=
  ∀ ⦃ts ws a⦄, item ts a → Alike f ts ws → ∃ b, item ws b ∧ value b = value a

theorem carries_identifier : Carries f Identifier Token.lexeme := by
  intro ts ws t h hts
  cases h with
  | mk ht =>
    obtain ⟨u, rfl, hu⟩ := alike_one hts
    exact ⟨u, .mk (hu.shape_eq.trans ht), hu.lexeme_eq⟩

theorem carries_expression : Carries f (Derives .expression n) id :=
  fun _ _ e h hts => ⟨e, h.alike hts, rfl⟩

theorem Separated.alike (hitem : Carries f item value) (h : Separated item ts as)
    (hts : Alike f ts ws) : ∃ bs, Separated item ws bs ∧ bs.map value = as.map value := by
  induction h generalizing ws with
  | one ha =>
    obtain ⟨b, hb, hvalue⟩ := hitem ha hts
    exact ⟨[b], .one hb, congrArg ([·]) hvalue⟩
  | more ha ht _ ih =>
    obtain ⟨vs, u, xs, rfl, hvs, hu, hxs⟩ := alike_between hts
    obtain ⟨b, hb, hvalue⟩ := hitem ha hvs
    obtain ⟨bs, hbs, hvalues⟩ := ih hxs
    exact ⟨b :: bs, .more hb (hu.shape_eq.trans ht) hbs, congrArg₂ List.cons hvalue hvalues⟩

theorem Parenthesized.alike (hitem : Carries f item value) (h : Parenthesized arity item ts as)
    (hts : Alike f ts ws) :
    ∃ bs, Parenthesized arity item ws bs ∧ bs.map value = as.map value := by
  cases h with
  | empty hopening hclosing =>
    obtain ⟨u, rest, rfl, hu, hrest⟩ := alike_cons hts
    obtain ⟨v, rfl, hv⟩ := alike_one hrest
    exact ⟨[], .empty (hu.shape_eq.trans hopening) (hv.shape_eq.trans hclosing), rfl⟩
  | items hopening has hlength hclosing =>
    obtain ⟨u, rest, rfl, hu, hrest⟩ := alike_cons hts
    obtain ⟨vs, v, rfl, hvs, hv⟩ := alike_last hrest
    obtain ⟨bs, hbs, hvalues⟩ := has.alike hitem hvs
    have hsize : bs.length = as.length := by simpa using congrArg List.length hvalues
    exact ⟨bs, .items (hu.shape_eq.trans hopening) hbs (hsize ▸ hlength)
      (hv.shape_eq.trans hclosing), hvalues⟩

end lists

-- A part's tree is smaller, or it is the same tree and the second component counts down to the list
-- of statements or to the `if` that spells it.
mutual

/-- The line of a statement is that of a word or a name, which is no string. -/
theorem DerivesStatement.alike {arity n : Nat} {f : Nat → Nat} {ts ws : List Token} {s : Stmt}
    (h : DerivesStatement arity n ts s) (hts : Alike f ts ws) :
    ∃ s', DerivesStatement arity n ws s' ∧ s'.relabel f = s.relabel f := by
  cases h with
  | assign hname hequals he htag hstop =>
    obtain ⟨u, rest, rfl, hu, hrest⟩ := alike_cons hts
    obtain ⟨v, rest, rfl, hv, hrest⟩ := alike_cons hrest
    obtain ⟨vs, rest, rfl, hvs, hrest⟩ := alike_append hrest
    obtain ⟨xs, x, rfl, hxs, hx⟩ := alike_last hrest
    refine ⟨_, .assign (hu.shape_eq.trans hname) (hv.shape_eq.trans hequals) (he.alike hvs)
      (htag.alike hxs) (hx.shape_eq.trans hstop), ?_⟩
    rw [Stmt.relabel, Stmt.relabel, hu.line_eq (by simp [hname]), hu.lexeme_eq]
  | print hword he hstop =>
    obtain ⟨u, rest, rfl, hu, hrest⟩ := alike_cons hts
    obtain ⟨vs, v, rfl, hvs, hv⟩ := alike_last hrest
    refine ⟨_, .print (hu.shape_eq.trans hword) (he.alike hvs) (hv.shape_eq.trans hstop), ?_⟩
    rw [Stmt.relabel, Stmt.relabel, hu.line_eq (by simp [hword])]
  | input hword hname hprompt hstop =>
    obtain ⟨u, rest, rfl, hu, hrest⟩ := alike_cons hts
    obtain ⟨v, rest, rfl, hv, hrest⟩ := alike_cons hrest
    obtain ⟨vs, x, rfl, hvs, hx⟩ := alike_last hrest
    refine ⟨_, .input (hu.shape_eq.trans hword) (hv.shape_eq.trans hname) (hprompt.alike hvs)
      (hx.shape_eq.trans hstop), ?_⟩
    rw [Stmt.relabel, Stmt.relabel, hu.line_eq (by simp [hword]), hv.lexeme_eq]
  | branch hif =>
    obtain ⟨s', hs', hsame⟩ := DerivesIf.alike hif hts
    exact ⟨s', .branch hs', hsame⟩
  | loop hword hname hfrom hl hto hr hbody =>
    obtain ⟨u, rest, rfl, hu, hrest⟩ := alike_cons hts
    obtain ⟨v, rest, rfl, hv, hrest⟩ := alike_cons hrest
    obtain ⟨x, rest, rfl, hx, hrest⟩ := alike_cons hrest
    obtain ⟨vs, y, rest, rfl, hvs, hy, hrest⟩ := alike_between hrest
    obtain ⟨xs, ys, rfl, hxs, hys⟩ := alike_append hrest
    obtain ⟨body', hbody', hsame⟩ := DerivesBlock.alike hbody hys
    refine ⟨_, .loop (hu.shape_eq.trans hword) (hv.shape_eq.trans hname) (hx.shape_eq.trans hfrom)
      (hl.alike hvs) (hy.shape_eq.trans hto) (hr.alike hxs) hbody', ?_⟩
    rw [Stmt.relabel, Stmt.relabel, hu.line_eq (by simp [hword]), hv.lexeme_eq, hsame]
  | rand hword hname hfrom hl hto hr hstop =>
    obtain ⟨u, rest, rfl, hu, hrest⟩ := alike_cons hts
    obtain ⟨v, rest, rfl, hv, hrest⟩ := alike_cons hrest
    obtain ⟨x, rest, rfl, hx, hrest⟩ := alike_cons hrest
    obtain ⟨vs, y, rest, rfl, hvs, hy, hrest⟩ := alike_between hrest
    obtain ⟨xs, z, rfl, hxs, hz⟩ := alike_last hrest
    refine ⟨_, .rand (hu.shape_eq.trans hword) (hv.shape_eq.trans hname) (hx.shape_eq.trans hfrom)
      (hl.alike hvs) (hy.shape_eq.trans hto) (hr.alike hxs) (hz.shape_eq.trans hstop), ?_⟩
    rw [Stmt.relabel, Stmt.relabel, hu.line_eq (by simp [hword]), hv.lexeme_eq]
  | define hword hname hparams hreturns hresult hbody =>
    obtain ⟨u, rest, rfl, hu, hrest⟩ := alike_cons hts
    obtain ⟨v, rest, rfl, hv, hrest⟩ := alike_cons hrest
    obtain ⟨vs, x, rest, rfl, hvs, hx, hrest⟩ := alike_between hrest
    obtain ⟨y, xs, rfl, hy, hxs⟩ := alike_cons hrest
    obtain ⟨params, hparams, hnames⟩ := hparams.alike carries_identifier hvs
    obtain ⟨body', hbody', hsame⟩ := DerivesBlock.alike hbody hxs
    refine ⟨_, .define (hu.shape_eq.trans hword) (hv.shape_eq.trans hname) hparams
      (hx.shape_eq.trans hreturns) (hy.shape_eq.trans hresult) hbody', ?_⟩
    rw [Stmt.relabel, Stmt.relabel, hu.line_eq (by simp [hword]), hv.lexeme_eq, hy.lexeme_eq,
      hnames, hsame]
  | call hword hname hargs hstop =>
    obtain ⟨u, rest, rfl, hu, hrest⟩ := alike_cons hts
    obtain ⟨v, rest, rfl, hv, hrest⟩ := alike_cons hrest
    obtain ⟨vs, x, rfl, hvs, hx⟩ := alike_last hrest
    obtain ⟨args, hargs, hsame⟩ := hargs.alike carries_expression hvs
    rw [List.map_id, List.map_id] at hsame
    refine ⟨_, .call (hu.shape_eq.trans hword) (hv.shape_eq.trans hname) hargs
      (hx.shape_eq.trans hstop), ?_⟩
    rw [Stmt.relabel, Stmt.relabel, hu.line_eq (by simp [hword]), hv.lexeme_eq, hsame]
termination_by (sizeOf s, 1)

theorem DerivesIf.alike {arity n : Nat} {f : Nat → Nat} {ts ws : List Token} {s : Stmt}
    (h : DerivesIf arity n ts s) (hts : Alike f ts ws) :
    ∃ s', DerivesIf arity n ws s' ∧ s'.relabel f = s.relabel f := by
  cases h with
  | mk hword he hbody hother =>
    obtain ⟨u, rest, rfl, hu, hrest⟩ := alike_cons hts
    obtain ⟨vs, rest, rfl, hvs, hrest⟩ := alike_append hrest
    obtain ⟨xs, ys, rfl, hxs, hys⟩ := alike_append hrest
    obtain ⟨body', hbody', hsame⟩ := DerivesBlock.alike hbody hxs
    obtain ⟨other', hother', hsame'⟩ := DerivesElse.alike hother hys
    refine ⟨_, .mk (hu.shape_eq.trans hword) (he.alike hvs) hbody' hother', ?_⟩
    rw [Stmt.relabel, Stmt.relabel, hu.line_eq (by simp [hword]), hsame, hsame']
termination_by (sizeOf s, 0)

theorem DerivesElse.alike {arity n : Nat} {f : Nat → Nat} {ts ws : List Token} {body : List Stmt}
    (h : DerivesElse arity n ts body) (hts : Alike f ts ws) :
    ∃ body', DerivesElse arity n ws body' ∧ relabelEach f body' = relabelEach f body := by
  cases h with
  | absent =>
    cases hts
    exact ⟨[], .absent, rfl⟩
  | block hword hbody =>
    obtain ⟨u, rest, rfl, hu, hrest⟩ := alike_cons hts
    obtain ⟨body', hbody', hsame⟩ := DerivesBlock.alike hbody hrest
    exact ⟨body', .block (hu.shape_eq.trans hword) hbody', hsame⟩
  | chained hword hif =>
    obtain ⟨u, rest, rfl, hu, hrest⟩ := alike_cons hts
    obtain ⟨s', hs', hsame⟩ := DerivesIf.alike hif hrest
    refine ⟨[s'], .chained (hu.shape_eq.trans hword) hs', ?_⟩
    rw [relabelEach, relabelEach, hsame]
    rfl
termination_by (sizeOf body, 2)

theorem DerivesBlock.alike {arity n : Nat} {f : Nat → Nat} {ts ws : List Token} {body : List Stmt}
    (h : DerivesBlock arity n ts body) (hts : Alike f ts ws) :
    ∃ body', DerivesBlock arity n ws body' ∧ relabelEach f body' = relabelEach f body := by
  cases h with
  | mk hopening hbody hclosing =>
    obtain ⟨u, rest, rfl, hu, hrest⟩ := alike_cons hts
    obtain ⟨vs, v, rfl, hvs, hv⟩ := alike_last hrest
    obtain ⟨body', hbody', hsame⟩ := DerivesStatements.alike hbody hvs
    exact ⟨body', .mk (hu.shape_eq.trans hopening) hbody' (hv.shape_eq.trans hclosing), hsame⟩
termination_by (sizeOf body, 1)

theorem DerivesStatements.alike {arity n : Nat} {f : Nat → Nat} {ts ws : List Token}
    {body : List Stmt} (h : DerivesStatements arity n ts body) (hts : Alike f ts ws) :
    ∃ body', DerivesStatements arity n ws body' ∧ relabelEach f body' = relabelEach f body := by
  cases h with
  | nil =>
    cases hts
    exact ⟨[], .nil, rfl⟩
  | cons hs hrest =>
    obtain ⟨vs, xs, rfl, hvs, hxs⟩ := alike_append hts
    obtain ⟨s', hs', hsame⟩ := DerivesStatement.alike hs hvs
    obtain ⟨rest', hrest', hsame'⟩ := DerivesStatements.alike hrest hxs
    refine ⟨s' :: rest', .cons hs' hrest', ?_⟩
    rw [relabelEach, relabelEach, hsame, hsame']
termination_by (sizeOf body, 0)

end

/-! ## Programs of tokens that are alike -/

theorem DerivesDeclaration.alike {d : Decl} (h : DerivesDeclaration n ts d) (hts : Alike f ts ws) :
    ∃ d', DerivesDeclaration n ws d' ∧ d'.relabel f = d.relabel f := by
  cases h with
  | program hword htext hstop =>
    obtain ⟨u, v, x, rfl, hu, hv, hx⟩ := alike_three hts
    refine ⟨_, .program (hu.shape_eq.trans hword) (hv.kind_eq.trans htext)
      (hx.shape_eq.trans hstop), ?_⟩
    rw [Decl.relabel, Decl.relabel, hu.line_eq (by simp [hword])]
  | author hword htext hstop =>
    obtain ⟨u, v, x, rfl, hu, hv, hx⟩ := alike_three hts
    refine ⟨_, .author (hu.shape_eq.trans hword) (hv.kind_eq.trans htext)
      (hx.shape_eq.trans hstop), ?_⟩
    rw [Decl.relabel, Decl.relabel, hu.line_eq (by simp [hword])]
  | date hword htext hstop =>
    obtain ⟨u, v, x, rfl, hu, hv, hx⟩ := alike_three hts
    refine ⟨_, .date (hu.shape_eq.trans hword) (hv.kind_eq.trans htext)
      (hx.shape_eq.trans hstop), ?_⟩
    rw [Decl.relabel, Decl.relabel, hu.line_eq (by simp [hword])]
  | const hword hname hequals he hstop =>
    obtain ⟨u, rest, rfl, hu, hrest⟩ := alike_cons hts
    obtain ⟨v, rest, rfl, hv, hrest⟩ := alike_cons hrest
    obtain ⟨x, rest, rfl, hx, hrest⟩ := alike_cons hrest
    obtain ⟨vs, y, rfl, hvs, hy⟩ := alike_last hrest
    refine ⟨_, .const (hu.shape_eq.trans hword) (hv.shape_eq.trans hname)
      (hx.shape_eq.trans hequals) (he.alike hvs) (hy.shape_eq.trans hstop), ?_⟩
    rw [Decl.relabel, Decl.relabel, hu.line_eq (by simp [hword]), hv.lexeme_eq]

theorem DerivesDeclarations.alike {ds : List Decl} (h : DerivesDeclarations n ts ds)
    (hts : Alike f ts ws) :
    ∃ ds', DerivesDeclarations n ws ds' ∧ ds'.map (Decl.relabel f) = ds.map (Decl.relabel f) := by
  induction h generalizing ws with
  | nil =>
    cases hts
    exact ⟨[], .nil, rfl⟩
  | cons hd _ ih =>
    obtain ⟨vs, xs, rfl, hvs, hxs⟩ := alike_append hts
    obtain ⟨d', hd', hsame⟩ := hd.alike hvs
    obtain ⟨ds', hds', hsames⟩ := ih hxs
    exact ⟨d' :: ds', .cons hd' hds', congrArg₂ List.cons hsame hsames⟩

theorem DerivesStatic.alike {ds : List Decl} (h : DerivesStatic n ts ds) (hts : Alike f ts ws) :
    ∃ ds', DerivesStatic n ws ds' ∧ ds'.map (Decl.relabel f) = ds.map (Decl.relabel f) := by
  cases h with
  | absent =>
    cases hts
    exact ⟨[], .absent, rfl⟩
  | present hstatic hdivision hds =>
    obtain ⟨u, rest, rfl, hu, hrest⟩ := alike_cons hts
    obtain ⟨v, vs, rfl, hv, hvs⟩ := alike_cons hrest
    obtain ⟨ds', hds', hsame⟩ := hds.alike hvs
    exact ⟨ds', .present (hu.shape_eq.trans hstatic) (hv.shape_eq.trans hdivision) hds', hsame⟩

theorem DerivesProgram.alike {p : Program} (h : DerivesProgram arity n ts p)
    (hts : Alike f ts ws) : ∃ q, DerivesProgram arity n ws q ∧ q.relabel f = p.relabel f := by
  cases h with
  | mk hds hdynamic hdivision hbody hstop =>
    obtain ⟨vs, u, rest, rfl, hvs, hu, hrest⟩ := alike_between hts
    obtain ⟨v, rest, rfl, hv, hrest⟩ := alike_cons hrest
    obtain ⟨xs, x, rfl, hxs, hx⟩ := alike_last hrest
    obtain ⟨ds', hds', hsame⟩ := hds.alike hvs
    obtain ⟨body', hbody', hsame'⟩ := hbody.alike hxs
    refine ⟨_, .mk hds' (hu.shape_eq.trans hdynamic) (hv.shape_eq.trans hdivision) hbody'
      (hx.shape_eq.trans hstop), ?_⟩
    exact congrArg₂ Program.mk hsame hsame'

end Grammar

end DivisionScript
