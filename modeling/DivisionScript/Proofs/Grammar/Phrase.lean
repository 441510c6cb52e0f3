import DivisionScript.Proofs.Grammar.Alike

/-!
# Grammar — Phrase

What a derivation says about the lines of a program. Nothing but the first token of a statement or
a declaration gives the tree a line, and no such token is a string: tokens that differ only in the
lines of strings spell the same programs. Every statement of a program, at any depth, is the tree of
a phrase of its own among the tokens, and has the line of the first token of that phrase.
-/

namespace DivisionScript

/-- Two tokens differ at most in their lines, and in them only if they are strings. -/
structure Token.Resembles (t u : Token) : Prop where
  kind_eq : u.kind = t.kind
  lexeme_eq : u.lexeme = t.lexeme
  line_eq : t.shape ≠ .string → u.line = t.line

namespace Grammar

/-- Tokens that differ at most in the lines of strings. -/
abbrev Resembling : List Token → List Token → Prop :=
  List.Forall₂ Token.Resembles

variable {arity n : Nat} {ts ws : List Token}

/-- Tokens that resemble those of a program spell the same program. -/
theorem DerivesProgram.resembling {p : Program} (h : DerivesProgram arity n ts p)
    (hts : Resembling ts ws) : DerivesProgram arity n ws p := by
  have halike : Alike id ts ws := hts.imp fun _ _ h => ⟨h.kind_eq, h.lexeme_eq, h.line_eq⟩
  obtain ⟨q, hq, hsame⟩ := h.alike halike
  rw [Program.relabel_id, Program.relabel_id] at hsame
  exact hsame ▸ hq

/-! ## The first tokens of statements and declarations -/

/-- Somewhere among the tokens stands a phrase whose first token has the line. -/
def Stands (phrase : List Token → Prop) (line : Nat) (ts : List Token) : Prop :=
  ∃ before t us after, ts = before ++ t :: (us ++ after) ∧ phrase (t :: us) ∧ line = t.line

section stands

variable {phrase : List Token → Prop} {line : Nat}

theorem Stands.within (h : Stands phrase line ts) (before after : List Token) :
    Stands phrase line (before ++ (ts ++ after)) := by
  obtain ⟨before', t, us, after', rfl, hphrase, hline⟩ := h
  exact ⟨before ++ before', t, us, after' ++ after, by simp, hphrase, hline⟩

theorem Stands.behind (h : Stands phrase line ts) (before : List Token) :
    Stands phrase line (before ++ ts) := by
  have hwithin := h.within before []
  rwa [List.append_nil] at hwithin

theorem Stands.whole (hphrase : phrase ts) (hhead : ∃ t us, ts = t :: us ∧ line = t.line) :
    Stands phrase line ts := by
  obtain ⟨t, us, rfl, hline⟩ := hhead
  exact ⟨[], t, us, [], by simp, hphrase, hline⟩

end stands

/-- The tokens are a statement whose tree is `s`. -/
def Spells (arity : Nat) (s : Stmt) (ts : List Token) : Prop :=
  ∃ n, DerivesStatement arity n ts s

theorem DerivesIf.head_line {s : Stmt} (h : DerivesIf arity n ts s) :
    ∃ t us, ts = t :: us ∧ s.line = t.line := by
  cases h
  exact ⟨_, _, rfl, rfl⟩

theorem DerivesStatement.stands {s : Stmt} (h : DerivesStatement arity n ts s) :
    Stands (Spells arity s) s.line ts := by
  refine .whole ⟨n, h⟩ ?_
  cases h with
  | branch hif => exact hif.head_line
  | _ => exact ⟨_, _, rfl, rfl⟩

mutual

theorem DerivesStatement.all_stand {arity n : Nat} {ts : List Token} {s : Stmt}
    (h : DerivesStatement arity n ts s) : ∀ r ∈ s.all, Stands (Spells arity r) r.line ts := by
  intro r hr
  have hself := h.stands
  cases h with
  | branch hif => exact DerivesIf.all_stand hif r hr
  | @loop n ts us vs l r' body word name fromWord toWord hword hname hfrom hl hto hr' hbody =>
    rw [Stmt.all, List.mem_cons] at hr
    rcases hr with rfl | hr
    · exact hself
    · have hinside := (DerivesBlock.all_stand hbody r hr).behind
        (word :: name :: fromWord :: (ts ++ toWord :: us))
      simpa using hinside
  | @define n ts us params body word name returns result hword hname hparams hreturns hresult
      hbody =>
    rw [Stmt.all, List.mem_cons] at hr
    rcases hr with rfl | hr
    · exact hself
    · have hinside := (DerivesBlock.all_stand hbody r hr).behind
        (word :: name :: (ts ++ [returns, result]))
      simpa using hinside
  | _ =>
    cases List.mem_singleton.mp hr
    exact hself
termination_by (sizeOf s, 1)

theorem DerivesIf.all_stand {arity n : Nat} {ts : List Token} {s : Stmt}
    (h : DerivesIf arity n ts s) : ∀ r ∈ s.all, Stands (Spells arity r) r.line ts := by
  intro r hr
  have hself := (DerivesStatement.branch h).stands
  cases h with
  | @mk n ts us vs e body other word hword he hbody hother =>
    rw [Stmt.all, List.mem_cons, List.mem_append] at hr
    rcases hr with rfl | hr | hr
    · exact hself
    · exact (DerivesBlock.all_stand hbody r hr).within (word :: ts) vs
    · have hinside := (DerivesElse.all_stand hother r hr).behind (word :: (ts ++ us))
      simpa using hinside
termination_by (sizeOf s, 0)

theorem DerivesElse.all_stand {arity n : Nat} {ts : List Token} {body : List Stmt}
    (h : DerivesElse arity n ts body) :
    ∀ r ∈ allOfEach body, Stands (Spells arity r) r.line ts := by
  intro r hr
  cases h with
  | absent => cases hr
  | @block n ts body word hword hbody => exact (DerivesBlock.all_stand hbody r hr).behind [word]
  | @chained n ts s word hword hif =>
    rw [allOfEach, allOfEach, List.append_nil] at hr
    exact (DerivesIf.all_stand hif r hr).behind [word]
termination_by (sizeOf body, 2)

theorem DerivesBlock.all_stand {arity n : Nat} {ts : List Token} {body : List Stmt}
    (h : DerivesBlock arity n ts body) :
    ∀ r ∈ allOfEach body, Stands (Spells arity r) r.line ts := by
  intro r hr
  cases h with
  | @mk n ts body opening closing hopening hbody hclosing =>
    exact (DerivesStatements.all_stand hbody r hr).within [opening] [closing]
termination_by (sizeOf body, 1)

theorem DerivesStatements.all_stand {arity n : Nat} {ts : List Token} {body : List Stmt}
    (h : DerivesStatements arity n ts body) :
    ∀ r ∈ allOfEach body, Stands (Spells arity r) r.line ts := by
  intro r hr
  cases h with
  | nil => cases hr
  | @cons n ts us s rest hs hrest =>
    rw [allOfEach, List.mem_append] at hr
    rcases hr with hr | hr
    · exact (DerivesStatement.all_stand hs r hr).within [] us
    · exact (DerivesStatements.all_stand hrest r hr).behind ts
termination_by (sizeOf body, 0)

end

theorem DerivesDeclarations.all_stand {ds : List Decl} (h : DerivesDeclarations n ts ds) :
    ∀ d ∈ ds, Stands (DerivesDeclaration n · d) d.line ts := by
  induction h with
  | nil => exact nofun
  | @cons ts us d rest hd _ ih =>
    intro d' hd'
    rcases List.mem_cons.mp hd' with rfl | hd'
    · refine (Stands.whole hd ?_).within [] us
      cases hd <;> exact ⟨_, _, rfl, rfl⟩
    · exact (ih d' hd').behind ts

/-- Every declaration of a program and every statement, at any depth, has the line of the first
token of its phrase. -/
theorem DerivesProgram.all_stand {p : Program} (h : DerivesProgram arity n ts p) :
    (∀ d ∈ p.declarations, Stands (DerivesDeclaration n · d) d.line ts) ∧
      ∀ s ∈ allOfEach p.statements, Stands (Spells arity s) s.line ts := by
  cases h with
  | @mk ts us ds body dynamic division stop hds hdynamic hdivision hbody hstop =>
    constructor
    · intro d hd
      cases hds with
      | absent => cases hd
      | @present ts ds static division' hstatic hdivision' hds =>
        exact (hds.all_stand d hd).within [static, division']
          (dynamic :: division :: (us ++ [stop]))
    · intro s hs
      have hinside := (hbody.all_stand s hs).within (ts ++ [dynamic, division]) [stop]
      simpa using hinside

end Grammar

end DivisionScript
