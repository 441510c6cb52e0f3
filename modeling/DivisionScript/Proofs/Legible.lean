import DivisionScript.Proofs.Layout

/-!
# Legible

Programs whose trees can be read back from an outline: every name is a word and every literal a
finite number. The names of a program that a text spells are words, since the lexical grammar has
no other identifiers; its literals may be too large to be finite.
-/

namespace DivisionScript

/-- The literals of an expression. -/
def Expr.numbers : Expr → List Float
  | .disjunction left right => left.numbers ++ right.numbers
  | .conjunction left right => left.numbers ++ right.numbers
  | .comparison left _ right => left.numbers ++ right.numbers
  | .sum left _ right => left.numbers ++ right.numbers
  | .term left _ right => left.numbers ++ right.numbers
  | .power base exponent => base.numbers ++ exponent.numbers
  | .firstPower base => base.numbers
  | .negate operand => operand.numbers
  | .group inner => inner.numbers
  | .number x => [x]
  | .string _ => []
  | .identifier _ => []

/-- The expressions of a statement, without those of the statements inside it. -/
def Stmt.operands : Stmt → List Expr
  | .assign _ _ value _ => [value]
  | .print _ value => [value]
  | .input .. => []
  | .branch _ condition _ _ => [condition]
  | .loop _ _ start stop _ => [start, stop]
  | .rand _ _ least greatest => [least, greatest]
  | .define .. => []
  | .call _ _ args => args

/-- The names in a statement, without those in its expressions and in the statements inside it. -/
def Stmt.names : Stmt → List String
  | .assign _ name _ _ => [name]
  | .print .. => []
  | .input _ name _ => [name]
  | .branch .. => []
  | .loop _ name _ _ _ => [name]
  | .rand _ name _ _ => [name]
  | .define _ name params _ result => name :: result :: params
  | .call _ name _ => [name]

/-- The expressions of a declaration. -/
def Decl.operands : Decl → List Expr
  | .const _ _ value => [value]
  | .program .. | .author .. | .date .. => []

/-- The names in a declaration. -/
def Decl.names : Decl → List String
  | .const _ name _ => [name]
  | .program .. | .author .. | .date .. => []

/-- The literals of a program. -/
def Program.numbers (p : Program) : List Float :=
  (p.declarations.flatMap Decl.operands ++
    (allOfEach p.statements).flatMap Stmt.operands).flatMap Expr.numbers

/-- The name is a word of the lexical grammar. -/
def IsWord (name : String) : Prop :=
  Lexeme .word name.toList

/-- An expression of words and finite numbers, where every power has an exponent. -/
def Expr.Legible : Expr → Prop
  | .disjunction left right => left.Legible ∧ right.Legible
  | .conjunction left right => left.Legible ∧ right.Legible
  | .comparison left _ right => left.Legible ∧ right.Legible
  | .sum left _ right => left.Legible ∧ right.Legible
  | .term left _ right => left.Legible ∧ right.Legible
  | .power base exponent => base.Legible ∧ exponent.Legible
  | .firstPower _ => False
  | .negate operand => operand.Legible
  | .group inner => inner.Legible
  | .number x => x.isFinite
  | .string _ => True
  | .identifier name => IsWord name

/-- The names in a statement are words and its expressions are legible. -/
def Stmt.Legible (s : Stmt) : Prop :=
  (∀ name ∈ s.names, IsWord name) ∧ ∀ e ∈ s.operands, e.Legible

/-- The names in a declaration are words and its expressions are legible. -/
def Decl.Legible (d : Decl) : Prop :=
  (∀ name ∈ d.names, IsWord name) ∧ ∀ e ∈ d.operands, e.Legible

/-- All declarations of a program are legible and all its statements, at any depth. -/
structure Program.Legible (p : Program) : Prop where
  declarations : ∀ d ∈ p.declarations, d.Legible
  statements : ∀ s ∈ allOfEach p.statements, s.Legible

/-! ## Legible derivations -/

namespace Grammar

/-- The identifiers among the tokens are words. -/
def Worded (ts : List Token) : Prop :=
  ∀ t ∈ ts, t.shape = .identifier → IsWord t.lexeme

variable {arity n : Nat} {ts : List Token}

theorem Worded.of_spelled (h : ∀ t ∈ ts, t.kind ≠ .endOfText → t.Spelled) : Worded ts := by
  intro t ht hshape
  have hkind : t.kind = .identifier := by
    rw [Token.shape] at hshape
    cases hkind : t.kind <;> rw [hkind] at hshape <;> first | rfl | cases hshape
  obtain ⟨cls, hlexeme, hdenotes⟩ := h t ht (by simp [hkind])
  rw [hkind] at hdenotes
  rw [IsWord]
  generalize t.lexeme.toList = lexeme at hlexeme hdenotes
  cases hdenotes
  exact hlexeme

@[simp] theorem worded_cons {t : Token} :
    Worded (t :: ts) ↔ (t.shape = .identifier → IsWord t.lexeme) ∧ Worded ts :=
  List.forall_mem_cons

@[simp] theorem worded_append {us : List Token} : Worded (ts ++ us) ↔ Worded ts ∧ Worded us :=
  List.forall_mem_append

theorem Derives.legible {c : Category} {e : Expr} (h : Derives c n ts e) (hts : Worded ts)
    (hfinite : ∀ x ∈ e.numbers, x.isFinite) : e.Legible := by
  induction h with
  | expression _ ih | disjunctionOne _ ih | conjunctionOne _ ih | comparisonOne _ ih
  | sumOne _ ih | termOne _ ih | powerOne _ ih | exponent _ ih | unaryOne _ ih | operand _ ih =>
    exact ih hts hfinite
  | disjunction _ _ _ ihl ihr | conjunction _ _ _ ihl ihr | comparison _ _ _ _ ihl ihr
  | sum _ _ _ _ ihl ihr | term _ _ _ _ ihl ihr | power _ _ _ ihl ihr =>
    rw [worded_append, worded_cons] at hts
    rw [Expr.numbers, List.forall_mem_append] at hfinite
    exact ⟨ihl hts.1 hfinite.1, ihr hts.2.2 hfinite.2⟩
  | negate _ _ ih => exact ih (worded_cons.mp hts).2 hfinite
  | number => exact hfinite _ (List.mem_singleton_self _)
  | string => trivial
  | identifier ht => exact (worded_cons.mp hts).1 ht
  | group _ _ _ ih =>
    rw [worded_cons, worded_append] at hts
    exact ih hts.2.1 hfinite

/-- The phrase of one of the items stands among the tokens of all of them. -/
theorem Separated.exists_of_mem {α : Type} {item : List Token → α → Prop} {as : List α} {a : α}
    (h : Separated item ts as) (ha : a ∈ as) : ∃ us ⊆ ts, item us a := by
  induction h with
  | one hitem =>
    cases List.mem_singleton.mp ha
    exact ⟨_, List.Subset.refl _, hitem⟩
  | more hitem _ _ ih =>
    rcases List.mem_cons.mp ha with rfl | ha
    · exact ⟨_, List.subset_append_left .., hitem⟩
    · obtain ⟨us, hus, hitem'⟩ := ih ha
      exact ⟨us, List.subset_append_of_subset_right _ (List.subset_cons_of_subset _ hus), hitem'⟩

theorem Parenthesized.exists_of_mem {α : Type} {item : List Token → α → Prop} {as : List α} {a : α}
    (h : Parenthesized arity item ts as) (ha : a ∈ as) : ∃ us ⊆ ts, item us a := by
  cases h with
  | empty => cases ha
  | items _ has _ _ =>
    obtain ⟨us, hus, hitem⟩ := has.exists_of_mem ha
    exact ⟨us, List.subset_cons_of_subset _ (List.subset_append_of_subset_left _ hus), hitem⟩

theorem DerivesStatement.legible {s : Stmt} (h : DerivesStatement arity n ts s) (hts : Worded ts)
    (hfinite : ∀ e ∈ s.operands, ∀ x ∈ e.numbers, x.isFinite) : s.Legible := by
  cases h with
  | assign hname _ he _ _ =>
    simp only [worded_cons, worded_append] at hts
    have hvalue := he.legible hts.2.2.1 (hfinite _ List.mem_cons_self)
    exact ⟨by simpa [Stmt.names] using hts.1 hname, by simpa [Stmt.operands] using hvalue⟩
  | print _ he _ =>
    simp only [worded_cons, worded_append] at hts
    have hvalue := he.legible hts.2.1 (hfinite _ List.mem_cons_self)
    exact ⟨by simp [Stmt.names], by simpa [Stmt.operands] using hvalue⟩
  | input _ hname _ _ =>
    simp only [worded_cons, worded_append] at hts
    exact ⟨by simpa [Stmt.names] using hts.2.1 hname, by simp [Stmt.operands]⟩
  | branch hif =>
    cases hif with
    | mk _ he _ _ =>
      simp only [worded_cons, worded_append] at hts
      have hcondition := he.legible hts.2.1 (hfinite _ List.mem_cons_self)
      exact ⟨by simp [Stmt.names], by simpa [Stmt.operands] using hcondition⟩
  | loop _ hname _ hl _ hr _ =>
    simp only [worded_cons, worded_append] at hts
    have hstart := hl.legible hts.2.2.2.1 (hfinite _ List.mem_cons_self)
    have hstop := hr.legible hts.2.2.2.2.2.1 (hfinite _ (List.mem_cons_of_mem _ List.mem_cons_self))
    exact ⟨by simpa [Stmt.names] using hts.2.1 hname,
      by simpa [Stmt.operands] using ⟨hstart, hstop⟩⟩
  | rand _ hname _ hl _ hr _ =>
    simp only [worded_cons, worded_append] at hts
    have hleast := hl.legible hts.2.2.2.1 (hfinite _ List.mem_cons_self)
    have hgreatest :=
      hr.legible hts.2.2.2.2.2.1 (hfinite _ (List.mem_cons_of_mem _ List.mem_cons_self))
    exact ⟨by simpa [Stmt.names] using hts.2.1 hname,
      by simpa [Stmt.operands] using ⟨hleast, hgreatest⟩⟩
  | @define _ _ _ params _ _ _ _ _ _ hname hparams _ hresult _ =>
    simp only [worded_cons, worded_append] at hts
    have hwords : ∀ t ∈ params, IsWord t.lexeme := by
      intro t ht
      obtain ⟨_, hus, ⟨hshape⟩⟩ := hparams.exists_of_mem ht
      exact hts.2.2.1 t (hus (List.mem_singleton_self t)) hshape
    refine ⟨?_, by simp [Stmt.operands]⟩
    simpa [Stmt.names] using ⟨hts.2.1 hname, hts.2.2.2.2.1 hresult, hwords⟩
  | @call _ _ args _ _ _ _ hname hargs _ =>
    simp only [worded_cons, worded_append] at hts
    have hlegible : ∀ e ∈ args, e.Legible := by
      intro e he
      obtain ⟨us, hus, hderives⟩ := hargs.exists_of_mem he
      exact hderives.legible (fun t ht => hts.2.2.1 t (hus ht)) (hfinite e he)
    exact ⟨by simpa [Stmt.names] using hts.2.1 hname, hlegible⟩

theorem DerivesDeclaration.legible {d : Decl} (h : DerivesDeclaration n ts d) (hts : Worded ts)
    (hfinite : ∀ e ∈ d.operands, ∀ x ∈ e.numbers, x.isFinite) : d.Legible := by
  cases h with
  | program | author | date => exact ⟨nofun, nofun⟩
  | const _ hname _ he _ =>
    simp only [worded_cons, worded_append] at hts
    have hvalue := he.legible hts.2.2.2.1 (hfinite _ List.mem_cons_self)
    exact ⟨by simpa [Decl.names] using hts.2.1 hname, by simpa [Decl.operands] using hvalue⟩

/-- A phrase that stands among tokens has no other words than they. -/
theorem Stands.worded {phrase : List Token → Prop} {line : Nat} (h : Stands phrase line ts)
    (hts : Worded ts) : ∃ us, phrase us ∧ Worded us := by
  obtain ⟨before, t, us, after, rfl, hphrase, -⟩ := h
  simp only [worded_append, worded_cons] at hts
  exact ⟨t :: us, hphrase, worded_cons.mpr ⟨hts.2.1, hts.2.2.1⟩⟩

theorem DerivesProgram.legible {p : Program} (h : DerivesProgram arity n ts p) (hts : Worded ts)
    (hfinite : ∀ x ∈ p.numbers, x.isFinite) : p.Legible := by
  rw [Program.numbers, List.forall_mem_flatMap, List.forall_mem_append, List.forall_mem_flatMap,
    List.forall_mem_flatMap] at hfinite
  obtain ⟨hdeclarations, hstatements⟩ := h.all_stand
  constructor
  · intro d hd
    obtain ⟨us, hphrase, hus⟩ := (hdeclarations d hd).worded hts
    exact hphrase.legible hus (hfinite.1 d hd)
  · intro s hs
    obtain ⟨us, ⟨n, hphrase⟩, hus⟩ := (hstatements s hs).worded hts
    exact hphrase.legible hus (hfinite.2 s hs)

end Grammar

/-- A program that a text spells is legible if its literals are finite. -/
theorem Program.legible_of_source {source : String} {p : Program}
    (h : (Source.program source).result = .ok p) (hfinite : ∀ x ∈ p.numbers, x.isFinite) :
    p.Legible := by
  obtain ⟨ts, hscan, hderives⟩ := derives_of_program h
  have hall : Token.scanAll source = .ok ts := by
    rw [Token.scanAll, hscan, Token.collect_map_ok]
  obtain ⟨body, line, rfl, hbody⟩ := Token.spelled_of_scanAll hall
  refine hderives.legible (Grammar.Worded.of_spelled ?_) hfinite
  rw [List.forall_mem_append, List.forall_mem_singleton]
  exact ⟨fun t ht _ => (hbody t ht).2, fun h => absurd rfl h⟩

end DivisionScript
