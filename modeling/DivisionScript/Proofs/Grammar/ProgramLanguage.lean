import DivisionScript.Proofs.Grammar.StatementLanguage

/-!
# Grammar — Program language

The languages of declarations, of whole programs and of lone expressions, without the limits of
arity and levels.
-/

namespace DivisionScript.Grammar

open TokenKind Computability

/-- A phrase that has no limit of arity. -/
theorem mem_limitless_levels {α : Type} {phrase : Nat → List Token → α → Prop} {n : Nat}
    {ts : List Token} {a : α} (h : phrase n ts a) :
    ts.map Token.shape ∈ limitless fun _ => phrase :=
  mem_sentences ⟨0, n, h⟩

/-! ## Higher limits -/

section limits

variable {n m : Nat} {ts : List Token}

theorem DerivesDeclaration.mono {d : Decl} (hle : n ≤ m) (h : DerivesDeclaration n ts d) :
    DerivesDeclaration m ts d := by
  cases h with
  | program hword htext hstop => exact .program hword htext hstop
  | author hword htext hstop => exact .author hword htext hstop
  | date hword htext hstop => exact .date hword htext hstop
  | const hword hname hequals he hstop => exact .const hword hname hequals (he.mono hle) hstop

theorem DerivesDeclarations.mono {ds : List Decl} (hle : n ≤ m) (h : DerivesDeclarations n ts ds) :
    DerivesDeclarations m ts ds := by
  induction h with
  | nil => exact .nil
  | cons hd _ ih => exact .cons (hd.mono hle) ih

theorem DerivesStatic.mono {ds : List Decl} (hle : n ≤ m) (h : DerivesStatic n ts ds) :
    DerivesStatic m ts ds := by
  cases h with
  | absent => exact .absent
  | present hword hdivision hds => exact .present hword hdivision (hds.mono hle)

end limits

/-! ## Declarations -/

/-- What follows the first token of a declaration. -/
def declarationTail : Shape → Language Shape
  | .keyword .program | .keyword .author | .keyword .date =>
    token .string * token (.symbol .semicolon)
  | .keyword .const => token .identifier * (token (.symbol .equal) *
      (Category.expression.language * token (.symbol .semicolon)))
  | _ => 0

/-- The shapes of declarations. -/
abbrev declarationLanguage : Language Shape :=
  limitless fun _ => DerivesDeclaration

theorem DerivesDeclaration.mem {n : Nat} {ts : List Token} {d : Decl}
    (h : DerivesDeclaration n ts d) : ts.map Token.shape ∈ led declarationTail := by
  have hstring {text : Token} {name : String} (ht : text.kind = .string name) :
      text.shape = .string := by
    rw [Token.shape, ht]
    rfl
  cases h with
  | program hword htext hstop | author hword htext hstop | date hword htext hstop =>
    refine ⟨_, _, ?_, by rw [List.map_cons, hword]⟩
    rw [List.map_cons, List.map_singleton, hstring htext, hstop]
    exact cons_mem_token_mul rfl
  | const hword hname hequals he hstop =>
    refine ⟨.keyword .const, _, cons_mem_token_mul (cons_mem_token_mul
      (Language.append_mem_mul (Category.mem_language he) rfl)), ?_⟩
    simp [hword, hname, hequals, hstop]

theorem exists_declaration {s : Shape} {u : List Shape} (hu : u ∈ declarationTail s) :
    s :: u ∈ declarationLanguage := by
  obtain ⟨first, rfl⟩ := exists_token s
  obtain ⟨stop, hstop⟩ := exists_token (.symbol .semicolon)
  have hmetadata (hu : u ∈ token .string * token (.symbol .semicolon)) :
      u = [(⟨.string "", "", 0⟩ : Token), stop].map Token.shape := by
    obtain ⟨_, rfl, rfl⟩ := mem_token_mul.mp hu
    rw [List.map_cons, List.map_singleton, hstop]
    rfl
  rw [declarationTail.eq_def] at hu
  split at hu
  · next hfirst =>
    rw [hmetadata hu]
    exact mem_limitless_levels (DerivesDeclaration.program (n := 0) hfirst rfl hstop)
  · next hfirst =>
    rw [hmetadata hu]
    exact mem_limitless_levels (DerivesDeclaration.author (n := 0) hfirst rfl hstop)
  · next hfirst =>
    rw [hmetadata hu]
    exact mem_limitless_levels (DerivesDeclaration.date (n := 0) hfirst rfl hstop)
  · next hfirst =>
    obtain ⟨v, hv, rfl⟩ := mem_token_mul.mp hu
    obtain ⟨x, hx, rfl⟩ := mem_token_mul.mp hv
    obtain ⟨n, ts, e, he, _, rfl, rfl⟩ := exists_of_mem_expression hx
    obtain ⟨name, hname⟩ := exists_token .identifier
    obtain ⟨equals, hequals⟩ := exists_token (.symbol .equal)
    have hd : DerivesDeclaration n _ _ := .const hfirst hname hequals he hstop
    simpa [hname, hequals, hstop] using mem_limitless_levels hd
  · cases hu

theorem limitless_declaration : declarationLanguage = led declarationTail := by
  refine Language.ext fun w => ⟨?_, ?_⟩
  · rintro ⟨ts, d, ⟨arity, n, h⟩, rfl⟩
    exact h.mem
  · rintro ⟨s, u, hu, rfl⟩
    exact exists_declaration hu

theorem limitless_declarations :
    (limitless fun _ => DerivesDeclarations) = declarationLanguage∗ := by
  have hfilled : [] ∉ declarationLanguage := limitless_declaration ▸ nil_notMem_led _
  refine limitless_list hfilled (fun _ => DerivesDeclaration.mono)
    (fun _ => DerivesDeclarations.mono) .nil .cons fun h => ?_
  cases h with
  | nil => exact .inl rfl
  | cons hd hrest => exact .inr ⟨_, _, _, _, rfl, hd, hrest⟩

theorem limitless_static : (limitless fun _ => DerivesStatic) =
    1 + token (.keyword .static) * (token (.keyword .division) * declarationLanguage∗) := by
  rw [← limitless_declarations]
  refine Language.ext fun w => ⟨?_, ?_⟩
  · rintro ⟨ts, ds, ⟨arity, n, h⟩, rfl⟩
    cases h with
    | absent => exact .inl rfl
    | @present ts ds static division hstatic hdivision hds =>
      rw [List.map_cons, List.map_cons, hstatic, hdivision]
      exact .inr (cons_mem_token_mul (cons_mem_token_mul (mem_limitless_levels hds)))
  · rintro (rfl | hw)
    · exact mem_limitless_levels (DerivesStatic.absent (n := 0))
    · obtain ⟨u, hu, rfl⟩ := mem_token_mul.mp hw
      obtain ⟨_, ⟨ts, ds, ⟨arity, n, hds⟩, rfl⟩, rfl⟩ := mem_token_mul.mp hu
      obtain ⟨static, hstatic⟩ := exists_token (.keyword .static)
      obtain ⟨division, hdivision⟩ := exists_token (.keyword .division)
      have h : DerivesStatic n (static :: division :: ts) ds := .present hstatic hdivision hds
      simpa [hstatic, hdivision] using mem_limitless_levels h

/-! ## Whole texts -/

theorem limitless_program : limitless DerivesProgram = (limitless fun _ => DerivesStatic) *
    (token (.keyword .dynamic) * (token (.keyword .division) *
      ((limitless DerivesStatement)∗ * token .endOfText))) := by
  rw [← limitless_statements]
  refine Language.ext fun w => ⟨?_, fun hw => ?_⟩
  · rintro ⟨ts, p, ⟨arity, n, h⟩, rfl⟩
    cases h with
    | mk hds hdynamic hdivision hbody hstop =>
      rw [List.map_append, List.map_cons, List.map_cons, List.map_append, List.map_singleton,
        hdynamic, hdivision, hstop]
      exact Language.append_mem_mul (mem_limitless_levels hds) (cons_mem_token_mul
        (cons_mem_token_mul (Language.append_mem_mul (mem_limitless hbody) rfl)))
  · obtain ⟨_, ⟨ts, ds, ⟨_, n, hds⟩, rfl⟩, u, hu, rfl⟩ := Language.mem_mul.mp hw
    obtain ⟨v, hv, rfl⟩ := mem_token_mul.mp hu
    obtain ⟨x, hx, rfl⟩ := mem_token_mul.mp hv
    obtain ⟨_, ⟨us, body, ⟨arity, m, hbody⟩, rfl⟩, _, rfl, rfl⟩ := Language.mem_mul.mp hx
    obtain ⟨dynamic, hdynamic⟩ := exists_token (.keyword .dynamic)
    obtain ⟨division, hdivision⟩ := exists_token (.keyword .division)
    obtain ⟨stop, hstop⟩ := exists_token .endOfText
    have h : DerivesProgram arity (n + m) _ _ :=
      .mk (hds.mono (by omega)) hdynamic hdivision (hbody.mono (Nat.le_refl _) (by omega)) hstop
    simpa [hdynamic, hdivision, hstop] using mem_limitless h

/-- The shapes of lone expressions. -/
abbrev loneLanguage : Language Shape :=
  sentences fun ts e => ∃ n, DerivesLone n ts e

theorem loneLanguage_eq : loneLanguage = Category.expression.language * token .endOfText := by
  refine Language.ext fun w => ⟨?_, fun hw => ?_⟩
  · rintro ⟨ts, e, ⟨n, h⟩, rfl⟩
    cases h with
    | mk he hstop =>
      rw [List.map_append, List.map_singleton, hstop]
      exact Language.append_mem_mul (Category.mem_language he) rfl
  · obtain ⟨n, ts, e, he, _, rfl, rfl⟩ := exists_of_mem_expression hw
    obtain ⟨stop, hstop⟩ := exists_token .endOfText
    have h : DerivesLone n (ts ++ [stop]) e := .mk he hstop
    rw [← hstop, ← List.map_singleton, ← List.map_append]
    exact ⟨_, e, ⟨n, h⟩, rfl⟩

end DivisionScript.Grammar
