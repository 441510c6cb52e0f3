import DivisionScript.Program.Basic

/-!
# Program — Rename

Programs with other names. Names are given to functions and to what is bound to a value: variables,
constants, counters of loops, parameters and results. The two kinds can be renamed apart from each
other; strings, prompts and what a program says about itself are no names.
-/

namespace DivisionScript

/-- Other names for functions, and for what is bound to a value. -/
structure Renaming where
  routines : String → String
  bindings : String → String

namespace Renaming

/-- Every name is replaced, whatever it names. -/
def all (r : String → String) : Renaming :=
  ⟨r, r⟩

/-- Only functions get other names. -/
def onlyRoutines (r : String → String) : Renaming :=
  ⟨r, id⟩

end Renaming

/-- An expression with its names replaced. -/
def Expr.rename (r : String → String) : Expr → Expr
  | .disjunction left right => .disjunction (left.rename r) (right.rename r)
  | .conjunction left right => .conjunction (left.rename r) (right.rename r)
  | .comparison left op right => .comparison (left.rename r) op (right.rename r)
  | .sum left op right => .sum (left.rename r) op (right.rename r)
  | .term left op right => .term (left.rename r) op (right.rename r)
  | .power base exponent => .power (base.rename r) (exponent.rename r)
  | .firstPower base => .firstPower (base.rename r)
  | .negate operand => .negate (operand.rename r)
  | .group inner => .group (inner.rename r)
  | .number x => .number x
  | .string text => .string text
  | .identifier name => .identifier (r name)

mutual

/-- A statement with its names replaced. -/
def Stmt.rename (ρ : Renaming) : Stmt → Stmt
  | .assign line name value tag => .assign line (ρ.bindings name) (value.rename ρ.bindings) tag
  | .print line value => .print line (value.rename ρ.bindings)
  | .input line name prompt => .input line (ρ.bindings name) prompt
  | .branch line condition thenBody elseBody =>
    .branch line (condition.rename ρ.bindings) (renameEach ρ thenBody) (renameEach ρ elseBody)
  | .loop line name start stop body =>
    .loop line (ρ.bindings name) (start.rename ρ.bindings) (stop.rename ρ.bindings)
      (renameEach ρ body)
  | .rand line name least greatest =>
    .rand line (ρ.bindings name) (least.rename ρ.bindings) (greatest.rename ρ.bindings)
  | .define line name params body result =>
    .define line (ρ.routines name) (params.map ρ.bindings) (renameEach ρ body)
      (ρ.bindings result)
  | .call line name args => .call line (ρ.routines name) (args.map (Expr.rename ρ.bindings))

/-- The statements of a body with their names replaced. -/
def renameEach (ρ : Renaming) : List Stmt → List Stmt
  | [] => []
  | s :: rest => s.rename ρ :: renameEach ρ rest

end

/-- A declaration with the names of constants replaced. -/
def Decl.rename (ρ : Renaming) : Decl → Decl
  | .const line name value => .const line (ρ.bindings name) (value.rename ρ.bindings)
  | d => d

/-- A program with its names replaced. -/
def Program.rename (ρ : Renaming) (p : Program) : Program :=
  ⟨p.declarations.map (Decl.rename ρ), renameEach ρ p.statements⟩

@[simp] theorem length_renameEach (ρ : Renaming) (body : List Stmt) :
    (renameEach ρ body).length = body.length := by
  induction body with
  | nil => rfl
  | cons s rest ih => rw [renameEach, List.length_cons, List.length_cons, ih]

/-! ## Which names count -/

/-- The names in an expression. -/
def Expr.names : Expr → List String
  | .disjunction left right => left.names ++ right.names
  | .conjunction left right => left.names ++ right.names
  | .comparison left _ right => left.names ++ right.names
  | .sum left _ right => left.names ++ right.names
  | .term left _ right => left.names ++ right.names
  | .power base exponent => base.names ++ exponent.names
  | .firstPower base => base.names
  | .negate operand => operand.names
  | .group inner => inner.names
  | .number _ => []
  | .string _ => []
  | .identifier name => [name]

mutual

/-- The names in a statement that are not given to functions. -/
def Stmt.boundNames : Stmt → List String
  | .assign _ name value _ => name :: value.names
  | .print _ value => value.names
  | .input _ name _ => [name]
  | .branch _ condition thenBody elseBody =>
    condition.names ++ (boundNamesOfEach thenBody ++ boundNamesOfEach elseBody)
  | .loop _ name start stop body => name :: (start.names ++ (stop.names ++ boundNamesOfEach body))
  | .rand _ name least greatest => name :: (least.names ++ greatest.names)
  | .define _ _ params body result => result :: (params ++ boundNamesOfEach body)
  | .call _ _ args => args.flatMap Expr.names

/-- The names in the statements of a body that are not given to functions. -/
def boundNamesOfEach : List Stmt → List String
  | [] => []
  | s :: rest => s.boundNames ++ boundNamesOfEach rest

end

/-- The names in a declaration. -/
def Decl.boundNames : Decl → List String
  | .const _ name value => name :: value.names
  | .program .. | .author .. | .date .. => []

/-- The names in a program that are not given to functions. -/
def Program.boundNames (p : Program) : List String :=
  p.declarations.flatMap Decl.boundNames ++ boundNamesOfEach p.statements

section congruence

variable {q r r' : String → String}

/-- Only the names in an expression count. -/
theorem Expr.rename_congr (e : Expr) (h : ∀ name ∈ e.names, r name = r' name) :
    e.rename r = e.rename r' := by
  induction e with
  | disjunction left right ihl ihr | conjunction left right ihl ihr
  | comparison left op right ihl ihr | sum left op right ihl ihr | term left op right ihl ihr
  | power left right ihl ihr =>
    rw [names, List.forall_mem_append] at h
    rw [rename, rename, ihl h.1, ihr h.2]
  | firstPower e ih | negate e ih | group e ih => rw [rename, rename, ih h]
  | number | string => rfl
  | identifier name => rw [rename, rename, h name (List.mem_singleton_self name)]

mutual

/-- Where only some names are replaced differently, those in a statement count. -/
theorem Stmt.rename_congr : (s : Stmt) → (∀ name ∈ s.boundNames, r name = r' name) →
    s.rename ⟨q, r⟩ = s.rename ⟨q, r'⟩
  | .assign line name value tag => by
    intro h
    rw [Stmt.boundNames, List.forall_mem_cons] at h
    simp only [Stmt.rename, h.1, value.rename_congr h.2]
  | .print line value => by
    intro h
    simp only [Stmt.rename, value.rename_congr h]
  | .input line name prompt => by
    intro h
    simp only [Stmt.rename, h name (List.mem_singleton_self name)]
  | .branch line condition thenBody elseBody => by
    intro h
    rw [Stmt.boundNames, List.forall_mem_append, List.forall_mem_append] at h
    obtain ⟨hcondition, hthen, helse⟩ := h
    simp only [Stmt.rename, condition.rename_congr hcondition, renameEach_congr thenBody hthen,
      renameEach_congr elseBody helse]
  | .loop line name start stop body => by
    intro h
    rw [Stmt.boundNames, List.forall_mem_cons, List.forall_mem_append, List.forall_mem_append] at h
    obtain ⟨hname, hstart, hstop, hbody⟩ := h
    simp only [Stmt.rename, hname, start.rename_congr hstart, stop.rename_congr hstop,
      renameEach_congr body hbody]
  | .rand line name least greatest => by
    intro h
    rw [Stmt.boundNames, List.forall_mem_cons, List.forall_mem_append] at h
    simp only [Stmt.rename, h.1, least.rename_congr h.2.1, greatest.rename_congr h.2.2]
  | .define line name params body result => by
    intro h
    rw [Stmt.boundNames, List.forall_mem_cons, List.forall_mem_append] at h
    obtain ⟨hresult, hparams, hbody⟩ := h
    simp only [Stmt.rename, hresult, List.map_congr_left hparams, renameEach_congr body hbody]
  | .call line name args => by
    intro h
    have hargs : args.map (Expr.rename r) = args.map (Expr.rename r') := by
      refine List.map_congr_left fun e he => e.rename_congr fun name hname => ?_
      exact h name (List.mem_flatMap.mpr ⟨e, he, hname⟩)
    simp only [Stmt.rename, hargs]

theorem renameEach_congr : (body : List Stmt) →
    (∀ name ∈ boundNamesOfEach body, r name = r' name) →
      renameEach ⟨q, r⟩ body = renameEach ⟨q, r'⟩ body
  | [] => fun _ => rfl
  | s :: rest => by
    intro h
    rw [boundNamesOfEach, List.forall_mem_append] at h
    rw [renameEach, renameEach, Stmt.rename_congr s h.1, renameEach_congr rest h.2]

end

theorem Decl.rename_congr (d : Decl) (h : ∀ name ∈ d.boundNames, r name = r' name) :
    d.rename ⟨q, r⟩ = d.rename ⟨q, r'⟩ := by
  cases d with
  | program | author | date => rfl
  | const line name value =>
    rw [boundNames, List.forall_mem_cons] at h
    simp only [rename, h.1, value.rename_congr h.2]

theorem Program.rename_congr (p : Program) (h : ∀ name ∈ p.boundNames, r name = r' name) :
    p.rename ⟨q, r⟩ = p.rename ⟨q, r'⟩ := by
  rw [boundNames, List.forall_mem_append] at h
  rw [rename, rename, renameEach_congr p.statements h.2]
  refine congrArg (Program.mk · _) (List.map_congr_left fun d hd => ?_)
  exact d.rename_congr fun name hname => h.1 name (List.mem_flatMap.mpr ⟨d, hd, hname⟩)

end congruence

end DivisionScript
