import DivisionScript.Program.Basic

/-!
# Program — Bare

Programs without what only informs the reader. A bare expression has no parentheses, a bare
assignment no tag, and a bare program declares nothing but constants. The tree of an expression
says by its shape which operand belongs to which operator, so nothing is regrouped where a pair of
parentheses goes.
-/

namespace DivisionScript

/-- An expression without its parentheses. -/
def Expr.bare : Expr → Expr
  | .disjunction left right => .disjunction left.bare right.bare
  | .conjunction left right => .conjunction left.bare right.bare
  | .comparison left op right => .comparison left.bare op right.bare
  | .sum left op right => .sum left.bare op right.bare
  | .term left op right => .term left.bare op right.bare
  | .power base exponent => .power base.bare exponent.bare
  | .firstPower base => .firstPower base.bare
  | .negate operand => .negate operand.bare
  | .group inner => inner.bare
  | .number x => .number x
  | .string text => .string text
  | .identifier name => .identifier name

mutual

/-- A statement without tags and without the parentheses of its expressions. -/
def Stmt.bare : Stmt → Stmt
  | .assign line name value _ => .assign line name value.bare none
  | .print line value => .print line value.bare
  | .input line name prompt => .input line name prompt
  | .branch line condition thenBody elseBody =>
    .branch line condition.bare (bareEach thenBody) (bareEach elseBody)
  | .loop line name start stop body => .loop line name start.bare stop.bare (bareEach body)
  | .rand line name least greatest => .rand line name least.bare greatest.bare
  | .define line name params body result => .define line name params (bareEach body) result
  | .call line name args => .call line name (args.map Expr.bare)

/-- The statements of a body without tags and parentheses. -/
def bareEach : List Stmt → List Stmt
  | [] => []
  | s :: rest => s.bare :: bareEach rest

end

/-- The declaration of a constant without parentheses; other declarations are dropped. -/
def Decl.bare? : Decl → Option Decl
  | .const line name value => some (.const line name value.bare)
  | .program .. | .author .. | .date .. => none

/-- A program without tags, without parentheses and without declarations of other things than
constants. -/
def Program.bare (p : Program) : Program :=
  ⟨p.declarations.filterMap Decl.bare?, bareEach p.statements⟩

/-! ## A bare tree is left as it is -/

@[simp] theorem Expr.bare_bare (e : Expr) : e.bare.bare = e.bare := by
  induction e with
  | disjunction left right ihl ihr | conjunction left right ihl ihr
  | comparison left op right ihl ihr | sum left op right ihl ihr | term left op right ihl ihr
  | power left right ihl ihr => simp [bare, ihl, ihr]
  | firstPower e ih | negate e ih | group e ih => simp [bare, ih]
  | number | string | identifier => rfl

mutual

@[simp] theorem Stmt.bare_bare : (s : Stmt) → s.bare.bare = s.bare
  | .assign .. | .print .. | .input .. | .rand .. => by simp [Stmt.bare]
  | .branch line condition thenBody elseBody => by
    simp [Stmt.bare, bareEach_bareEach thenBody, bareEach_bareEach elseBody]
  | .loop line name start stop body => by simp [Stmt.bare, bareEach_bareEach body]
  | .define line name params body result => by simp [Stmt.bare, bareEach_bareEach body]
  | .call line name args => by simp [Stmt.bare]

@[simp] theorem bareEach_bareEach : (body : List Stmt) → bareEach (bareEach body) = bareEach body
  | [] => rfl
  | s :: rest => by simp [bareEach, Stmt.bare_bare s, bareEach_bareEach rest]

end

theorem Decl.filterMap_bare? (ds : List Decl) :
    (ds.filterMap bare?).filterMap bare? = ds.filterMap bare? := by
  induction ds with
  | nil => rfl
  | cons d rest ih => cases d <;> simp [List.filterMap_cons, bare?, ih]

@[simp] theorem Program.bare_bare (p : Program) : p.bare.bare = p.bare := by
  simp [bare, Decl.filterMap_bare?]

end DivisionScript
