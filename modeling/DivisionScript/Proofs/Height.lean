import DivisionScript.Proofs.Legible

/-!
# Height

How high the trees are that texts spell. The limit of levels bounds the height of a tree up to its
chains: `or`, `and`, the operators of sums and those of terms are read in a loop that opens no
level, and each of them puts one more node on the left side of the tree. If a chain of one of the
four connectives counts as one node, however long it is, no path from the root to a leaf has more
than seven nodes for each level and two for the program and its declaration. A sum of as many terms
as one likes shows that without this the height has no bound.
-/

namespace DivisionScript

open Grammar

/-! ## Paths in a tree -/

/-- The connectives that are read in a loop. -/
inductive Connective where
  | or | and | sum | term
deriving DecidableEq

/-- The connective of a chain. -/
def Expr.connective? : Expr → Option Connective
  | disjunction .. => some .or
  | conjunction .. => some .and
  | sum .. => some .sum
  | term .. => some .term
  | _ => none

/-- A node of a tree, with the part of the tree below it. -/
inductive Node where
  | program (p : Program)
  | declaration (d : Decl)
  | statement (s : Stmt)
  | expression (e : Expr)

/-- How a node hangs on the one above it. -/
inductive Joint where
  /-- It is the rest of the chain that ends above it. -/
  | link
  | branch
deriving DecidableEq

/-- How the left operand of a connective hangs on it. -/
def Expr.joint (left : Expr) (c : Connective) : Joint :=
  if left.connective? = some c then .link else .branch

/-- The statements directly inside a statement. -/
def Stmt.inner : Stmt → List Stmt
  | .branch _ _ thenBody elseBody => thenBody ++ elseBody
  | .loop _ _ _ _ body => body
  | .define _ _ _ body _ => body
  | _ => []

/-- The operands of an expression, and how they hang on it. -/
def Expr.operands : Expr → List (Joint × Expr)
  | .disjunction left right => [(left.joint .or, left), (.branch, right)]
  | .conjunction left right => [(left.joint .and, left), (.branch, right)]
  | .comparison left _ right => [(.branch, left), (.branch, right)]
  | .sum left _ right => [(left.joint .sum, left), (.branch, right)]
  | .term left _ right => [(left.joint .term, left), (.branch, right)]
  | .power base exponent => [(.branch, base), (.branch, exponent)]
  | .firstPower base => [(.branch, base)]
  | .negate operand => [(.branch, operand)]
  | .group inner => [(.branch, inner)]
  | .number _ | .string _ | .identifier _ => []

namespace Node

/-- The nodes directly below a node. -/
def children : Node → List (Joint × Node)
  | program p =>
    p.declarations.map (.branch, .declaration ·) ++ p.statements.map (.branch, .statement ·)
  | declaration d => d.operands.map (.branch, .expression ·)
  | statement s => s.operands.map (.branch, .expression ·) ++ s.inner.map (.branch, .statement ·)
  | expression e => e.operands.map fun (joint, operand) => (joint, .expression operand)

/-- The joints on a path from a node to a leaf. The path has one node more than it has joints. -/
inductive Descent : Node → List Joint → Prop
  | leaf {node : Node} (h : node.children = []) : Descent node []
  | down {node child : Node} {joint : Joint} {joints : List Joint}
      (h : (joint, child) ∈ node.children) (hrest : Descent child joints) :
      Descent node (joint :: joints)

/-- No path to a leaf has more than `k` nodes, if the nodes of a chain count as one. -/
def Within (k : Nat) (node : Node) : Prop :=
  ∀ joints, node.Descent joints → joints.count .branch + 1 ≤ k

variable {node : Node} {k m : Nat}

theorem Within.mono (h : node.Within k) (hle : k ≤ m) : node.Within m :=
  fun joints hjoints => (h joints hjoints).trans hle

/-- A node adds one to what is below its branches, and nothing to the rest of its chain. -/
theorem within_succ (hbranch : ∀ child, (.branch, child) ∈ node.children → child.Within k)
    (hlink : ∀ child, (.link, child) ∈ node.children → child.Within (k + 1)) :
    node.Within (k + 1) := by
  intro joints h
  cases h with
  | leaf => exact Nat.le_add_left 1 k
  | @down _ child joint joints hchild hrest =>
    cases joint with
    | link => simpa using hlink child hchild joints hrest
    | branch => simpa using hbranch child hchild joints hrest

end Node

/-- No path from the root of the expression has more than `k` nodes, up to chains. -/
abbrev Expr.Within (k : Nat) (e : Expr) : Prop :=
  (Node.expression e).Within k

/-- The same of a statement. -/
abbrev Stmt.Within (k : Nat) (s : Stmt) : Prop :=
  (Node.statement s).Within k

/-! ## What an operator adds -/

section operators

variable {e left right : Expr} {k : Nat} {c : Connective}

theorem Expr.within_succ (hbranch : ∀ operand, (.branch, operand) ∈ e.operands → operand.Within k)
    (hlink : ∀ operand, (.link, operand) ∈ e.operands → operand.Within (k + 1)) :
    e.Within (k + 1) := by
  refine Node.within_succ (fun child hchild => ?_) fun child hchild => ?_
  · obtain ⟨⟨_, operand⟩, hmem, heq⟩ := List.mem_map.mp hchild
    cases heq
    exact hbranch operand hmem
  · obtain ⟨⟨_, operand⟩, hmem, heq⟩ := List.mem_map.mp hchild
    cases heq
    exact hlink operand hmem

theorem Expr.within_leaf (h : e.operands = []) : e.Within (k + 1) :=
  within_succ (by simp [h]) (by simp [h])

theorem Expr.within_one (h : e.operands = [(.branch, right)]) (hright : right.Within k) :
    e.Within (k + 1) :=
  within_succ (by simpa [h] using hright) (by simp [h])

theorem Expr.within_two (h : e.operands = [(.branch, left), (.branch, right)])
    (hleft : left.Within k) (hright : right.Within k) : e.Within (k + 1) :=
  within_succ (by simpa [h] using ⟨hleft, hright⟩) (by simp [h])

/-- One more operand makes a chain no higher. -/
theorem Expr.within_chain (h : e.operands = [(left.joint c, left), (.branch, right)])
    (hleft : left.Within (k + 1)) (hother : left.connective? ≠ some c → left.Within k)
    (hright : right.Within k) : e.Within (k + 1) := by
  by_cases hc : left.connective? = some c
  · rw [Expr.joint, if_pos hc] at h
    exact within_succ (by simpa [h] using hright) (by simpa [h] using hleft)
  · rw [Expr.joint, if_neg hc] at h
    exact within_two h (hother hc) hright

theorem Stmt.within_succ {s : Stmt} (hoperands : ∀ e ∈ s.operands, e.Within k)
    (hinner : ∀ r ∈ s.inner, r.Within k) : s.Within (k + 1) := by
  refine Node.within_succ (fun child hchild => ?_) fun child hchild => ?_
  · simp only [Node.children, List.mem_append, List.mem_map, Prod.mk.injEq, true_and] at hchild
    rcases hchild with ⟨e, he, rfl⟩ | ⟨r, hr, rfl⟩
    · exact hoperands e he
    · exact hinner r hr
  · simp [Node.children] at hchild

end operators

/-! ## Expressions -/

/-- How loosely an expression binds: how many nodes may be on a path from it to the next level. -/
def Expr.looseness : Expr → Nat
  | disjunction .. => 7
  | conjunction .. => 6
  | comparison .. => 5
  | sum .. => 4
  | term .. => 3
  | power .. => 2
  | _ => 1

/-- How loosely the chains of a connective bind. -/
def Connective.looseness : Connective → Nat
  | or => 7
  | and => 6
  | sum => 4
  | term => 3

theorem Expr.looseness_lt {e : Expr} {c : Connective} (hle : e.looseness ≤ c.looseness)
    (hne : e.connective? ≠ some c) : e.looseness < c.looseness := by
  refine Nat.lt_of_le_of_ne hle fun hsame => ?_
  cases c <;> cases e <;> first | exact hne rfl | cases hsame

/-- The height of an expression, with `n` levels left inside it. -/
def Expr.Low (n : Nat) (e : Expr) : Prop :=
  e.Within (7 * n + e.looseness)

section low

variable {e left right : Expr} {n : Nat} {c : Connective}

theorem Expr.Low.within {k : Nat} (h : e.Low n) (hle : e.looseness ≤ k) :
    e.Within (7 * n + k) :=
  h.mono (Nat.add_le_add_left hle _)

/-- Joining another operand to a chain. -/
theorem Expr.Low.chain (h : e.operands = [(left.joint c, left), (.branch, right)])
    (he : e.looseness = c.looseness)
    (hleft : left.looseness ≤ c.looseness ∧ left.Low n)
    (hright : right.looseness < c.looseness ∧ right.Low n) : e.Low n := by
  obtain ⟨k, hk⟩ : ∃ k, c.looseness = k + 1 := by cases c <;> exact ⟨_, rfl⟩
  rw [Low, he, hk]
  refine within_chain h (hleft.2.within (hk ▸ hleft.1)) (fun hne => ?_) ?_
  · have hlt := looseness_lt hleft.1 hne
    exact hleft.2.within (by omega)
  · exact hright.2.within (by omega)

end low

namespace Grammar

/-- How loosely the phrases of a category may bind. -/
def Category.looseness : Category → Nat
  | expression | disjunction => 7
  | conjunction => 6
  | comparison => 5
  | sum => 4
  | term => 3
  | power | exponent => 2
  | unary | operand | primary => 1

/-- The levels that are left inside a phrase. -/
def Category.inside : Category → Nat → Nat
  | expression, n | exponent, n | operand, n => n - 1
  | _, n => n

/-- A phrase that opens a level stays below what the level pays for. -/
theorem Derives.within_level {c : Category} {n : Nat} {ts : List Token} {e : Expr}
    (h : Derives c n ts e) (hc : c = .expression ∨ c = .exponent ∨ c = .operand)
    (he : e.looseness ≤ c.looseness ∧ e.Low (c.inside n)) : e.Within (7 * n) := by
  have hlevel : c.inside n + 1 = n := by
    cases h with
    | expression | exponent | operand => rfl
    | _ => simp at hc
  have hloose : c.looseness ≤ 7 := by cases c <;> decide
  rw [← hlevel]
  exact he.2.within (he.1.trans hloose)

/-- An expression binds no more loosely than its category, and is as high as the levels inside it
and its looseness pay for. -/
theorem Derives.low {c : Category} {n : Nat} {ts : List Token} {e : Expr}
    (h : Derives c n ts e) : e.looseness ≤ c.looseness ∧ e.Low (c.inside n) := by
  induction h with
  | expression _ ih | exponent _ ih | operand _ ih => exact ih
  | disjunctionOne _ ih | conjunctionOne _ ih | comparisonOne _ ih | sumOne _ ih | termOne _ ih
  | powerOne _ ih | unaryOne _ ih => exact ⟨ih.1.trans (by decide), ih.2⟩
  | disjunction _ _ _ ihl ihr =>
    exact ⟨Nat.le_refl 7, .chain (c := .or) rfl rfl ihl ⟨Nat.lt_succ_of_le ihr.1, ihr.2⟩⟩
  | conjunction _ _ _ ihl ihr =>
    exact ⟨Nat.le_refl 6, .chain (c := .and) rfl rfl ihl ⟨Nat.lt_succ_of_le ihr.1, ihr.2⟩⟩
  | sum _ _ _ _ ihl ihr =>
    exact ⟨Nat.le_refl 4, .chain (c := .sum) rfl rfl ihl ⟨Nat.lt_succ_of_le ihr.1, ihr.2⟩⟩
  | term _ _ _ _ ihl ihr =>
    exact ⟨Nat.le_refl 3, .chain (c := .term) rfl rfl ihl ⟨Nat.lt_succ_of_le ihr.1, ihr.2⟩⟩
  | comparison _ _ _ _ ihl ihr =>
    exact ⟨Nat.le_refl 5, Expr.within_two rfl (ihl.2.within ihl.1) (ihr.2.within ihr.1)⟩
  | power _ _ hexponent ihb ihe =>
    have hraised := hexponent.within_level (.inr (.inl rfl)) ihe
    exact ⟨Nat.le_refl 2, Expr.within_two rfl (ihb.2.within ihb.1) (hraised.mono (Nat.le_succ _))⟩
  | negate _ hoperand ih =>
    exact ⟨Nat.le_refl 1, Expr.within_one rfl (hoperand.within_level (.inr (.inr rfl)) ih)⟩
  | group _ hinner _ ih =>
    exact ⟨Nat.le_refl 1, Expr.within_one rfl (hinner.within_level (.inl rfl) ih)⟩
  | number | string | identifier => exact ⟨Nat.le_refl 1, Expr.within_leaf rfl⟩

theorem Derives.within {n : Nat} {ts : List Token} {e : Expr} (h : Derives .expression n ts e) :
    e.Within (7 * n) :=
  h.within_level (.inl rfl) h.low

/-! ## Statements and programs -/

/-- A statement is higher by one than what is inside it, and opens a level, which pays for more. -/
theorem within_statement {s : Stmt} {n : Nat} (hoperands : ∀ e ∈ s.operands, e.Within (7 * n))
    (hinner : ∀ r ∈ s.inner, r.Within (7 * n)) : s.Within (7 * (n + 1)) :=
  (Stmt.within_succ hoperands hinner).mono (by omega)

-- A part's tree is smaller, or it is the same tree and the second component counts down to the list
-- of statements or to the `if` that spells it.
mutual

theorem DerivesStatement.within {arity n : Nat} {ts : List Token} {s : Stmt}
    (h : DerivesStatement arity n ts s) : s.Within (7 * n) := by
  match h with
  | .assign _ _ he _ _ => exact within_statement (List.forall_mem_singleton.mpr he.within) nofun
  | .print _ he _ => exact within_statement (List.forall_mem_singleton.mpr he.within) nofun
  | .input .. => exact within_statement nofun nofun
  | .branch hif =>
    have hbranch := DerivesIf.within hif
    exact hbranch.mono (by omega)
  | .loop _ _ _ hl _ hr hbody =>
    have hinner := DerivesBlock.within hbody
    refine within_statement ?_ hinner
    exact List.forall_mem_cons.mpr ⟨hl.within, List.forall_mem_singleton.mpr hr.within⟩
  | .rand _ _ _ hl _ hr _ =>
    refine within_statement ?_ nofun
    exact List.forall_mem_cons.mpr ⟨hl.within, List.forall_mem_singleton.mpr hr.within⟩
  | .define _ _ _ _ _ hbody =>
    have hinner := DerivesBlock.within hbody
    exact within_statement nofun hinner
  | .call _ _ hargs _ =>
    refine within_statement (fun e he => ?_) nofun
    obtain ⟨_, -, hderives⟩ := hargs.exists_of_mem he
    exact hderives.within
termination_by (sizeOf s, 1)

/-- A conditional that has not opened its level yet is higher by one than what is inside it. -/
theorem DerivesIf.within {arity n : Nat} {ts : List Token} {s : Stmt}
    (h : DerivesIf arity n ts s) : s.Within (7 * n + 1) := by
  match h with
  | .mk _ he hbody hother =>
    have hinner := DerivesBlock.within hbody
    have hrest := DerivesElse.within hother
    exact Stmt.within_succ (List.forall_mem_singleton.mpr he.within)
      (List.forall_mem_append.mpr ⟨hinner, hrest⟩)
termination_by (sizeOf s, 0)

theorem DerivesElse.within {arity n : Nat} {ts : List Token} {body : List Stmt}
    (h : DerivesElse arity n ts body) : ∀ s ∈ body, s.Within (7 * n) := by
  match h with
  | .absent => exact nofun
  | .block _ hbody => exact DerivesBlock.within hbody
  | .chained _ hif =>
    have hbranch := DerivesIf.within hif
    exact List.forall_mem_singleton.mpr (hbranch.mono (by omega))
termination_by (sizeOf body, 2)

theorem DerivesBlock.within {arity n : Nat} {ts : List Token} {body : List Stmt}
    (h : DerivesBlock arity n ts body) : ∀ s ∈ body, s.Within (7 * n) := by
  match h with
  | .mk _ hbody _ => exact DerivesStatements.within hbody
termination_by (sizeOf body, 1)

theorem DerivesStatements.within {arity n : Nat} {ts : List Token} {body : List Stmt}
    (h : DerivesStatements arity n ts body) : ∀ s ∈ body, s.Within (7 * n) := by
  match h with
  | .nil => exact nofun
  | .cons hs hrest =>
    exact List.forall_mem_cons.mpr ⟨DerivesStatement.within hs, DerivesStatements.within hrest⟩
termination_by (sizeOf body, 0)

end

variable {n : Nat} {ts : List Token}

theorem DerivesDeclaration.within {d : Decl} (h : DerivesDeclaration n ts d) :
    (Node.declaration d).Within (7 * n + 1) := by
  have hoperands : ∀ e ∈ d.operands, e.Within (7 * n) := by
    cases h with
    | program | author | date => exact nofun
    | const _ _ _ he _ => exact List.forall_mem_singleton.mpr he.within
  refine Node.within_succ (fun child hchild => ?_) fun child hchild => ?_
  · simp only [Node.children, List.mem_map, Prod.mk.injEq, true_and] at hchild
    obtain ⟨e, he, rfl⟩ := hchild
    exact hoperands e he
  · simp [Node.children] at hchild

theorem DerivesDeclarations.within {ds : List Decl} (h : DerivesDeclarations n ts ds) :
    ∀ d ∈ ds, (Node.declaration d).Within (7 * n + 1) := by
  induction h with
  | nil => exact nofun
  | cons hd _ ih => exact List.forall_mem_cons.mpr ⟨hd.within, ih⟩

theorem DerivesProgram.within {arity : Nat} {p : Program} (h : DerivesProgram arity n ts p) :
    (Node.program p).Within (7 * n + 2) := by
  cases h with
  | @mk _ _ ds body _ _ _ hstatic _ _ hbody _ =>
  have hdecls : ∀ d ∈ ds, (Node.declaration d).Within (7 * n + 1) := by
    cases hstatic with
    | absent => exact nofun
    | present _ _ hds => exact hds.within
  refine Node.within_succ (fun child hchild => ?_) fun child hchild => ?_
  · simp only [Node.children, List.mem_append, List.mem_map, Prod.mk.injEq, true_and] at hchild
    rcases hchild with ⟨d, hd, rfl⟩ | ⟨s, hs, rfl⟩
    · exact hdecls d hd
    · exact (DerivesStatements.within hbody s hs).mono (Nat.le_succ _)
  · simp [Node.children] at hchild

end Grammar

/-! ## Texts -/

/-- A lone expression is a phrase of the grammar, whatever comes after the first end of the text. -/
theorem Expr.derives_of_ofTokens {ts : List Token} {e : Expr} (h : Expr.ofTokens ts = .ok e) :
    ∃ us, Derives .expression maxNesting us e := by
  rw [Expr.ofTokens] at h
  split at h
  · cases h
  · obtain ⟨us, -, hderives⟩ := expression_sound (loneExpression_eq_ok.mp (ok_of_mapError h))
    exact ⟨us, hderives⟩

/-- The limit of levels bounds the height of the tree of every program that a text spells, and of
every expression that a list of tokens spells, if the nodes of a chain count as one. -/
theorem levels_bound_height :
    (∀ source p, (Source.program source).result = .ok p →
      (Node.program p).Within (7 * maxNesting + 2)) ∧
    ∀ ts e, Expr.ofTokens ts = .ok e → (Node.expression e).Within (7 * maxNesting) := by
  constructor
  · intro source p h
    obtain ⟨ts, -, hderives⟩ := derives_of_program h
    exact hderives.within
  · intro ts e h
    obtain ⟨us, hderives⟩ := Expr.derives_of_ofTokens h
    exact hderives.within

/-! ## Sums of any height -/

namespace Ones

/-- The number one, `k` times added to the number one. -/
def sum : Nat → Expr
  | 0 => .number (Number.ofDecimal (Number.natOfDigits ['1']) 0)
  | k + 1 => .sum (sum k) .add (.number (Number.ofDecimal (Number.natOfDigits ['1']) 0))

/-- How the sum is written. -/
def text : Nat → List Char
  | 0 => ['1']
  | k + 1 => '1' :: '+' :: text k

def one : Token :=
  ⟨.number (Number.ofDecimal (Number.natOfDigits ['1']) 0), "1", 1⟩

def plus : Token :=
  ⟨.symbol .plus, "+", 1⟩

def tokens : Nat → List Token
  | 0 => [one]
  | k + 1 => one :: plus :: tokens k

/-- A program that prints the sum. -/
def source (k : Nat) : String :=
  String.ofList ("dynamic division print ".toList ++ (text k ++ [';']))

theorem tokens_succ (k : Nat) : tokens (k + 1) = tokens k ++ plus :: [one] := by
  induction k with
  | zero => rfl
  | succ k ih =>
    calc tokens (k + 2) = one :: plus :: tokens (k + 1) := rfl
      _ = one :: plus :: (tokens k ++ plus :: [one]) := by rw [ih]

/-- The grammar takes the operands from the left, so the last one is added last. -/
theorem derives (n k : Nat) : Derives .sum n (tokens k) (sum k) := by
  have hone : Derives .term n [one] _ := .termOne (.powerOne (.unaryOne (.number rfl)))
  induction k with
  | zero => exact .sumOne hone
  | succ k ih =>
    rw [tokens_succ]
    exact .sum .add ih rfl hone

theorem scanFrom_text (k : Nat) :
    Token.scanFrom 1 (text k ++ [';']) =
      (tokens k ++ [(⟨.symbol .semicolon, ";", 1⟩ : Token), ⟨.endOfText, "", 1⟩]).map .ok := by
  induction k with
  | zero =>
    simp [text, tokens, one, Token.scanFrom, Token.lineFeeds, Piece.first, Piece.isSeparator,
      Piece.number, Piece.isWordStart, Piece.symbol?, Piece.cut, Symbol.spelling]
  | succ k ih =>
    have hpair (rest : List Char) : Token.scanFrom 1 ('1' :: '+' :: rest) =
        .ok one :: .ok plus :: Token.scanFrom 1 rest := by
      simp [one, plus, Token.scanFrom, Token.lineFeeds, Piece.first, Piece.isSeparator,
        Piece.number, Piece.isWordStart, Piece.symbol?, Piece.cut, Symbol.spelling]
    rw [text, tokens, List.cons_append, List.cons_append, hpair, ih]
    rfl

/-- The tokens of the program without the end of the text. -/
def body (k : Nat) : List Token :=
  ⟨.keyword .dynamic, "dynamic", 1⟩ :: ⟨.keyword .division, "division", 1⟩ ::
    (⟨.keyword .print, "print", 1⟩ :: (tokens k ++ [⟨.symbol .semicolon, ";", 1⟩]))

theorem scanAll_source (k : Nat) :
    Token.scanAll (source k) = .ok (body k ++ [⟨.endOfText, "", 1⟩]) := by
  have hwords (rest : List Char) :
      Token.scanFrom 1 ("dynamic division print ".toList ++ rest) =
        .ok ⟨.keyword .dynamic, "dynamic", 1⟩ :: .ok ⟨.keyword .division, "division", 1⟩ ::
          .ok ⟨.keyword .print, "print", 1⟩ :: Token.scanFrom 1 rest := by
    simp [Token.scanFrom, Token.lineFeeds, Piece.first, Piece.isSeparator, Piece.word,
      Piece.isWordStart, Piece.isWordPart, Piece.cut, Piece.wordKind, Keyword.ofSpelling?,
      Keyword.all, Keyword.spelling]
  have htext : (source k).toList = "dynamic division print ".toList ++ (text k ++ [';']) :=
    String.toList_ofList
  have hscan : Token.scan (source k) = (body k ++ [(⟨.endOfText, "", 1⟩ : Token)]).map .ok := by
    rw [Token.scan, htext, hwords, scanFrom_text]
    simp [body]
  rw [Token.scanAll, hscan]
  exact Token.collect_map_ok _

/-- The text is a program that prints the sum. -/
theorem program (k : Nat) : (Source.program (source k)).result = .ok ⟨[], [.print 1 (sum k)]⟩ := by
  have hvalue (n : Nat) : Derives .expression (n + 1) (tokens k) (sum k) :=
    .of_sum (derives n k)
  have hprint (n : Nat) : DerivesStatement maxArity (n + 2)
      (⟨.keyword .print, "print", 1⟩ :: (tokens k ++ [⟨.symbol .semicolon, ";", 1⟩])) _ :=
    .print rfl (hvalue n) rfl
  have hprogram (n : Nat) : DerivesProgram maxArity (n + 2)
      ([] ++ ⟨.keyword .dynamic, "dynamic", 1⟩ :: ⟨.keyword .division, "division", 1⟩ ::
        (_ ++ [⟨.endOfText, "", 1⟩])) _ :=
    .mk .absent rfl rfl (.cons (hprint n) .nil) rfl
  refine Source.program_of_derives (scanAll_source k) ?_
  have hderives : DerivesProgram maxArity maxNesting _ _ := hprogram (maxNesting - 2)
  simpa [body] using hderives

/-- The path to the first operand goes over all the others. -/
theorem descent (k : Nat) : ∃ joints, (Node.expression (sum k)).Descent joints ∧
    joints.length = k := by
  induction k with
  | zero => exact ⟨[], .leaf rfl, rfl⟩
  | succ k ih =>
    obtain ⟨joints, hjoints, hlength⟩ := ih
    exact ⟨_ :: joints, .down List.mem_cons_self hjoints, congrArg (· + 1) hlength⟩

end Ones

/-- A sum of three is printed: the path to its first operand has four joints, one of which goes on
along the chain. -/
theorem levels_bound_height_of_sum :
    (Source.program (Ones.source 2)).result = .ok ⟨[], [.print 1 (Ones.sum 2)]⟩ ∧
    (Node.program ⟨[], [.print 1 (Ones.sum 2)]⟩).Within 7170 ∧
    (Node.program ⟨[], [.print 1 (Ones.sum 2)]⟩).Descent [.branch, .branch, .link, .branch] := by
  refine ⟨Ones.program 2, levels_bound_height.1 _ _ (Ones.program 2), ?_⟩
  exact .down List.mem_cons_self <| .down List.mem_cons_self <| .down List.mem_cons_self <|
    .down List.mem_cons_self <| .leaf rfl

/-- No number bounds the nodes on the paths of all trees that texts spell: the terms of a sum open
no level. -/
theorem height_unbounded : ¬ ∃ bound, ∀ source p, (Source.program source).result = .ok p →
    ∀ joints, (Node.program p).Descent joints → joints.length + 1 ≤ bound := by
  rintro ⟨bound, h⟩
  obtain ⟨joints, hjoints, hlength⟩ := Ones.descent bound
  have hpath : (Node.program ⟨[], [.print 1 (Ones.sum bound)]⟩).Descent
      (.branch :: .branch :: joints) :=
    .down List.mem_cons_self (.down List.mem_cons_self hjoints)
  have hle := h _ _ (Ones.program bound) _ hpath
  simp only [List.length_cons, hlength] at hle
  omega

end DivisionScript
