import DivisionScript.Grammar.Statement

/-!
# Grammar — Derivation

The grammar of programs as a relation between token lists and trees: one constructor for each
production, and no order in which anything is read. Chains of operators are left-recursive, which
is what makes their trees group to the left; the exponent is a power again, which makes powers
group to the right.

Two limits are arguments. `arity` bounds the parameters of a function and the arguments of a call.
`n` bounds how many of the rules that can contain themselves — a statement, an expression, an
exponent, the operand of a minus sign — are open at once: only the productions of these four lead
from `n` to `n + 1`.
-/

namespace DivisionScript

/-- The symbol of a comparison. -/
def Comparison.symbol : Comparison → Symbol
  | equal => .equalEqual | notEqual => .bangEqual | less => .less | greater => .greater
  | lessEqual => .lessEqual | greaterEqual => .greaterEqual

/-- The symbol of an operator of sums. -/
def SumOp.symbol : SumOp → Symbol
  | add => .plus | sub => .minus

/-- The symbol of an operator of terms. -/
def TermOp.symbol : TermOp → Symbol
  | mul => .star | div => .slash

/-- The keyword of a type tag. -/
def TypeTag.keyword : TypeTag → Keyword
  | number => .number | string => .string

namespace Grammar

/-- The categories of expressions, from the loosest to the tightest. -/
inductive Category where
  | expression | disjunction | conjunction | comparison | sum | term | power
  /-- What stands to the right of a caret. -/
  | exponent
  | unary
  /-- What stands to the right of a minus sign. -/
  | operand
  | primary

/-- `Derives c n ts e`: the tokens `ts` are a phrase of the category `c` whose tree is `e`, with
never more than `n` self-containing rules open at once. -/
inductive Derives : Category → Nat → List Token → Expr → Prop
  | expression {n ts e} : Derives .disjunction n ts e → Derives .expression (n + 1) ts e
  | disjunctionOne {n ts e} : Derives .conjunction n ts e → Derives .disjunction n ts e
  | disjunction {n ts us l r} {t : Token} : Derives .disjunction n ts l →
      t.shape = .keyword .or → Derives .conjunction n us r →
      Derives .disjunction n (ts ++ t :: us) (.disjunction l r)
  | conjunctionOne {n ts e} : Derives .comparison n ts e → Derives .conjunction n ts e
  | conjunction {n ts us l r} {t : Token} : Derives .conjunction n ts l →
      t.shape = .keyword .and → Derives .comparison n us r →
      Derives .conjunction n (ts ++ t :: us) (.conjunction l r)
  | comparisonOne {n ts e} : Derives .sum n ts e → Derives .comparison n ts e
  | comparison {n ts us l r} {t : Token} (op : Comparison) : Derives .sum n ts l →
      t.shape = .symbol op.symbol → Derives .sum n us r →
      Derives .comparison n (ts ++ t :: us) (.comparison l op r)
  | sumOne {n ts e} : Derives .term n ts e → Derives .sum n ts e
  | sum {n ts us l r} {t : Token} (op : SumOp) : Derives .sum n ts l →
      t.shape = .symbol op.symbol → Derives .term n us r →
      Derives .sum n (ts ++ t :: us) (.sum l op r)
  | termOne {n ts e} : Derives .power n ts e → Derives .term n ts e
  | term {n ts us l r} {t : Token} (op : TermOp) : Derives .term n ts l →
      t.shape = .symbol op.symbol → Derives .power n us r →
      Derives .term n (ts ++ t :: us) (.term l op r)
  | powerOne {n ts e} : Derives .unary n ts e → Derives .power n ts e
  | power {n ts us b e} {t : Token} : Derives .unary n ts b →
      t.shape = .symbol .caret → Derives .exponent n us e →
      Derives .power n (ts ++ t :: us) (.power b e)
  | exponent {n ts e} : Derives .power n ts e → Derives .exponent (n + 1) ts e
  | unaryOne {n ts e} : Derives .primary n ts e → Derives .unary n ts e
  | negate {n ts e} {t : Token} : t.shape = .symbol .minus → Derives .operand n ts e →
      Derives .unary n (t :: ts) (.negate e)
  | operand {n ts e} : Derives .unary n ts e → Derives .operand (n + 1) ts e
  | number {n x} {t : Token} : t.kind = .number x → Derives .primary n [t] (.number x)
  | string {n text} {t : Token} : t.kind = .string text → Derives .primary n [t] (.string text)
  | identifier {n} {t : Token} : t.shape = .identifier →
      Derives .primary n [t] (.identifier t.lexeme)
  | group {n ts e} {opening closing : Token} : opening.shape = .symbol .leftParen →
      Derives .expression n ts e → closing.shape = .symbol .rightParen →
      Derives .primary n (opening :: (ts ++ [closing])) (.group e)

theorem Derives.of_sum {n : Nat} {ts : List Token} {e : Expr} (h : Derives .sum n ts e) :
    Derives .expression (n + 1) ts e :=
  .expression (.disjunctionOne (.conjunctionOne (.comparisonOne h)))

theorem Derives.of_unary {n : Nat} {ts : List Token} {e : Expr} (h : Derives .unary n ts e) :
    Derives .expression (n + 1) ts e :=
  .of_sum (.sumOne (.termOne (.powerOne h)))

/-- A lone expression: an expression and the end of the text. -/
inductive DerivesLone (n : Nat) : List Token → Expr → Prop
  | mk {ts e} {stop : Token} : Derives .expression n ts e → stop.shape = .endOfText →
      DerivesLone n (ts ++ [stop]) e

/-- One or more items with a comma between each two. -/
inductive Separated {α : Type} (item : List Token → α → Prop) : List Token → List α → Prop
  | one {ts a} : item ts a → Separated item ts [a]
  | more {ts us a as} {t : Token} : item ts a → t.shape = .symbol .comma →
      Separated item us as → Separated item (ts ++ t :: us) (a :: as)

/-- Items between parentheses with a comma between each two, or none, and not too many. -/
inductive Parenthesized {α : Type} (arity : Nat) (item : List Token → α → Prop) :
    List Token → List α → Prop
  | empty {opening closing : Token} : opening.shape = .symbol .leftParen →
      closing.shape = .symbol .rightParen → Parenthesized arity item [opening, closing] []
  | items {ts as} {opening closing : Token} : opening.shape = .symbol .leftParen →
      Separated item ts as → as.length ≤ arity → closing.shape = .symbol .rightParen →
      Parenthesized arity item (opening :: (ts ++ [closing])) as

/-- A single identifier. -/
inductive Identifier : List Token → Token → Prop
  | mk {t : Token} : t.shape = .identifier → Identifier [t] t

/-- The optional prompt of an input. -/
inductive DerivesPrompt : List Token → String → Prop
  | absent : DerivesPrompt [] ""
  | present {text} {t : Token} : t.kind = .string text → DerivesPrompt [t] text

/-- The optional tag of an assignment. -/
inductive DerivesTag : List Token → Option TypeTag → Prop
  | absent : DerivesTag [] none
  | present {word kind : Token} (tag : TypeTag) : word.shape = .keyword .as →
      kind.shape = .keyword tag.keyword → DerivesTag [word, kind] (some tag)

mutual

/-- `DerivesStatement arity n ts s`: the tokens `ts` are a statement whose tree is `s`. Its line is
that of its first token. -/
inductive DerivesStatement (arity : Nat) : Nat → List Token → Stmt → Prop
  | assign {n ts us e tag} {name equals stop : Token} : name.shape = .identifier →
      equals.shape = .symbol .equal → Derives .expression n ts e → DerivesTag us tag →
      stop.shape = .symbol .semicolon →
      DerivesStatement arity (n + 1) (name :: equals :: (ts ++ (us ++ [stop])))
        (.assign name.line name.lexeme e tag)
  | print {n ts e} {word stop : Token} : word.shape = .keyword .print →
      Derives .expression n ts e → stop.shape = .symbol .semicolon →
      DerivesStatement arity (n + 1) (word :: (ts ++ [stop])) (.print word.line e)
  | input {n ts prompt} {word name stop : Token} : word.shape = .keyword .input →
      name.shape = .identifier → DerivesPrompt ts prompt → stop.shape = .symbol .semicolon →
      DerivesStatement arity (n + 1) (word :: name :: (ts ++ [stop]))
        (.input word.line name.lexeme prompt)
  | branch {n ts s} : DerivesIf arity n ts s → DerivesStatement arity (n + 1) ts s
  | loop {n ts us vs l r body} {word name fromWord toWord : Token} : word.shape = .keyword .loop →
      name.shape = .identifier → fromWord.shape = .keyword .fromWord →
      Derives .expression n ts l → toWord.shape = .keyword .toWord →
      Derives .expression n us r → DerivesBlock arity n vs body →
      DerivesStatement arity (n + 1) (word :: name :: fromWord :: (ts ++ toWord :: (us ++ vs)))
        (.loop word.line name.lexeme l r body)
  | rand {n ts us l r} {word name fromWord toWord stop : Token} : word.shape = .keyword .rand →
      name.shape = .identifier → fromWord.shape = .keyword .fromWord →
      Derives .expression n ts l → toWord.shape = .keyword .toWord →
      Derives .expression n us r → stop.shape = .symbol .semicolon →
      DerivesStatement arity (n + 1) (word :: name :: fromWord :: (ts ++ toWord :: (us ++ [stop])))
        (.rand word.line name.lexeme l r)
  | define {n ts us params body} {word name returns result : Token} : word.shape = .keyword .func →
      name.shape = .identifier → Parenthesized arity Identifier ts params →
      returns.shape = .keyword .returns → result.shape = .identifier →
      DerivesBlock arity n us body →
      DerivesStatement arity (n + 1) (word :: name :: (ts ++ returns :: result :: us))
        (.define word.line name.lexeme (params.map Token.lexeme) body result.lexeme)
  | call {n ts args} {word name stop : Token} : word.shape = .keyword .call →
      name.shape = .identifier → Parenthesized arity (Derives .expression n) ts args →
      stop.shape = .symbol .semicolon →
      DerivesStatement arity (n + 1) (word :: name :: (ts ++ [stop]))
        (.call word.line name.lexeme args)

/-- A conditional, without the level that it opens as a statement. -/
inductive DerivesIf (arity : Nat) : Nat → List Token → Stmt → Prop
  | mk {n ts us vs e body other} {word : Token} : word.shape = .keyword .ifWord →
      Derives .expression n ts e → DerivesBlock arity n us body → DerivesElse arity n vs other →
      DerivesIf arity n (word :: (ts ++ (us ++ vs))) (.branch word.line e body other)

/-- The optional second branch of a conditional; a further conditional is its only statement. -/
inductive DerivesElse (arity : Nat) : Nat → List Token → List Stmt → Prop
  | absent {n} : DerivesElse arity n [] []
  | block {n ts body} {word : Token} : word.shape = .keyword .elseWord →
      DerivesBlock arity n ts body → DerivesElse arity n (word :: ts) body
  | chained {n ts s} {word : Token} : word.shape = .keyword .elseWord → DerivesIf arity n ts s →
      DerivesElse arity (n + 1) (word :: ts) [s]

/-- Statements between braces. -/
inductive DerivesBlock (arity : Nat) : Nat → List Token → List Stmt → Prop
  | mk {n ts body} {opening closing : Token} : opening.shape = .symbol .leftBrace →
      DerivesStatements arity n ts body → closing.shape = .symbol .rightBrace →
      DerivesBlock arity n (opening :: (ts ++ [closing])) body

/-- Statements one after another. -/
inductive DerivesStatements (arity : Nat) : Nat → List Token → List Stmt → Prop
  | nil {n} : DerivesStatements arity n [] []
  | cons {n ts us s rest} : DerivesStatement arity n ts s → DerivesStatements arity n us rest →
      DerivesStatements arity n (ts ++ us) (s :: rest)

end

/-- A declaration. Its line is that of its first token. -/
inductive DerivesDeclaration (n : Nat) : List Token → Decl → Prop
  | program {name} {word text stop : Token} : word.shape = .keyword .program →
      text.kind = .string name → stop.shape = .symbol .semicolon →
      DerivesDeclaration n [word, text, stop] (.program word.line name)
  | author {name} {word text stop : Token} : word.shape = .keyword .author →
      text.kind = .string name → stop.shape = .symbol .semicolon →
      DerivesDeclaration n [word, text, stop] (.author word.line name)
  | date {shown} {word text stop : Token} : word.shape = .keyword .date →
      text.kind = .string shown → stop.shape = .symbol .semicolon →
      DerivesDeclaration n [word, text, stop] (.date word.line shown)
  | const {ts e} {word name equals stop : Token} : word.shape = .keyword .const →
      name.shape = .identifier → equals.shape = .symbol .equal → Derives .expression n ts e →
      stop.shape = .symbol .semicolon →
      DerivesDeclaration n (word :: name :: equals :: (ts ++ [stop]))
        (.const word.line name.lexeme e)

/-- Declarations one after another. -/
inductive DerivesDeclarations (n : Nat) : List Token → List Decl → Prop
  | nil : DerivesDeclarations n [] []
  | cons {ts us d rest} : DerivesDeclaration n ts d → DerivesDeclarations n us rest →
      DerivesDeclarations n (ts ++ us) (d :: rest)

/-- The optional static division. -/
inductive DerivesStatic (n : Nat) : List Token → List Decl → Prop
  | absent : DerivesStatic n [] []
  | present {ts ds} {static division : Token} : static.shape = .keyword .static →
      division.shape = .keyword .division → DerivesDeclarations n ts ds →
      DerivesStatic n (static :: division :: ts) ds

/-- A whole program: its two divisions and the end of the text. -/
inductive DerivesProgram (arity n : Nat) : List Token → Program → Prop
  | mk {ts us ds body} {dynamic division stop : Token} : DerivesStatic n ts ds →
      dynamic.shape = .keyword .dynamic → division.shape = .keyword .division →
      DerivesStatements arity n us body → stop.shape = .endOfText →
      DerivesProgram arity n (ts ++ dynamic :: division :: (us ++ [stop])) ⟨ds, body⟩

end Grammar

end DivisionScript
