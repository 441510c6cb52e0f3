import DivisionScript.Grammar.Rule
import DivisionScript.Program.Basic

/-!
# Grammar — Expression

The rules of expressions, from the loosest to the tightest:

```text
expression  → disjunction
disjunction → conjunction ( "or" conjunction )*
conjunction → comparison ( "and" comparison )*
comparison  → sum ( ( "==" | "!=" | "<" | ">" | "<=" | ">=" ) sum )?
sum         → term ( ( "+" | "-" ) term )*
term        → power ( ( "*" | "/" ) power )*
power       → unary ( "^" power )?
unary       → "-" unary | primary
primary     → NUMBER | STRING | IDENTIFIER | "(" expression ")"
```

An expression, an exponent and the operand of a minus sign each open one level of nesting; the
first argument of these three rules is how many levels may still be opened.
-/

namespace DivisionScript.Grammar

/-- Extends an expression to the left by operators and operands, as long as an operator follows. -/
def chainFrom (operand : Rule Expr) (operator : TokenKind.Shape → Option (Expr → Expr → Expr))
    (left : Expr) : OptionalRule Expr
  | [] => .ok (.nothing left [])
  | t :: rest =>
    match operator t.shape with
    | none => .ok (.nothing left (t :: rest))
    | some combine => do
      let right ← operand rest
      have : right.rest.length < (t :: rest).length := Nat.lt_succ_of_lt right.shorter
      let whole ← chainFrom operand operator (combine left right.value) right.rest
      .ok ((right.afterOptional whole).behind t).loosen
termination_by ts => ts.length
decreasing_by exact this

/-- Operands with operators between them, grouped to the left. -/
def chain (operand : Rule Expr) (operator : TokenKind.Shape → Option (Expr → Expr → Expr)) :
    Rule Expr := fun ts => do
  let first ← operand ts
  first.nextOptional (chainFrom operand operator first.value)

/-- The operator of a disjunction. -/
def disjunctionOperator : TokenKind.Shape → Option (Expr → Expr → Expr)
  | .keyword .or => some .disjunction
  | _ => none

/-- The operator of a conjunction. -/
def conjunctionOperator : TokenKind.Shape → Option (Expr → Expr → Expr)
  | .keyword .and => some .conjunction
  | _ => none

/-- The operators of a comparison. -/
def comparisonOperator : TokenKind.Shape → Option Comparison
  | .symbol .equalEqual => some .equal
  | .symbol .bangEqual => some .notEqual
  | .symbol .less => some .less
  | .symbol .greater => some .greater
  | .symbol .lessEqual => some .lessEqual
  | .symbol .greaterEqual => some .greaterEqual
  | _ => none

/-- The operators of a sum. -/
def sumOperator : TokenKind.Shape → Option (Expr → Expr → Expr)
  | .symbol .plus => some (.sum · .add ·)
  | .symbol .minus => some (.sum · .sub ·)
  | _ => none

/-- The operators of a term. -/
def termOperator : TokenKind.Shape → Option (Expr → Expr → Expr)
  | .symbol .star => some (.term · .mul ·)
  | .symbol .slash => some (.term · .div ·)
  | _ => none

/-- A caret. -/
def caret : TokenKind.Shape → Option Unit
  | .symbol .caret => some ()
  | _ => none

/-- A literal, a name or an expression between parentheses. -/
def primary (expression : Rule Expr) : Rule Expr
  | [] => reject (.expected "expression") []
  | t :: rest =>
    match t.kind with
    | .number x => .ok (.one (.number x) t rest)
    | .string text => .ok (.one (.string text) t rest)
    | .identifier => .ok (.one (.identifier t.lexeme) t rest)
    | .symbol .leftParen => do
      let inner ← expression rest
      let closing ← inner.next (expectSymbol .rightParen "')' after expression")
      .ok ((closing.give (.group inner.value)).behind t)
    | _ => reject (.expected "expression") (t :: rest)

/-- A primary with any number of minus signs before it. -/
def unary (expression operand : Rule Expr) : Rule Expr
  | [] => primary expression []
  | t :: rest =>
    if t.shape = .symbol .minus then do
      let inner ← operand rest
      .ok ((inner.give (.negate inner.value)).behind t)
    else
      primary expression (t :: rest)

/-- A unary, raised to an exponent if a caret follows. -/
def power (expression exponent operand : Rule Expr) : Rule Expr := fun ts => do
  let base ← unary expression operand ts
  match base.accept? caret with
  | none => .ok base
  | some sign => do
    let raised ← sign.next exponent
    .ok (raised.give (.power base.value raised.value))

/-- Powers with `*` and `/` between them. -/
def term (expression exponent operand : Rule Expr) : Rule Expr :=
  chain (power expression exponent operand) termOperator

/-- Terms with `+` and `-` between them. -/
def sum (expression exponent operand : Rule Expr) : Rule Expr :=
  chain (term expression exponent operand) sumOperator

/-- A sum, or two sums with a comparison between them; comparisons do not chain. -/
def comparison (expression exponent operand : Rule Expr) : Rule Expr := fun ts => do
  let left ← sum expression exponent operand ts
  match left.accept? comparisonOperator with
  | none => .ok left
  | some op => do
    let right ← op.next (sum expression exponent operand)
    .ok (right.give (.comparison left.value op.value right.value))

/-- Comparisons with `and` between them. -/
def conjunction (expression exponent operand : Rule Expr) : Rule Expr :=
  chain (comparison expression exponent operand) conjunctionOperator

/-- Conjunctions with `or` between them. -/
def disjunction (expression exponent operand : Rule Expr) : Rule Expr :=
  chain (conjunction expression exponent operand) disjunctionOperator

mutual

/-- An expression. -/
def expression : (levels : Nat) → Rule Expr
  | 0 => fun ts => reject .tooDeep ts
  | levels + 1 => disjunction (expression levels) (exponent levels) (operand levels)

/-- What stands to the right of a caret: again a power, so that powers group to the right. -/
def exponent : (levels : Nat) → Rule Expr
  | 0 => fun ts => reject .tooDeep ts
  | levels + 1 => power (expression levels) (exponent levels) (operand levels)

/-- What stands to the right of a minus sign. -/
def operand : (levels : Nat) → Rule Expr
  | 0 => fun ts => reject .tooDeep ts
  | levels + 1 => unary (expression levels) (operand levels)

end

end DivisionScript.Grammar
