import DivisionScript.Grammar.Expression

/-!
# Grammar — Statement

The rules of statements and of the blocks they form:

```text
statement → assign | print | input | if | loop | rand | func | call
assign    → IDENTIFIER "=" expression ( "as" ( "number" | "string" ) )? ";"
print     → "print" expression ";"
input     → "input" IDENTIFIER STRING? ";"
if        → "if" expression block ( "else" ( block | if ) )?
loop      → "loop" IDENTIFIER "from" expression "to" expression block
rand      → "rand" IDENTIFIER "from" expression "to" expression ";"
func      → "func" IDENTIFIER "(" parameters? ")" "returns" IDENTIFIER block
call      → "call" IDENTIFIER "(" arguments? ")" ";"
block     → "{" statement* "}"
```

A statement opens one level of nesting. Every statement that is entered leaves a milestone, also
when it is refused later.
-/

namespace DivisionScript.Grammar

/-- What the rules enter on their way. -/
inductive Milestone where
  | declaration
  | statement (line : Nat)
deriving DecidableEq, Repr

/-- A computation that may reject and that records milestones in order. -/
abbrev Tracked (α : Type) := EStateM Rejection (Array Milestone) α

/-- A rule that reads at least one token and records milestones. -/
abbrev TrackedRule (α : Type) := (ts : List Token) → Tracked (Read α ts.length)

/-- A rule that may read nothing and records milestones. -/
abbrev OptionalTrackedRule (α : Type) := (ts : List Token) → Tracked (Read α (ts.length + 1))

/-- Records a milestone. -/
def reach (m : Milestone) : Tracked Unit :=
  modify (·.push m)

/-- A computation without milestones. -/
def tracked {α : Type} : Except Rejection α → Tracked α
  | .ok a => pure a
  | .error r => throw r

/-- Statements up to a closing brace or the end. -/
def statements (statement : TrackedRule Stmt) : OptionalTrackedRule (List Stmt)
  | [] => pure (.nothing [] [])
  | t :: rest =>
    if t.shape = .symbol .rightBrace then
      pure (.nothing [] (t :: rest))
    else do
      let first ← statement (t :: rest)
      have := first.shorter
      let more ← statements statement first.rest
      pure ((first.afterOptional more).give (first.value :: more.value)).loosen
termination_by ts => ts.length
decreasing_by exact this

/-- Statements between braces. -/
def block (statement : TrackedRule Stmt) (place : String) : TrackedRule (List Stmt) := fun ts => do
  let opening ← tracked (expectSymbol .leftBrace ("'\x7b' after " ++ place) ts)
  let body ← opening.nextOptional (statements statement)
  let closing ← tracked (body.next (expectSymbol .rightBrace "'\x7d' after block"))
  pure (closing.give body.value)

/-- The name of a tag. -/
def tagName : Rule (Option TypeTag)
  | [] => reject (.expected "'number' or 'string' after 'as'") []
  | t :: rest =>
    match t.shape with
    | .keyword .number => .ok (.one (some .number) t rest)
    | .keyword .string => .ok (.one (some .string) t rest)
    | _ => reject (.expected "'number' or 'string' after 'as'") (t :: rest)

/-- The optional tag of an assignment. -/
def typeTag : OptionalRule (Option TypeTag)
  | [] => .ok (.nothing none [])
  | t :: rest =>
    if t.shape = .keyword .as then do
      let tag ← tagName rest
      .ok (tag.behind t).loosen
    else
      .ok (.nothing none (t :: rest))

/-- An assignment. -/
def assignment (levels line : Nat) : Rule Stmt := fun ts => do
  let name ← expect .identifier "variable name" ts
  let equals ← name.next (expectSymbol .equal "'=' after variable name")
  let value ← equals.next (expression levels)
  let tag ← value.nextOptional typeTag
  let stop ← tag.next (expectSymbol .semicolon "';' after assignment")
  .ok (stop.give (.assign line name.value.lexeme value.value tag.value))

/-- What follows `print`. -/
def printStatement (levels line : Nat) : Rule Stmt := fun ts => do
  let value ← expression levels ts
  let stop ← value.next (expectSymbol .semicolon "';' after value")
  .ok (stop.give (.print line value.value))

/-- The optional prompt of an input; without one it is empty. -/
def prompt : OptionalRule String
  | [] => .ok (.nothing "" [])
  | t :: rest =>
    match t.kind with
    | .string text => .ok (Read.one text t rest).loosen
    | _ => .ok (.nothing "" (t :: rest))

/-- What follows `input`. -/
def inputStatement (line : Nat) : Rule Stmt := fun ts => do
  let name ← expect .identifier "variable name after 'input'" ts
  let shown ← name.nextOptional prompt
  let stop ← shown.next (expectSymbol .semicolon "';' after input statement")
  .ok (stop.give (.input line name.value.lexeme shown.value))

/-- The second branch of an `if`: nothing, a block, or a single further `if`. -/
def elseBranch (statement : TrackedRule Stmt) : OptionalTrackedRule (List Stmt)
  | [] => pure (.nothing [] [])
  | t :: rest =>
    if t.shape = .keyword .elseWord then
      if nextIs (.keyword .ifWord) rest then do
        let chained ← statement rest
        pure ((chained.give [chained.value]).behind t).loosen
      else do
        let body ← block statement "'else'" rest
        pure (body.behind t).loosen
    else
      pure (.nothing [] (t :: rest))

/-- What follows `if`. -/
def ifStatement (levels line : Nat) (statement : TrackedRule Stmt) : TrackedRule Stmt :=
  fun ts => do
    let condition ← tracked (expression levels ts)
    let thenBody ← condition.next (block statement "if condition")
    let elseBody ← thenBody.nextOptional (elseBranch statement)
    pure (elseBody.give (.branch line condition.value thenBody.value elseBody.value))

/-- What stands between `loop` and its body: the loop variable and the two ends. -/
def loopHeader (levels : Nat) : Rule (String × Expr × Expr) := fun ts => do
  let name ← expect .identifier "loop variable after 'loop'" ts
  let fromWord ← name.next (expectKeyword .fromWord "'from' after loop variable")
  let start ← fromWord.next (expression levels)
  let toWord ← start.next (expectKeyword .toWord "'to' after loop start")
  let stop ← toWord.next (expression levels)
  .ok (stop.give (name.value.lexeme, start.value, stop.value))

/-- What follows `loop`. -/
def loopStatement (levels line : Nat) (statement : TrackedRule Stmt) : TrackedRule Stmt :=
  fun ts => do
    let header ← tracked (loopHeader levels ts)
    let body ← header.next (block statement "loop header")
    let (name, start, stop) := header.value
    pure (body.give (.loop line name start stop body.value))

/-- What follows `rand`. -/
def randStatement (levels line : Nat) : Rule Stmt := fun ts => do
  let name ← expect .identifier "variable name after 'rand'" ts
  let fromWord ← name.next (expectKeyword .fromWord "'from' after rand variable")
  let least ← fromWord.next (expression levels)
  let toWord ← least.next (expectKeyword .toWord "'to' after rand minimum")
  let greatest ← toWord.next (expression levels)
  let stop ← greatest.next (expectSymbol .semicolon "';' after rand statement")
  .ok (stop.give (.rand line name.value.lexeme least.value greatest.value))

/-- What stands between `func` and its body: the name of the function, its parameters and the name
whose value it returns. -/
def functionHeader : Rule (String × List String × String) := fun ts => do
  let name ← expect .identifier "function name" ts
  let params ← name.next (parenthesized (expect .identifier "parameter name")
    (.tooManyParameters name.value.line) "'(' after function name" "')' after parameters")
  let returns ← params.next (expectKeyword .returns "'returns' after parameters")
  let result ← returns.next (expect .identifier "return variable after 'returns'")
  .ok (result.give
    (name.value.lexeme, params.value.map Token.lexeme, result.value.lexeme))

/-- What follows `func`. -/
def defineStatement (line : Nat) (statement : TrackedRule Stmt) : TrackedRule Stmt := fun ts => do
  let header ← tracked (functionHeader ts)
  let body ← header.next (block statement "function header")
  let (name, params, result) := header.value
  pure (body.give (.define line name params body.value result))

/-- What follows `call`. -/
def callStatement (levels line : Nat) : Rule Stmt := fun ts => do
  let name ← expect .identifier "function name after 'call'" ts
  let args ← name.next (parenthesized (expression levels) .tooManyArguments
    "'(' after function name" "')' after arguments")
  let stop ← args.next (expectSymbol .semicolon "';' after call")
  .ok (stop.give (.call line name.value.lexeme args.value))

/-- A statement, told by its first token. The statements inside it are read by `statement`. -/
def openedStatement (levels : Nat) (statement : TrackedRule Stmt) : TrackedRule Stmt
  | [] => throw ⟨.expectedInstead "statement", []⟩
  | t :: rest => do
    reach (.statement t.line)
    match t.shape with
    | .keyword .print => Read.behind t <$> tracked (printStatement levels t.line rest)
    | .keyword .input => Read.behind t <$> tracked (inputStatement t.line rest)
    | .keyword .ifWord => Read.behind t <$> ifStatement levels t.line statement rest
    | .keyword .loop => Read.behind t <$> loopStatement levels t.line statement rest
    | .keyword .rand => Read.behind t <$> tracked (randStatement levels t.line rest)
    | .keyword .func => Read.behind t <$> defineStatement t.line statement rest
    | .keyword .call => Read.behind t <$> tracked (callStatement levels t.line rest)
    | .identifier => tracked (assignment levels t.line (t :: rest))
    | _ => throw ⟨.expectedInstead "statement", t :: rest⟩

/-- A statement. The first argument is how many levels of nesting may still be opened. -/
def statement : (levels : Nat) → TrackedRule Stmt
  | 0 => fun ts => throw ⟨.tooDeep, ts⟩
  | levels + 1 => openedStatement levels (statement levels)

end DivisionScript.Grammar
