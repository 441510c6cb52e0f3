import DivisionScript.Grammar.Program
import DivisionScript.Proofs.Walker.Basic

/-!
# Walker — Rules

The rules of the parser as walks. Rules call each other and go round without a bound. Where a rule
can come back to itself it calls it through `Rules`; `unfolded` puts the rules in for these calls a
number of times, and in the end a call that is never answered. A walk ends if from some number on it
ends, and always in the same way.
-/

namespace DivisionScript

namespace Walker

/-- The rules by which a rule can come back to itself. -/
structure Rules where
  expression : Attempt Expr
  disjunctionFrom : Expr → Attempt Expr
  conjunctionFrom : Expr → Attempt Expr
  sumFrom : Expr → Attempt Expr
  termFrom : Expr → Attempt Expr
  power : Attempt Expr
  unary : Attempt Expr
  statement : Attempt Stmt
  statements : Attempt (List Stmt)
  declarations : Attempt (List Decl)
  allStatements : Attempt (List Stmt)

/-! ## Operators

They are tried in this order. -/

def termSigns : List (TokenKind.Shape × (Expr → Expr → Expr)) :=
  [(.symbol .star, (.term · .mul ·)), (.symbol .slash, (.term · .div ·))]

def sumSigns : List (TokenKind.Shape × (Expr → Expr → Expr)) :=
  [(.symbol .plus, (.sum · .add ·)), (.symbol .minus, (.sum · .sub ·))]

def conjunctionSigns : List (TokenKind.Shape × (Expr → Expr → Expr)) :=
  [(.keyword .and, .conjunction)]

def disjunctionSigns : List (TokenKind.Shape × (Expr → Expr → Expr)) :=
  [(.keyword .or, .disjunction)]

theorem lookup_termSigns (shape : TokenKind.Shape) :
    termSigns.lookup shape = Grammar.termOperator shape := by
  cases shape with
  | symbol s => cases s <;> rfl
  | _ => rfl

theorem lookup_sumSigns (shape : TokenKind.Shape) :
    sumSigns.lookup shape = Grammar.sumOperator shape := by
  cases shape with
  | symbol s => cases s <;> rfl
  | _ => rfl

theorem lookup_conjunctionSigns (shape : TokenKind.Shape) :
    conjunctionSigns.lookup shape = Grammar.conjunctionOperator shape := by
  cases shape with
  | keyword k => cases k <;> rfl
  | _ => rfl

theorem lookup_disjunctionSigns (shape : TokenKind.Shape) :
    disjunctionSigns.lookup shape = Grammar.disjunctionOperator shape := by
  cases shape with
  | keyword k => cases k <;> rfl
  | _ => rfl

section rules

variable (tokens : List Token) (rules : Rules)

/-! ## Expressions -/

/-- One turn of a repetition: extends an expression to the left if an operator follows, and goes
round. -/
def chainFrom (again : Expr → Attempt Expr) (operand : Attempt Expr)
    (signs : List (TokenKind.Shape × (Expr → Expr → Expr))) (left : Expr) : Attempt Expr := do
  match ← acceptFirst tokens signs with
  | none => return left
  | some combine => again (combine left (← operand))

def primary : Attempt Expr := do
  match (← peek tokens).kind with
  | .number x => do
    let _ ← advance tokens
    return .number x
  | .string text => do
    let _ ← advance tokens
    return .string text
  | _ =>
    if ← accept tokens .identifier then
      return .identifier (← previous tokens).lexeme
    else if ← accept tokens (.symbol .leftParen) then
      let inner ← rules.expression
      let _ ← consume tokens (.symbol .rightParen) "')' after expression"
      return .group inner
    else
      refuse tokens (.expected "expression")

def unary : Attempt Expr := do
  if ← accept tokens (.symbol .minus) then
    return .negate (← nested tokens rules.unary)
  else
    primary tokens rules

def power : Attempt Expr := do
  let base ← unary tokens rules
  if ← accept tokens (.symbol .caret) then
    return .power base (← nested tokens rules.power)
  else
    return base

def termFrom : Expr → Attempt Expr :=
  chainFrom tokens rules.termFrom (power tokens rules) termSigns

def term : Attempt Expr := do
  rules.termFrom (← power tokens rules)

def sumFrom : Expr → Attempt Expr :=
  chainFrom tokens rules.sumFrom (term tokens rules) sumSigns

def sum : Attempt Expr := do
  rules.sumFrom (← term tokens rules)

def comparison : Attempt Expr := do
  let left ← sum tokens rules
  match Grammar.comparisonOperator (← peek tokens).shape with
  | none => return left
  | some op => do
    let _ ← advance tokens
    return .comparison left op (← sum tokens rules)

def conjunctionFrom : Expr → Attempt Expr :=
  chainFrom tokens rules.conjunctionFrom (comparison tokens rules) conjunctionSigns

def conjunction : Attempt Expr := do
  rules.conjunctionFrom (← comparison tokens rules)

def disjunctionFrom : Expr → Attempt Expr :=
  chainFrom tokens rules.disjunctionFrom (conjunction tokens rules) disjunctionSigns

def disjunction : Attempt Expr := do
  rules.disjunctionFrom (← conjunction tokens rules)

def expression : Attempt Expr :=
  nested tokens (disjunction tokens rules)

/-! ## Statements -/

/-- Items with a comma between each two, at least one and at most `room`. -/
def separated {α : Type} (item : Attempt α) (overflow : Attempt (List α)) :
    (room : Nat) → Attempt (List α)
  | 0 => overflow
  | room + 1 => do
    let first ← item
    if ← accept tokens (.symbol .comma) then
      return first :: (← separated item overflow room)
    else
      return [first]

/-- Items between parentheses, with a comma between each two. -/
def parenthesized {α : Type} (item : Attempt α) (overflow : Attempt (List α))
    (openPhrase closePhrase : String) : Attempt (List α) := do
  let _ ← consume tokens (.symbol .leftParen) openPhrase
  if ← check tokens (.symbol .rightParen) then
    let _ ← consume tokens (.symbol .rightParen) closePhrase
    return []
  else
    let items ← separated tokens item overflow maxArity
    let _ ← consume tokens (.symbol .rightParen) closePhrase
    return items

/-- One turn of a repetition that goes on until a token closes it, or the end. -/
def repeated {α : Type} (again : Attempt (List α)) (item : Attempt α)
    (closing : TokenKind.Shape) : Attempt (List α) := do
  if ← closed tokens closing then
    return []
  else
    let first ← item
    return first :: (← again)

def statements : Attempt (List Stmt) :=
  repeated tokens rules.statements rules.statement (.symbol .rightBrace)

def block (place : String) : Attempt (List Stmt) := do
  let _ ← consume tokens (.symbol .leftBrace) ("'\x7b' after " ++ place)
  let body ← rules.statements
  let _ ← consume tokens (.symbol .rightBrace) "'\x7d' after block"
  return body

def tagName : Attempt (Option TypeTag) := do
  if ← accept tokens (.keyword .number) then
    return some .number
  else if ← accept tokens (.keyword .string) then
    return some .string
  else
    refuse tokens (.expected "'number' or 'string' after 'as'")

def typeTag : Attempt (Option TypeTag) := do
  if ← accept tokens (.keyword .as) then
    tagName tokens
  else
    return none

def assignment (line : Nat) : Attempt Stmt := do
  let name ← identifier tokens "variable name"
  let _ ← consume tokens (.symbol .equal) "'=' after variable name"
  let value ← rules.expression
  let tag ← typeTag tokens
  let _ ← consume tokens (.symbol .semicolon) "';' after assignment"
  return .assign line name value tag

def printStatement (line : Nat) : Attempt Stmt := do
  let value ← rules.expression
  let _ ← consume tokens (.symbol .semicolon) "';' after value"
  return .print line value

def prompt : Attempt String := do
  match (← peek tokens).kind with
  | .string text => do
    let _ ← advance tokens
    return text
  | _ => return ""

def inputStatement (line : Nat) : Attempt Stmt := do
  let name ← identifier tokens "variable name after 'input'"
  let shown ← prompt tokens
  let _ ← consume tokens (.symbol .semicolon) "';' after input statement"
  return .input line name shown

def elseBranch : Attempt (List Stmt) := do
  if ← accept tokens (.keyword .elseWord) then
    if ← check tokens (.keyword .ifWord) then
      return [← rules.statement]
    else
      block tokens rules "'else'"
  else
    return []

def ifStatement (line : Nat) : Attempt Stmt := do
  let condition ← rules.expression
  let thenBody ← block tokens rules "if condition"
  let elseBody ← elseBranch tokens rules
  return .branch line condition thenBody elseBody

def loopHeader : Attempt (String × Expr × Expr) := do
  let name ← identifier tokens "loop variable after 'loop'"
  let _ ← consume tokens (.keyword .fromWord) "'from' after loop variable"
  let start ← rules.expression
  let _ ← consume tokens (.keyword .toWord) "'to' after loop start"
  let stop ← rules.expression
  return (name, start, stop)

def loopStatement (line : Nat) : Attempt Stmt := do
  let (name, start, stop) ← loopHeader tokens rules
  return .loop line name start stop (← block tokens rules "loop header")

def randStatement (line : Nat) : Attempt Stmt := do
  let name ← identifier tokens "variable name after 'rand'"
  let _ ← consume tokens (.keyword .fromWord) "'from' after rand variable"
  let least ← rules.expression
  let _ ← consume tokens (.keyword .toWord) "'to' after rand minimum"
  let greatest ← rules.expression
  let _ ← consume tokens (.symbol .semicolon) "';' after rand statement"
  return .rand line name least greatest

/-- The name of a function, its parameters and the name whose value it returns. Too many parameters
are blamed on the line of the name. -/
def functionHeader : Attempt (String × List String × String) := do
  let name ← identifier tokens "function name"
  let line := (← previous tokens).line
  let params ← parenthesized tokens (consume tokens .identifier "parameter name")
    (refuseAt tokens line (.tooManyParameters line)) "'(' after function name"
    "')' after parameters"
  let _ ← consume tokens (.keyword .returns) "'returns' after parameters"
  let result ← identifier tokens "return variable after 'returns'"
  return (name, params.map Token.lexeme, result)

def function (line : Nat) : Attempt Stmt := do
  let (name, params, result) ← functionHeader tokens
  return .define line name params (← block tokens rules "function header") result

def callStatement (line : Nat) : Attempt Stmt := do
  let name ← identifier tokens "function name after 'call'"
  let args ← parenthesized tokens rules.expression (refuse tokens .tooManyArguments)
    "'(' after function name" "')' after arguments"
  let _ ← consume tokens (.symbol .semicolon) "';' after call"
  return .call line name args

def simpleStatement : Attempt Stmt := do
  let line := (← peek tokens).line
  if ← accept tokens (.keyword .print) then
    printStatement tokens rules line
  else if ← accept tokens (.keyword .input) then
    inputStatement tokens line
  else if ← accept tokens (.keyword .ifWord) then
    ifStatement tokens rules line
  else if ← accept tokens (.keyword .loop) then
    loopStatement tokens rules line
  else if ← accept tokens (.keyword .rand) then
    randStatement tokens rules line
  else if ← accept tokens (.keyword .func) then
    function tokens rules line
  else if ← accept tokens (.keyword .call) then
    callStatement tokens rules line
  else if ← check tokens .identifier then
    assignment tokens rules line
  else
    refuseAt tokens line (.expectedInstead "statement")

def statement : Attempt Stmt :=
  nested tokens (simpleStatement tokens rules)

/-! ## Programs -/

def metadata (keyword : String) (make : String → Decl) : Attempt Decl := do
  let text ← stringLiteral tokens ("string after '" ++ keyword ++ "'")
  let _ ← consume tokens (.symbol .semicolon) ("';' after " ++ keyword ++ " declaration")
  return make text

def constant (line : Nat) : Attempt Decl := do
  let name ← identifier tokens "constant name after 'const'"
  let _ ← consume tokens (.symbol .equal) "'=' after constant name"
  let value ← rules.expression
  let _ ← consume tokens (.symbol .semicolon) "';' after constant value"
  return .const line name value

def declaration : Attempt Decl := do
  let line := (← peek tokens).line
  if ← accept tokens (.keyword .program) then
    metadata tokens "program" (.program line)
  else if ← accept tokens (.keyword .author) then
    metadata tokens "author" (.author line)
  else if ← accept tokens (.keyword .date) then
    metadata tokens "date" (.date line)
  else if ← accept tokens (.keyword .const) then
    constant tokens rules line
  else
    refuseAt tokens line (.expectedInstead "declaration in static division")

def declarations : Attempt (List Decl) :=
  repeated tokens rules.declarations (declaration tokens rules) (.keyword .dynamic)

def staticDivision : Attempt (List Decl) := do
  if ← accept tokens (.keyword .static) then
    let _ ← consume tokens (.keyword .division) "'division' after 'static'"
    rules.declarations
  else
    return []

def allStatements : Attempt (List Stmt) := do
  if ← atEnd tokens then
    return []
  else
    let first ← rules.statement
    return first :: (← rules.allStatements)

def program : Attempt Program := do
  let decls ← staticDivision tokens rules
  let _ ← consume tokens (.keyword .dynamic) "'dynamic division'"
  let _ ← consume tokens (.keyword .division) "'division' after 'dynamic'"
  return ⟨decls, ← rules.allStatements⟩

def loneExpression : Attempt Expr := do
  let e ← rules.expression
  if ← atEnd tokens then
    return e
  else
    refuse tokens .trailing

/-- Refuses a list without tokens, and a list whose last token is not the end of the text. -/
def ensureTerminated : Attempt Unit :=
  match tokens.getLast? with
  | some t =>
    if t.shape = .endOfText then
      return ()
    else
      throw ⟨.openStream, t.lexeme, t.line⟩
  | none => throw ⟨.emptyStream, "", 1⟩

/-- Reads a program from a list of tokens. -/
def parse : Attempt Program := do
  ensureTerminated tokens
  program tokens rules

/-- Reads an expression from a list of tokens. -/
def parseExpression : Attempt Expr := do
  ensureTerminated tokens
  loneExpression tokens rules

end rules

/-! ## Unfolding -/

/-- No rule is ever done. -/
def Rules.endless : Rules where
  expression := Walker.endless
  disjunctionFrom _ := Walker.endless
  conjunctionFrom _ := Walker.endless
  sumFrom _ := Walker.endless
  termFrom _ := Walker.endless
  power := Walker.endless
  unary := Walker.endless
  statement := Walker.endless
  statements := Walker.endless
  declarations := Walker.endless
  allStatements := Walker.endless

/-- Every rule, with the given ones for the rules it calls. -/
def Rules.unfold (tokens : List Token) (rules : Rules) : Rules where
  expression := Walker.expression tokens rules
  disjunctionFrom := Walker.disjunctionFrom tokens rules
  conjunctionFrom := Walker.conjunctionFrom tokens rules
  sumFrom := Walker.sumFrom tokens rules
  termFrom := Walker.termFrom tokens rules
  power := Walker.power tokens rules
  unary := Walker.unary tokens rules
  statement := Walker.statement tokens rules
  statements := Walker.statements tokens rules
  declarations := Walker.declarations tokens rules
  allStatements := Walker.allStatements tokens rules

/-- The rules with so many calls put in one in another. -/
def unfolded (tokens : List Token) : Nat → Rules
  | 0 => .endless
  | n + 1 => (unfolded tokens n).unfold tokens

end Walker

end DivisionScript
