import DivisionScript.Grammar.Statement

/-!
# Grammar — Program

Whole programs and lone expressions, from tokens and from text:

```text
program     → ( "static" "division" declaration* )? "dynamic" "division" statement* EOF
declaration → ( "program" | "author" | "date" ) STRING ";"
            | "const" IDENTIFIER "=" expression ";"
```

A list of tokens is read up to its first end-of-text token, and its last token has to be one.
-/

namespace DivisionScript

namespace Grammar

/-- What follows the keyword of a metadata declaration. -/
def metadata (keyword : String) (make : String → Decl) : Rule Decl := fun ts => do
  let text ← stringLiteral ("string after '" ++ keyword ++ "'") ts
  let stop ← text.next (expectSymbol .semicolon ("';' after " ++ keyword ++ " declaration"))
  .ok (stop.give (make text.value))

/-- What follows `const`. -/
def constant (levels line : Nat) : Rule Decl := fun ts => do
  let name ← expect .identifier "constant name after 'const'" ts
  let equals ← name.next (expectSymbol .equal "'=' after constant name")
  let value ← equals.next (expression levels)
  let stop ← value.next (expectSymbol .semicolon "';' after constant value")
  .ok (stop.give (.const line name.value.lexeme value.value))

/-- A declaration, told by its first token. -/
def openedDeclaration (levels : Nat) : Rule Decl
  | [] => reject (.expectedInstead "declaration in static division") []
  | t :: rest =>
    match t.shape with
    | .keyword .program => Read.behind t <$> metadata "program" (.program t.line) rest
    | .keyword .author => Read.behind t <$> metadata "author" (.author t.line) rest
    | .keyword .date => Read.behind t <$> metadata "date" (.date t.line) rest
    | .keyword .const => Read.behind t <$> constant levels t.line rest
    | _ => reject (.expectedInstead "declaration in static division") (t :: rest)

/-- A declaration. -/
def declaration (levels : Nat) : TrackedRule Decl := fun ts => do
  reach .declaration
  tracked (openedDeclaration levels ts)

/-- Declarations up to `dynamic` or the end. -/
def declarations (levels : Nat) : OptionalTrackedRule (List Decl)
  | [] => pure (.nothing [] [])
  | t :: rest =>
    if t.shape = .keyword .dynamic then
      pure (.nothing [] (t :: rest))
    else do
      let first ← declaration levels (t :: rest)
      have := first.shorter
      let more ← declarations levels first.rest
      pure ((first.afterOptional more).give (first.value :: more.value)).loosen
termination_by ts => ts.length
decreasing_by exact this

/-- The static division, which may be left out. -/
def staticDivision (levels : Nat) : OptionalTrackedRule (List Decl)
  | [] => pure (.nothing [] [])
  | t :: rest =>
    if t.shape = .keyword .static then do
      let word ← tracked (expectKeyword .division "'division' after 'static'" rest)
      let decls ← word.nextOptional (declarations levels)
      pure (decls.behind t).loosen
    else
      pure (.nothing [] (t :: rest))

/-- Statements up to the end. -/
def allStatements (levels : Nat) : (ts : List Token) → Tracked (List Stmt)
  | [] => pure []
  | t :: rest => do
    let first ← statement levels (t :: rest)
    have := first.shorter
    let more ← allStatements levels first.rest
    pure (first.value :: more)
termination_by ts => ts.length
decreasing_by exact this

/-- A whole program. -/
def program (levels : Nat) (ts : List Token) : Tracked Program := do
  let decls ← staticDivision levels ts
  let dynamicWord ← tracked (decls.next (expectKeyword .dynamic "'dynamic division'"))
  let divisionWord ← tracked (dynamicWord.next (expectKeyword .division
    "'division' after 'dynamic'"))
  let stmts ← allStatements levels divisionWord.rest
  pure ⟨decls.value, stmts⟩

/-- An expression that is the whole text. -/
def loneExpression (levels : Nat) (ts : List Token) : Except Rejection Expr := do
  let e ← expression levels ts
  match e.rest with
  | [] => .ok e.value
  | t :: rest => reject .trailing (t :: rest)

/-- The tokens before the first end of the text, and that token. A list without tokens or whose last
token is another one is refused. -/
def terminated (ts : List Token) : Except SyntaxError (List Token × Token) :=
  match ts.getLast? with
  | none => .error ⟨.emptyStream, "", 1⟩
  | some last =>
    if last.shape = .endOfText then
      .ok (ts.takeWhile (·.shape ≠ .endOfText), (ts.find? (·.shape = .endOfText)).getD last)
    else
      .error ⟨.openStream, last.lexeme, last.line⟩

end Grammar

/-- The program that a list of tokens spells, or its syntax error, and the milestones of reading
it. -/
def Program.ofTokens (ts : List Token) : Except SyntaxError Program × Array Grammar.Milestone :=
  match Grammar.terminated ts with
  | .error e => (.error e, #[])
  | .ok (body, stop) =>
    match Grammar.program maxNesting body #[] with
    | .ok p trail => (.ok p, trail)
    | .error r trail => (.error (r.toError stop), trail)

/-- The expression that a list of tokens spells, or its syntax error. -/
def Expr.ofTokens (ts : List Token) : Except SyntaxError Expr :=
  match Grammar.terminated ts with
  | .error e => .error e
  | .ok (body, stop) => (Grammar.loneExpression maxNesting body).mapError (·.toError stop)

end DivisionScript
