import DivisionScript.Log.Event

/-!
# Source

From the text of a program to its tree: scanning, then parsing, each with the reports that it makes
on its way. The first lexical error wins over every syntax error, since nothing is parsed before
the whole text has been scanned.
-/

namespace DivisionScript

/-- Why a text is not a program or not an expression. -/
inductive SourceError where
  | lexical (error : LexicalError)
  | syntactic (error : SyntaxError)
deriving DecidableEq, Repr

namespace SourceError

/-- The line of an error. -/
def line : SourceError → Nat
  | lexical e => e.line
  | syntactic e => e.line

/-- What is wrong on that line. -/
def detail : SourceError → String
  | lexical e => e.cause.message
  | syntactic e => e.message

/-- The wording of an error. -/
def message (e : SourceError) : String :=
  "[line " ++ toString e.line ++ "] Error: " ++ e.detail

end SourceError

/-- A result and the reports made while it was computed. -/
structure Reported (α : Type) where
  result : α
  events : List Event

/-- The reports about an item of a scan. The end of the text is made into a token without having
been scanned. -/
def Item.events : Item → List Event
  | .error e => [.lexicalError e]
  | .ok t =>
    match t.kind with
    | .endOfText => [.tokenMade t]
    | kind => [.tokenScanned kind t.line, .tokenMade t]

/-- The report about a milestone of a grammar. -/
def Grammar.Milestone.event : Grammar.Milestone → Event
  | .declaration => .enteringDeclaration
  | .statement line => .enteringStatement line

namespace Source

/-- The items of a text. -/
def items (source : String) : Reported (List Item) :=
  let items := Token.scan source
  ⟨items, .scanning source.utf8ByteSize :: items.flatMap Item.events⟩

/-- The tokens of a text, or its first lexical error; nothing is reported after that error. -/
def tokens (source : String) : Reported (Except LexicalError (List Token)) :=
  let items := Token.scan source
  ⟨Token.collect items,
    .scanning source.utf8ByteSize :: (Token.untilError items).flatMap Item.events⟩

/-- The program that a list of tokens spells. -/
def programOfTokens (ts : List Token) : Reported (Except SyntaxError Program) :=
  let (result, trail) := Program.ofTokens ts
  let outcome : Event := match result with
    | .ok p => .parsed p.declarations.length p.statements.length
    | .error e => .syntaxError e
  ⟨result, .parsing ts.length :: .parsingProgram ::
    (trail.toList.map Grammar.Milestone.event ++ [outcome])⟩

/-- The expression that a list of tokens spells. -/
def expressionOfTokens (ts : List Token) : Reported (Except SyntaxError Expr) :=
  let result := Expr.ofTokens ts
  let outcome : List Event := match result with
    | .ok _ => []
    | .error e => [.syntaxError e]
  ⟨result, .parsing ts.length :: outcome⟩

/-- The program that a text spells. -/
def program (source : String) : Reported (Except SourceError Program) :=
  let scanned := tokens source
  match scanned.result with
  | .error e => ⟨.error (.lexical e), scanned.events⟩
  | .ok ts =>
    let parsed := programOfTokens ts
    ⟨parsed.result.mapError .syntactic,
      scanned.events ++ .scanned ts.length :: parsed.events⟩

/-- The expression that a text spells. -/
def expression (source : String) : Reported (Except SourceError Expr) :=
  let scanned := tokens source
  match scanned.result with
  | .error e => ⟨.error (.lexical e), scanned.events⟩
  | .ok ts =>
    let parsed := expressionOfTokens ts
    ⟨parsed.result.mapError .syntactic, scanned.events ++ parsed.events⟩

end Source

end DivisionScript
