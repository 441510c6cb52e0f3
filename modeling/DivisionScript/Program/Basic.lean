/-!
# Program — Basic

The trees of programs. A program has a static division of declarations and a dynamic division of
statements; every declaration and statement carries the line on which it starts.
-/

namespace DivisionScript

/-- The six comparisons. -/
inductive Comparison where
  | equal | notEqual | less | greater | lessEqual | greaterEqual
deriving DecidableEq, Repr

/-- The operators of a sum. -/
inductive SumOp where
  | add | sub
deriving DecidableEq, Repr

/-- The operators of a term. -/
inductive TermOp where
  | mul | div
deriving DecidableEq, Repr

/-- How the comparison is written. -/
def Comparison.spelling : Comparison → String
  | equal => "==" | notEqual => "!=" | less => "<" | greater => ">"
  | lessEqual => "<=" | greaterEqual => ">="

/-- The name of the comparison in the structure of a program. -/
def Comparison.name : Comparison → String
  | equal => "Equal" | notEqual => "NotEqual" | less => "Less" | greater => "Greater"
  | lessEqual => "LessEqual" | greaterEqual => "GreaterEqual"

/-- How the operator is written. -/
def SumOp.spelling : SumOp → String
  | add => "+" | sub => "-"

/-- The name of the operator in the structure of a program. -/
def SumOp.name : SumOp → String
  | add => "Add" | sub => "Sub"

/-- How the operator is written. -/
def TermOp.spelling : TermOp → String
  | mul => "*" | div => "/"

/-- The name of the operator in the structure of a program. -/
def TermOp.name : TermOp → String
  | mul => "Mul" | div => "Div"

/-- Expressions, from the loosest to the tightest form. -/
inductive Expr where
  | disjunction (left right : Expr)
  | conjunction (left right : Expr)
  | comparison (left : Expr) (op : Comparison) (right : Expr)
  | sum (left : Expr) (op : SumOp) (right : Expr)
  | term (left : Expr) (op : TermOp) (right : Expr)
  | power (base exponent : Expr)
  /-- A power whose exponent is left out: the first power of its base. -/
  | firstPower (base : Expr)
  | negate (operand : Expr)
  /-- An expression between parentheses. -/
  | group (inner : Expr)
  | number (x : Float)
  | string (text : String)
  | identifier (name : String)

/-- The advisory type of an assignment. -/
inductive TypeTag where
  | number | string
deriving DecidableEq, Repr

/-- How the tag is written. -/
def TypeTag.spelling : TypeTag → String
  | number => "number" | string => "string"

/-- The name of the tag in the structure of a program. -/
def TypeTag.name : TypeTag → String
  | number => "Number" | string => "String"

/-- Statements of the dynamic division. -/
inductive Stmt where
  | assign (line : Nat) (name : String) (value : Expr) (tag : Option TypeTag)
  | print (line : Nat) (value : Expr)
  /-- Without a prompt in the text, the prompt is empty. -/
  | input (line : Nat) (name prompt : String)
  /-- Without an `else` in the text, the second branch is empty. -/
  | branch (line : Nat) (condition : Expr) (thenBody elseBody : List Stmt)
  /-- Both ends belong to the range. -/
  | loop (line : Nat) (name : String) (start stop : Expr) (body : List Stmt)
  | rand (line : Nat) (name : String) (least greatest : Expr)
  | define (line : Nat) (name : String) (params : List String) (body : List Stmt) (result : String)
  | call (line : Nat) (name : String) (args : List Expr)

/-- The line on which the statement starts. -/
def Stmt.line : Stmt → Nat
  | .assign line .. => line
  | .print line .. => line
  | .input line .. => line
  | .branch line .. => line
  | .loop line .. => line
  | .rand line .. => line
  | .define line .. => line
  | .call line .. => line

/-- Declarations of the static division. -/
inductive Decl where
  | program (line : Nat) (name : String)
  | author (line : Nat) (name : String)
  | date (line : Nat) (text : String)
  | const (line : Nat) (name : String) (value : Expr)

/-- The line on which the declaration starts. -/
def Decl.line : Decl → Nat
  | .program line _ => line
  | .author line _ => line
  | .date line _ => line
  | .const line _ _ => line

/-- A whole program. -/
structure Program where
  declarations : List Decl
  statements : List Stmt

end DivisionScript
