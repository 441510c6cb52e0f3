import DivisionScript.Token.Scan

/-!
# Grammar — Rule

What a grammar rule is: a function from the tokens ahead to what it reads and the tokens after it,
or to a rejection that carries the tokens from the offending one on. The end of the program is the
end of the list, so no rule can read past it. Every success carries the proof that its rest is
short enough, which is why rules that repeat other rules end.
-/

namespace DivisionScript

/-- Why a list of tokens is not in the grammar. -/
inductive SyntaxCause where
  /-- There is no token at all. -/
  | emptyStream
  /-- The last token is not the end of the text. -/
  | openStream
  /-- Something else should stand at the offending token. -/
  | expected (phrase : String)
  /-- Something else should stand at the offending token, which the message shows. -/
  | expectedInstead (phrase : String)
  /-- An expression ends before the text does. -/
  | trailing
  /-- Too many rules are open at once. -/
  | tooDeep
  /-- A function has more parameters than allowed; the function's name is on this line. -/
  | tooManyParameters (line : Nat)
  /-- A call has more arguments than allowed. -/
  | tooManyArguments
deriving DecidableEq, Repr

/-- How many of the rules that can contain themselves may be open at once. -/
def maxNesting : Nat := 1024

/-- The greatest number of parameters of a function and of arguments of a call. -/
def maxArity : Nat := 255

/-- A syntax error: its cause, the text of the offending token and its line. -/
structure SyntaxError where
  cause : SyntaxCause
  found : String
  line : Nat
deriving DecidableEq, Repr

/-- The wording of a syntax error. -/
def SyntaxError.message (e : SyntaxError) : String :=
  match e.cause with
  | .emptyStream => "Empty token stream"
  | .openStream => "Token stream does not end with EOF"
  | .expected phrase => "Expected " ++ phrase
  | .expectedInstead phrase => "Expected " ++ phrase ++ ", found '" ++ e.found ++ "'"
  | .trailing => "Unexpected '" ++ e.found ++ "' after expression"
  | .tooDeep => "Nesting exceeds " ++ toString maxNesting ++ " levels"
  | .tooManyParameters _ => "Cannot have more than " ++ toString maxArity ++ " parameters"
  | .tooManyArguments => "Cannot have more than " ++ toString maxArity ++ " arguments"

namespace Grammar

/-- A rejection: its cause and the tokens from the offending one on, none at the end. -/
structure Rejection where
  cause : SyntaxCause
  rest : List Token

/-- The error that a rejection stands for, given the token that ends the text. -/
def Rejection.toError (r : Rejection) (stop : Token) : SyntaxError :=
  let offending := r.rest.headD stop
  let line := match r.cause with
    | .tooManyParameters line => line
    | _ => offending.line
  ⟨r.cause, offending.lexeme, line⟩

/-- What a rule read and the tokens after it, fewer than `bound`. -/
structure Read (α : Type) (bound : Nat) where
  value : α
  rest : List Token
  shorter : rest.length < bound

namespace Read

variable {α β : Type} {bound : Nat}

/-- Nothing was read. -/
def nothing (a : α) (ts : List Token) : Read α (ts.length + 1) :=
  ⟨a, ts, Nat.lt_succ_self _⟩

/-- One token was read. -/
def one (a : α) (t : Token) (rest : List Token) : Read α (t :: rest).length :=
  ⟨a, rest, Nat.lt_succ_self _⟩

/-- The same tokens make another value. -/
def give (r : Read α bound) (b : β) : Read β bound :=
  ⟨b, r.rest, r.shorter⟩

/-- What was read after a first part. -/
def after (first : Read α bound) (second : Read β first.rest.length) : Read β bound :=
  ⟨second.value, second.rest, Nat.lt_trans second.shorter first.shorter⟩

/-- What was read, perhaps nothing, after a first part. -/
def afterOptional (first : Read α bound) (second : Read β (first.rest.length + 1)) :
    Read β bound :=
  ⟨second.value, second.rest, Nat.lt_of_le_of_lt (Nat.le_of_lt_succ second.shorter) first.shorter⟩

/-- What was read behind a token. -/
def behind (t : Token) {ts : List Token} (r : Read α ts.length) : Read α (t :: ts).length :=
  ⟨r.value, r.rest, Nat.lt_succ_of_lt r.shorter⟩

/-- What was read, where nothing would have been enough. -/
def loosen (r : Read α bound) : Read α (bound + 1) :=
  ⟨r.value, r.rest, Nat.lt_succ_of_lt r.shorter⟩

/-- Takes the next token if its shape is wanted. -/
def accept? (r : Read α bound) (wanted : TokenKind.Shape → Option β) : Option (Read β bound) :=
  match h : r.rest with
  | [] => none
  | t :: rest =>
    (wanted t.shape).map fun b =>
      ⟨b, rest, Nat.lt_trans (h ▸ Nat.lt_succ_self rest.length) r.shorter⟩

/-- Goes on with a rule. -/
def next {m : Type → Type} [Functor m] (r : Read α bound)
    (rule : (ts : List Token) → m (Read β ts.length)) : m (Read β bound) :=
  r.after <$> rule r.rest

/-- Goes on with a rule that may read nothing. -/
def nextOptional {m : Type → Type} [Functor m] (r : Read α bound)
    (rule : (ts : List Token) → m (Read β (ts.length + 1))) : m (Read β bound) :=
  r.afterOptional <$> rule r.rest

end Read

/-- A rule that reads at least one token. -/
abbrev Rule (α : Type) :=
  (ts : List Token) → Except Rejection (Read α ts.length)

/-- A rule that may read nothing. -/
abbrev OptionalRule (α : Type) :=
  (ts : List Token) → Except Rejection (Read α (ts.length + 1))

/-- Refuses the tokens ahead. -/
def reject {α : Type} (cause : SyntaxCause) (ts : List Token) : Except Rejection α :=
  .error ⟨cause, ts⟩

/-- Reads one token of the given shape. -/
def expect (shape : TokenKind.Shape) (phrase : String) : Rule Token
  | [] => reject (.expected phrase) []
  | t :: rest =>
    if t.shape = shape then .ok (.one t t rest) else reject (.expected phrase) (t :: rest)

/-- Reads one symbol. -/
def expectSymbol (s : Symbol) (phrase : String) : Rule Token :=
  expect (.symbol s) phrase

/-- Reads one keyword. -/
def expectKeyword (k : Keyword) (phrase : String) : Rule Token :=
  expect (.keyword k) phrase

/-- Reads one string literal and yields its payload. -/
def stringLiteral (phrase : String) : Rule String
  | [] => reject (.expected phrase) []
  | t :: rest =>
    match t.kind with
    | .string text => .ok (.one text t rest)
    | _ => reject (.expected phrase) (t :: rest)

/-- Whether the next token has the given shape. -/
def nextIs (shape : TokenKind.Shape) : List Token → Bool
  | [] => false
  | t :: _ => t.shape = shape

/-- Wants a comma. -/
def comma : TokenKind.Shape → Option Unit
  | .symbol .comma => some ()
  | _ => none

/-- Reads items with a comma between each two, at least one and at most `room`. -/
def separated {α : Type} (item : Rule α) (overflow : SyntaxCause) : (room : Nat) → Rule (List α)
  | 0, ts => reject overflow ts
  | room + 1, ts => do
    let first ← item ts
    match first.accept? comma with
    | none => .ok (first.give [first.value])
    | some between => do
      let more ← between.next (separated item overflow room)
      .ok (more.give (first.value :: more.value))

/-- Reads items between parentheses, with a comma between each two; there may be none. -/
def parenthesized {α : Type} (item : Rule α) (overflow : SyntaxCause)
    (openPhrase closePhrase : String) : Rule (List α) := fun ts => do
  let opening ← expectSymbol .leftParen openPhrase ts
  if nextIs (.symbol .rightParen) opening.rest then
    let closing ← opening.next (expectSymbol .rightParen closePhrase)
    .ok (closing.give [])
  else
    let items ← opening.next (separated item overflow maxArity)
    let closing ← items.next (expectSymbol .rightParen closePhrase)
    .ok (closing.give items.value)

end Grammar

end DivisionScript
