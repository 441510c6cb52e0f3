import DivisionScript.Number.Layout
import DivisionScript.Json.Basic

/-!
# Token — Basic

The tokens of the language: punctuation and operators, the twenty-three keywords, identifiers, the
two kinds of literals and the end of the text. A token's shape is its kind without the payload of
a literal; shapes are what the grammar and the comparison of tokens look at.
-/

namespace DivisionScript

/-- Punctuation and operators. -/
inductive Symbol where
  | leftParen | rightParen | leftBrace | rightBrace | comma | semicolon
  | minus | plus | slash | star | caret
  | bangEqual | equal | equalEqual | greater | greaterEqual | less | lessEqual
deriving DecidableEq, Repr

namespace Symbol

/-- How the symbol is written in a program. -/
def spelling : Symbol → List Char
  | leftParen => ['('] | rightParen => [')'] | leftBrace => ['\x7b'] | rightBrace => ['\x7d']
  | comma => [','] | semicolon => [';']
  | minus => ['-'] | plus => ['+'] | slash => ['/'] | star => ['*'] | caret => ['^']
  | bangEqual => ['!', '='] | equal => ['='] | equalEqual => ['=', '=']
  | greater => ['>'] | greaterEqual => ['>', '='] | less => ['<'] | lessEqual => ['<', '=']

/-- The name of the symbol in listings of tokens. -/
def name : Symbol → String
  | leftParen => "LEFT_PAREN" | rightParen => "RIGHT_PAREN"
  | leftBrace => "LEFT_BRACE" | rightBrace => "RIGHT_BRACE"
  | comma => "COMMA" | semicolon => "SEMICOLON"
  | minus => "MINUS" | plus => "PLUS" | slash => "SLASH" | star => "STAR" | caret => "CARET"
  | bangEqual => "BANG_EQUAL" | equal => "EQUAL" | equalEqual => "EQUAL_EQUAL"
  | greater => "GREATER" | greaterEqual => "GREATER_EQUAL"
  | less => "LESS" | lessEqual => "LESS_EQUAL"

/-- Every symbol. -/
def all : List Symbol :=
  [leftParen, rightParen, leftBrace, rightBrace, comma, semicolon, minus, plus, slash, star, caret,
   bangEqual, equal, equalEqual, greater, greaterEqual, less, lessEqual]

end Symbol

/-- The reserved words. -/
inductive Keyword where
  | static | dynamic | division | program | author | date | const
  | print | input | ifWord | elseWord | loop | fromWord | toWord | rand
  | func | returns | call | as | and | or | number | string
deriving DecidableEq, Repr

namespace Keyword

/-- How the keyword is written in a program. -/
def spelling : Keyword → String
  | static => "static" | dynamic => "dynamic" | division => "division" | program => "program"
  | author => "author" | date => "date" | const => "const"
  | print => "print" | input => "input" | ifWord => "if" | elseWord => "else"
  | loop => "loop" | fromWord => "from" | toWord => "to" | rand => "rand"
  | func => "func" | returns => "returns" | call => "call" | as => "as"
  | and => "and" | or => "or" | number => "number" | string => "string"

/-- The name of the keyword in listings of tokens. -/
def name : Keyword → String
  | static => "STATIC" | dynamic => "DYNAMIC" | division => "DIVISION" | program => "PROGRAM"
  | author => "AUTHOR" | date => "DATE" | const => "CONST"
  | print => "PRINT" | input => "INPUT" | ifWord => "IF" | elseWord => "ELSE"
  | loop => "LOOP" | fromWord => "FROM" | toWord => "TO" | rand => "RAND"
  | func => "FUNC" | returns => "RETURNS" | call => "CALL" | as => "AS"
  | and => "AND" | or => "OR" | number => "NUMBER_TYPE" | string => "STRING_TYPE"

/-- Every keyword. -/
def all : List Keyword :=
  [static, dynamic, division, program, author, date, const, print, input, ifWord, elseWord, loop,
   fromWord, toWord, rand, func, returns, call, as, and, or, number, string]

/-- The keyword written as `word`, if there is one. -/
def ofSpelling? (word : String) : Option Keyword :=
  all.find? fun k => k.spelling = word

theorem ofSpelling?_spelling (k : Keyword) : ofSpelling? k.spelling = some k := by
  cases k <;> rfl

theorem spelling_of_ofSpelling? {word : String} {k : Keyword} (h : ofSpelling? word = some k) :
    k.spelling = word := by
  simpa using List.find?_some h

end Keyword

/-- The kind of a token, with the payload of a literal. -/
inductive TokenKind where
  | symbol (s : Symbol)
  | keyword (k : Keyword)
  | identifier
  | string (text : String)
  | number (x : Float)
  | endOfText

namespace TokenKind

/-- The kind of a token without the payload of a literal. -/
inductive Shape where
  | symbol (s : Symbol)
  | keyword (k : Keyword)
  | identifier
  | string
  | number
  | endOfText
deriving DecidableEq, Repr

/-- Forgets the payload of a literal. -/
def shape : TokenKind → Shape
  | symbol s => .symbol s
  | keyword k => .keyword k
  | identifier => .identifier
  | string _ => .string
  | number _ => .number
  | endOfText => .endOfText

/-- The name of a shape in listings of tokens. -/
def Shape.name : Shape → String
  | .symbol s => s.name
  | .keyword k => k.name
  | .identifier => "IDENTIFIER"
  | .string => "STRING"
  | .number => "NUMBER"
  | .endOfText => "EOF"

/-- The name of a kind in log messages: with the payload of a literal in parentheses. -/
def diagnostic : TokenKind → String
  | string text => "STRING(" ++ Text.quote text ++ ")"
  | number x => "NUMBER(" ++ Number.diagnostic.text x ++ ")"
  | kind => kind.shape.name

/-- A kind as JSON: its name, or one field that holds the payload of a literal. -/
def toJson : TokenKind → Json
  | string text => .object [("STRING", .string text)]
  | number x => .object [("NUMBER", .number x)]
  | kind => .string kind.shape.name

end TokenKind

/-- A token of a program: its kind, its text and the line on which it ends. -/
structure Token where
  kind : TokenKind
  lexeme : String
  line : Nat

namespace Token

/-- The shape of the token's kind. -/
def shape (t : Token) : TokenKind.Shape :=
  t.kind.shape

/-- Whether two tokens have the same shape, text and line. The payload of a literal is determined by
its text, so it is not compared. -/
def agrees (a b : Token) : Bool :=
  a.shape = b.shape ∧ a.lexeme = b.lexeme ∧ a.line = b.line

/-- The literal part of a token in a listing. -/
def literalText (t : Token) : String :=
  match t.kind with
  | .string text => text
  | .number x => Number.literalText x
  | _ => "null"

/-- A token in a listing: its name, its text and its literal part. -/
def listing (t : Token) : String :=
  t.shape.name ++ " " ++ t.lexeme ++ " " ++ t.literalText

/-- A token as JSON. -/
def toJson (t : Token) : Json :=
  .object [("token_type", t.kind.toJson), ("lexeme", .string t.lexeme), ("line", .count t.line)]

end Token

end DivisionScript
