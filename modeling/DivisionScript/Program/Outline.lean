import DivisionScript.Number.Layout
import DivisionScript.Program.Basic
import DivisionScript.Text.Quoted

/-!
# Program — Outline

The outline of a program: expressions as parenthesised forms with the operator first, one statement
a line, the statements of a body indented by two spaces. Every outline is written in front of a
text `tail`, so that each character is written once however deep the tree is.
-/

namespace DivisionScript

/-- A quoted text in an outline. -/
def quotedOnto (text : String) (tail : List Char) : List Char :=
  Text.quoted Text.messageEscape text.toList ++ tail

/-- The opening of a form: a parenthesis, what the form is, and a space. -/
def opening (word : List Char) : List Char :=
  '(' :: word ++ [' ']

/-- The outline of an expression in front of `tail`. A power without exponent shows its base
alone. -/
def Expr.outlineOnto : Expr → List Char → List Char
  | .disjunction l r, tail =>
    opening ['o', 'r'] ++ l.outlineOnto (' ' :: r.outlineOnto (')' :: tail))
  | .conjunction l r, tail =>
    opening ['a', 'n', 'd'] ++ l.outlineOnto (' ' :: r.outlineOnto (')' :: tail))
  | .comparison l op r, tail =>
    opening op.spelling.toList ++ l.outlineOnto (' ' :: r.outlineOnto (')' :: tail))
  | .sum l op r, tail =>
    opening op.spelling.toList ++ l.outlineOnto (' ' :: r.outlineOnto (')' :: tail))
  | .term l op r, tail =>
    opening op.spelling.toList ++ l.outlineOnto (' ' :: r.outlineOnto (')' :: tail))
  | .power base exponent, tail =>
    opening ['^'] ++ base.outlineOnto (' ' :: exponent.outlineOnto (')' :: tail))
  | .firstPower base, tail => base.outlineOnto tail
  | .negate operand, tail => opening ['-'] ++ operand.outlineOnto (')' :: tail)
  | .group inner, tail => opening ['g', 'r', 'o', 'u', 'p'] ++ inner.outlineOnto (')' :: tail)
  | .number x, tail => (Number.outlineText x).toList ++ tail
  | .string text, tail => quotedOnto text tail
  | .identifier name, tail => name.toList ++ tail

/-- The outline of an expression. -/
def Expr.outline (e : Expr) : List Char :=
  e.outlineOnto []

/-- Expressions with a space between each two, in front of `tail`. -/
def spacedOnto : List Expr → List Char → List Char
  | [], tail => tail
  | [e], tail => e.outlineOnto tail
  | e :: rest, tail => e.outlineOnto (' ' :: spacedOnto rest tail)

/-- Names with a space between each two. -/
def spacedNames : List String → List Char
  | [] => []
  | [name] => name.toList
  | name :: rest => name.toList ++ ' ' :: spacedNames rest

/-- The indentation of a level. -/
def indentation (level : Nat) : List Char :=
  List.replicate (2 * level) ' '

/-- The tag of an assignment in its outline. -/
def tagOutline : Option TypeTag → List Char
  | some tag => ' ' :: tag.spelling.toList
  | none => []

mutual

/-- The outline of a statement at a level of indentation, in front of `tail`. An empty second branch
is not shown. -/
def Stmt.outlineOnto (level : Nat) : Stmt → List Char → List Char
  | .assign _ name value tag, tail =>
    indentation level ++ opening ['='] ++ name.toList ++
      ' ' :: value.outlineOnto (tagOutline tag ++ ')' :: '\n' :: tail)
  | .print _ value, tail =>
    indentation level ++ opening ['p', 'r', 'i', 'n', 't'] ++
      value.outlineOnto (')' :: '\n' :: tail)
  | .input _ name prompt, tail =>
    indentation level ++ opening ['i', 'n', 'p', 'u', 't'] ++ name.toList ++
      ' ' :: quotedOnto prompt (')' :: '\n' :: tail)
  | .branch _ condition thenBody elseBody, tail =>
    indentation level ++ opening ['i', 'f'] ++ condition.outlineOnto ('\n' ::
      bodyOutlineOnto (level + 1) thenBody
        (match elseBody with
          | [] => indentation level ++ ')' :: '\n' :: tail
          | s :: rest =>
            indentation level ++ ['e', 'l', 's', 'e', '\n'] ++
              bodyOutlineOnto (level + 1) (s :: rest) (indentation level ++ ')' :: '\n' :: tail)))
  | .loop _ name start stop body, tail =>
    indentation level ++ opening ['l', 'o', 'o', 'p'] ++ name.toList ++
      ' ' :: start.outlineOnto (' ' :: stop.outlineOnto ('\n' ::
        bodyOutlineOnto (level + 1) body (indentation level ++ ')' :: '\n' :: tail)))
  | .rand _ name least greatest, tail =>
    indentation level ++ opening ['r', 'a', 'n', 'd'] ++ name.toList ++
      ' ' :: least.outlineOnto (' ' :: greatest.outlineOnto (')' :: '\n' :: tail))
  | .define _ name params body result, tail =>
    indentation level ++ opening ['f', 'u', 'n', 'c'] ++ name.toList ++ [' ', '['] ++
      spacedNames params ++ [']', ' ', '-', '>', ' '] ++ result.toList ++ '\n' ::
        bodyOutlineOnto (level + 1) body (indentation level ++ ')' :: '\n' :: tail)
  | .call _ name args, tail =>
    indentation level ++ opening ['c', 'a', 'l', 'l'] ++ name.toList ++ [' ', '['] ++
      spacedOnto args (']' :: ')' :: '\n' :: tail)

/-- The outlines of the statements of a body, in front of `tail`. -/
def bodyOutlineOnto (level : Nat) : List Stmt → List Char → List Char
  | [], tail => tail
  | s :: rest, tail => s.outlineOnto level (bodyOutlineOnto level rest tail)

end

/-- The outline of a declaration in front of `tail`. -/
def Decl.outlineOnto : Decl → List Char → List Char
  | .program _ name, tail =>
    opening ['p', 'r', 'o', 'g', 'r', 'a', 'm'] ++ quotedOnto name (')' :: '\n' :: tail)
  | .author _ name, tail =>
    opening ['a', 'u', 't', 'h', 'o', 'r'] ++ quotedOnto name (')' :: '\n' :: tail)
  | .date _ text, tail =>
    opening ['d', 'a', 't', 'e'] ++ quotedOnto text (')' :: '\n' :: tail)
  | .const _ name value, tail =>
    opening ['c', 'o', 'n', 's', 't'] ++ name.toList ++
      ' ' :: value.outlineOnto (')' :: '\n' :: tail)

/-- The outline of a program. -/
def Program.outline (p : Program) : List Char :=
  p.declarations.foldr Decl.outlineOnto (bodyOutlineOnto 0 p.statements [])

end DivisionScript
