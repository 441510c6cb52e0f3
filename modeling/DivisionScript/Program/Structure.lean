import DivisionScript.Json.Basic
import DivisionScript.Program.Basic

/-!
# Program — Structure

The structure of a program as JSON. A variant with a payload is an object with one field named for
the variant; operators and tags are strings.
-/

namespace DivisionScript

/-- A variant with a payload. -/
def Json.variant (name : String) (payload : Json) : Json :=
  .object [(name, payload)]

/-- A binary form: its operands around the name of its operator. -/
def Json.operation (name : String) (left : Json) (op : String) (right : Json) : Json :=
  .variant name (.array [left, .string op, right])

/-- The structure of an expression. -/
def Expr.toJson : Expr → Json
  | .disjunction l r => .variant "Disjunction" (.array [l.toJson, r.toJson])
  | .conjunction l r => .variant "Conjunction" (.array [l.toJson, r.toJson])
  | .comparison l op r => .operation "Comparison" l.toJson op.name r.toJson
  | .sum l op r => .operation "Sum" l.toJson op.name r.toJson
  | .term l op r => .operation "Term" l.toJson op.name r.toJson
  | .power base exponent => .variant "Power" (.array [base.toJson, exponent.toJson])
  | .firstPower base => .variant "Power" (.array [base.toJson, .null])
  | .negate operand => .variant "Unary" (.array [.string "Negate", operand.toJson])
  | .group inner => .variant "Group" inner.toJson
  | .number x => .variant "Number" (.number x)
  | .string text => .variant "Str" (.string text)
  | .identifier name => .variant "Identifier" (.string name)

/-- A node with its line. -/
def Json.located (kind : Json) (line : Nat) : Json :=
  .object [("kind", kind), ("line", .count line)]

mutual

/-- The structure of a statement. -/
def Stmt.toJson : Stmt → Json
  | .assign line name value tag =>
    .located (.variant "Assign" (.object
      [("name", .string name), ("value", value.toJson),
       ("type_tag", match tag with
          | some tag => .string tag.name
          | none => .null)])) line
  | .print line value => .located (.variant "Print" value.toJson) line
  | .input line name prompt =>
    .located (.variant "Input" (.object [("name", .string name), ("prompt", .string prompt)])) line
  | .branch line condition thenBody elseBody =>
    .located (.variant "If" (.object
      [("condition", condition.toJson), ("then_branch", .array (bodyToJson thenBody)),
       ("else_branch", .array (bodyToJson elseBody))])) line
  | .loop line name start stop body =>
    .located (.variant "Loop" (.object
      [("var", .string name), ("start", start.toJson), ("end", stop.toJson),
       ("body", .array (bodyToJson body))])) line
  | .rand line name least greatest =>
    .located (.variant "Rand" (.object
      [("name", .string name), ("min", least.toJson), ("max", greatest.toJson)])) line
  | .define line name params body result =>
    .located (.variant "FuncDef" (.object
      [("name", .string name), ("params", .array (params.map .string)),
       ("body", .array (bodyToJson body)), ("returns", .string result)])) line
  | .call line name args =>
    .located (.variant "Call" (.object
      [("name", .string name), ("args", .array (args.map Expr.toJson))])) line

/-- The structures of the statements of a body. -/
def bodyToJson : List Stmt → List Json
  | [] => []
  | s :: rest => s.toJson :: bodyToJson rest

end

/-- The structure of a declaration. -/
def Decl.toJson : Decl → Json
  | .program line name => .located (.variant "ProgramId" (.string name)) line
  | .author line name => .located (.variant "Author" (.string name)) line
  | .date line text => .located (.variant "Date" (.string text)) line
  | .const line name value =>
    .located (.variant "Const" (.object [("name", .string name), ("value", value.toJson)])) line

/-- The structure of a program. -/
def Program.toJson (p : Program) : Json :=
  .object
    [("static_division", .array (p.declarations.map Decl.toJson)),
     ("dynamic_division", .array (bodyToJson p.statements))]

end DivisionScript
