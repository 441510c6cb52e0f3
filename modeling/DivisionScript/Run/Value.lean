import DivisionScript.Number.Layout
import DivisionScript.Number.Reading
import DivisionScript.Program.Basic

/-!
# Run — Value

The values of a run, numbers and strings, the faults of a run with their wordings, and the views of
a value as a number, a whole number and a truth value. A string counts as a number when its text,
without the white space around it, denotes one.
-/

namespace DivisionScript

/-- A value. Truth values are the numbers one and zero. -/
inductive Value where
  | number (x : Float)
  | string (text : String)

namespace Value

/-- One for true, zero for false. -/
def ofBool (b : Bool) : Value :=
  .number (if b then 1.0 else 0.0)

/-- How a value is printed. -/
def text : Value → String
  | number x => Number.valueText x
  | string text => text

/-- What kind of value it is. -/
def type : Value → TypeTag
  | number _ => .number
  | string _ => .string

/-- Whether two values are equal: numbers as numbers, so that NaN differs from itself, strings by
their text, and a number never equals a string. -/
def equals : Value → Value → Bool
  | number x, number y => x == y
  | string s, string t => s = t
  | _, _ => false

end Value

/-- What can go wrong in a run. -/
inductive Fault where
  | unbound (name : String)
  | divisionByZero
  /-- A power of finite numbers that is not finite. -/
  | noFinitePower (base exponent : Float)
  | endOfInput
  | inputNotNumber (text : String)
  | undefinedFunction (name : String)
  | notNumber (text : String)
  | notInteger (value : Value)
  | arity (name : String) (expected found : Nat)
  | callDepth (limit : Nat)
  | constant (name : String)
  | invalidRange (least greatest : Int)
  /-- The output stores no more bytes. -/
  | outputFull
  /-- A line of the input is not UTF-8. -/
  | inputNotText

namespace Fault

/-- The wording of a fault. -/
def message : Fault → String
  | unbound name => "Undefined variable '" ++ name ++ "'."
  | divisionByZero => "Arithmetic error: division by zero"
  | noFinitePower base exponent =>
    "Arithmetic error: " ++ Number.plain.text base ++ " ^ " ++ Number.plain.text exponent ++
      " has no finite value"
  | endOfInput => "Invalid numeric input: unexpected end of input"
  | inputNotNumber text => "Invalid numeric input: '" ++ text ++ "' is not a number"
  | undefinedFunction name => "Undefined function '" ++ name ++ "'."
  | notNumber text => "Type mismatch: \"" ++ text ++ "\" is not a number"
  | notInteger value => "Type mismatch: " ++ value.text ++ " is not an integer"
  | arity name expected found =>
    "Expected " ++ toString expected ++ " arguments but got " ++ toString found ++
      " when calling '" ++ name ++ "'."
  | callDepth limit => "Stack overflow: call depth exceeded " ++ toString limit ++ "."
  | constant name => "Cannot reassign constant '" ++ name ++ "'."
  | invalidRange least greatest =>
    "Invalid range: " ++ toString least ++ " is greater than " ++ toString greatest ++ "."
  | outputFull => "I/O error: output full"
  | inputNotText => "I/O error: stream did not contain valid UTF-8"

end Fault

namespace Value

/-- The value as a number. -/
def asNumber : Value → Except Fault Float
  | number x => .ok x
  | string text =>
    match Number.ofString? (Text.trim text) with
    | some x => .ok x
    | none => .error (.notNumber text)

/-- The greatest whole number of ranges and bounds. -/
def maxInteger : Int := 0x7FFFFFFFFFFFFFFF

/-- The value as a whole number. Magnitudes up to `2 ^ 63` are admitted; the number `2 ^ 63` itself
has no whole number of its own and stands for the greatest one. -/
def asInteger (v : Value) : Except Fault Int :=
  match v.asNumber with
  | .error f => .error f
  | .ok x =>
    match Number.whole? x with
    | none => .error (.notInteger v)
    | some n =>
      if n.natAbs ≤ Number.wholeLimit then .ok (min n maxInteger) else .error (.notInteger v)

/-- The value as a truth value: everything but zero is true. -/
def isTruthy (v : Value) : Except Fault Bool :=
  v.asNumber.map fun x => x != 0.0

end Value

/-- A fault and the line of the statement or declaration that raised it. -/
structure Failure where
  fault : Fault
  line : Nat

/-- The wording of a failure. -/
def Failure.message (f : Failure) : String :=
  "[line " ++ toString f.line ++ "] Runtime error: " ++ f.fault.message

end DivisionScript
