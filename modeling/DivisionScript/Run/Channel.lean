import DivisionScript.Run.Value

/-!
# Run — Channel

The input and the output of a run. The input is the list of the lines not yet read; the output is
what has been written, and may be limited to a number of bytes.
-/

namespace DivisionScript

/-- The lines not yet read, each with its line feed; the last one may lack it. -/
structure Input where
  lines : List (List UInt8)

namespace Input

/-- The lines of a sequence of bytes. A line feed ends a line and belongs to it. -/
def splitLines : List UInt8 → List (List UInt8)
  | [] => []
  | b :: bs =>
    if b = 10 then
      [b] :: splitLines bs
    else
      match splitLines bs with
      | [] => [[b]]
      | line :: rest => (b :: line) :: rest

/-- The input that holds a sequence of bytes. -/
def ofBytes (bytes : List UInt8) : Input :=
  ⟨splitLines bytes⟩

/-- The text of a line, if it is UTF-8. -/
def lineText? (line : List UInt8) : Option String :=
  String.fromUTF8? ⟨line.toArray⟩

/-- Takes the next line, if there is one. -/
def next? (input : Input) : Option (List UInt8 × Input) :=
  match input.lines with
  | [] => none
  | line :: rest => some (line, ⟨rest⟩)

end Input

/-- What has been written, and how many bytes can be stored at all. -/
structure Output where
  limit : Option Nat
  stored : ByteArray

namespace Output

/-- An output that stores everything. -/
def unlimited : Output :=
  ⟨none, .empty⟩

/-- An output that stores a number of bytes and then fails. -/
def limited (limit : Nat) : Output :=
  ⟨some limit, .empty⟩

/-- Writes a text. If it does not fit, what fits is stored and the second part is false. -/
def write (output : Output) (text : String) : Output × Bool :=
  let bytes := text.toUTF8
  match output.limit with
  | none => ({ output with stored := output.stored ++ bytes }, true)
  | some limit =>
    let room := limit - output.stored.size
    if bytes.size ≤ room then
      ({ output with stored := output.stored ++ bytes }, true)
    else
      ({ output with stored := output.stored ++ bytes.extract 0 room }, false)

end Output

end DivisionScript
