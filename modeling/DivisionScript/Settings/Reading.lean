import DivisionScript.Json.Reading
import DivisionScript.Settings.Basic

/-!
# Settings — Reading

Settings from JSON text: an object with some of the four fields, each at most once and in any
order, or an array of the four values, of which the last ones may be missing. What is not given has
its default.
-/

namespace DivisionScript.Settings

open Json (Refusal Reader)
open Json.Reader

/-- The fields of the settings. -/
inductive Field where
  | maxCallDepth | enforceConstants | seed | programDir
deriving DecidableEq, Repr

namespace Field

/-- The fields in the order of the array form. -/
def all : List Field :=
  [maxCallDepth, enforceConstants, seed, programDir]

/-- The name of a field in JSON. -/
def name : Field → String
  | maxCallDepth => "max_call_depth"
  | enforceConstants => "enforce_constants"
  | seed => "seed"
  | programDir => "program_dir"

/-- The field of a name. -/
def ofName? (name : String) : Option Field :=
  all.find? fun field => field.name = name

/-- Reads the value of a field into settings. -/
def read (field : Field) (s : Settings) : Reader Settings :=
  match field with
  | maxCallDepth => return { s with maxCallDepth := ← unsigned }
  | enforceConstants => return { s with enforceConstants := ← truth }
  | seed => return { s with seed := ← optional unsigned }
  | programDir => return { s with programDir := ← string }

end Field

/-- Reads the colon between the name of a field and its value. -/
def colon : Reader Unit := do
  if (← ahead) = ':' then advance else refuse .malformed

/-- Reads the name of a field. -/
def fieldName : Reader String := do
  if (← ahead) = '"' then quotedString else refuse .malformed

/-- Reads the fields that are still `absent` up to the closing brace, the next one ahead. A field
that is not absent any more is a second one of its name. -/
def members (absent : List Field) (s : Settings) : Reader Settings := do
  let name ← fieldName
  match Field.ofName? name with
  | none => refuse .unfit
  | some field =>
    if h : field ∈ absent then
      colon
      let s ← field.read s
      match ← ahead with
      | '\x7d' => advance; pure s
      | ',' =>
        advance
        have : (absent.erase field).length < absent.length := by
          have := List.length_pos_of_mem h
          rw [List.length_erase_of_mem h]; omega
        members (absent.erase field) s
      | _ => refuse .malformed
    else
      refuse .unfit
termination_by absent.length
decreasing_by exact this

/-- Reads the object form after its opening brace. -/
def object : Reader Settings := do
  match ← ahead with
  | '\x7d' => advance; pure {}
  | _ => members Field.all {}

/-- Reads the values of the given fields up to the closing bracket, the next one ahead. -/
def elements : List Field → Settings → Reader Settings
  | [], _ => refuse .malformed
  | field :: fields, s => do
    let s ← field.read s
    match ← ahead with
    | ']' => advance; pure s
    | ',' =>
      advance
      match ← ahead? with
      | some ']' => refuse .malformed
      | _ => elements fields s
    | _ => refuse .malformed

/-- Reads the array form after its opening bracket. -/
def array : Reader Settings := do
  match ← ahead with
  | ']' => advance; pure {}
  | _ => elements Field.all {}

/-- Reads settings. -/
def read : Reader Settings := do
  let s ← match ← ahead with
    | '\x7b' => do advance; object
    | '[' => do advance; array
    | _ => unwanted
  finish
  pure s

/-- The settings that a JSON text denotes. -/
def ofJsonText (text : String) : Except Refusal Settings :=
  (read.run text.toList).map Prod.fst

end DivisionScript.Settings
