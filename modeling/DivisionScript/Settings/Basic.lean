import DivisionScript.Json.Basic

/-!
# Settings — Basic

The settings of an interpreter, their defaults and their JSON form.
-/

namespace DivisionScript

/-- The settings of an interpreter. -/
structure Settings where
  /-- How many calls may be in progress at once. -/
  maxCallDepth : UInt64 := 256
  /-- Whether writes to constants are refused. -/
  enforceConstants : Bool := true
  /-- The seed of the random numbers; without one they differ from run to run. -/
  seed : Option UInt64 := none
  /-- Where the prompt looks for the programs that it is asked to run. -/
  programDir : String := "programs"
deriving DecidableEq, Repr

namespace Settings

/-- The settings as JSON. -/
def toJson (s : Settings) : Json :=
  .object
    [("max_call_depth", .count s.maxCallDepth.toNat),
     ("enforce_constants", .bool s.enforceConstants),
     ("seed", match s.seed with
        | some seed => .count seed.toNat
        | none => .null),
     ("program_dir", .string s.programDir)]

/-- A truth value in a log message. -/
def truthText (b : Bool) : String :=
  if b then "true" else "false"

/-- The settings in a log message. -/
def diagnostic (s : Settings) : String :=
  let seed := match s.seed with
    | some seed => "Some(" ++ toString seed.toNat ++ ")"
    | none => "None"
  "Config \x7b max_call_depth: " ++ toString s.maxCallDepth.toNat ++ ", enforce_constants: " ++
    truthText s.enforceConstants ++ ", seed: " ++ seed ++ ", program_dir: " ++
    Text.quote s.programDir ++ " \x7d"

end Settings

end DivisionScript
