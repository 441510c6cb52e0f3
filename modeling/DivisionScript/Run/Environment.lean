import DivisionScript.Run.Value
import DivisionScript.Table

/-!
# Run — Environment

The one flat table of names of a run. A name is bound to a value and may be flagged as a constant;
plain writes keep the flag. The lemmas say what each operation does to the binding of a name.
-/

namespace DivisionScript

/-- What a name is bound to. -/
structure Binding where
  value : Value
  /-- Whether a declaration introduced the name as a constant. -/
  constant : Bool

/-- The names bound in a run. -/
structure Environment where
  bindings : Table Binding

namespace Environment

/-- The environment without names. -/
def empty : Environment :=
  ⟨.empty⟩

/-- The binding of a name. -/
def binding? (env : Environment) (name : String) : Option Binding :=
  env.bindings.get? name

/-- The value of a name. -/
def get (env : Environment) (name : String) : Except Fault Value :=
  match env.binding? name with
  | some b => .ok b.value
  | none => .error (.unbound name)

/-- Whether a name is bound. -/
def contains (env : Environment) (name : String) : Bool :=
  (env.binding? name).isSome

/-- Whether a name is bound as a constant. -/
def isConstant (env : Environment) (name : String) : Bool :=
  match env.binding? name with
  | some b => b.constant
  | none => false

/-- Writes a name and keeps its flag; a new name is not constant. -/
def set (env : Environment) (name : String) (value : Value) : Environment :=
  ⟨env.bindings.put name ⟨value, env.isConstant name⟩⟩

/-- Writes a name unless it is a constant. -/
def assign (env : Environment) (name : String) (value : Value) : Except Fault Environment :=
  if env.isConstant name then .error (.constant name) else .ok (env.set name value)

/-- Writes a name and flags it as a constant. -/
def defineConstant (env : Environment) (name : String) (value : Value) : Environment :=
  ⟨env.bindings.put name ⟨value, true⟩⟩

/-- How many names are bound. -/
def size (env : Environment) : Nat :=
  env.bindings.size

/-- The bindings in the order of their names. -/
def sorted (env : Environment) : List (String × Binding) :=
  env.bindings.sorted

/-! ## What the operations do -/

@[simp] theorem binding?_empty (name : String) : empty.binding? name = none := rfl

/-- A written name has the new value and its old flag, every other name its old binding. -/
theorem binding?_set (env : Environment) (name : String) (value : Value) (needle : String) :
    (env.set name value).binding? needle =
      if needle = name then some ⟨value, env.isConstant name⟩ else env.binding? needle :=
  Table.get?_put ..

/-- A defined constant has its value and the flag, every other name its old binding. -/
theorem binding?_defineConstant (env : Environment) (name : String) (value : Value)
    (needle : String) :
    (env.defineConstant name value).binding? needle =
      if needle = name then some ⟨value, true⟩ else env.binding? needle :=
  Table.get?_put ..

/-- Plain writes change no flag. -/
@[simp] theorem isConstant_set (env : Environment) (name : String) (value : Value)
    (needle : String) : (env.set name value).isConstant needle = env.isConstant needle := by
  by_cases h : needle = name
  · subst h
    simp [isConstant, binding?_set]
  · simp [isConstant, binding?_set, h]

/-- A defined constant is flagged, and no other flag changes. -/
theorem isConstant_defineConstant (env : Environment) (name : String) (value : Value)
    (needle : String) :
    (env.defineConstant name value).isConstant needle =
      (decide (needle = name) || env.isConstant needle) := by
  by_cases h : needle = name <;> simp [isConstant, binding?_defineConstant, h]

end Environment

end DivisionScript
