/-!
The types a document's values can have. At run time every value is a sequence of doubles, and the
type fixes how many.
-/

namespace Behavior

/-- Type of a variable, an expression or an intent. -/
inductive ValueType where
  | number
  | bool
  | string
  | vector3
deriving DecidableEq, Repr, Inhabited

namespace ValueType

def width : ValueType → Nat
  | vector3 => 3
  | _ => 1

/-- Number that stands for the type in stored models. -/
def tag : ValueType → UInt8
  | number => 0
  | bool => 1
  | string => 2
  | vector3 => 3

/-- The type a stored number stands for. -/
def ofTag? : UInt8 → Option ValueType
  | 0 => some number
  | 1 => some bool
  | 2 => some string
  | 3 => some vector3
  | _ => none

def name : ValueType → String
  | number => "number"
  | bool => "bool"
  | string => "string"
  | vector3 => "vector3"

def ofName? : String → Option ValueType
  | "number" => some number
  | "bool" => some bool
  | "string" => some string
  | "vector3" => some vector3
  | _ => none

theorem width_pos (t : ValueType) : 0 < t.width := by
  cases t <;> decide

theorem ofTag?_tag (t : ValueType) : ofTag? t.tag = some t := by
  cases t <;> rfl

theorem ofName?_name (t : ValueType) : ofName? t.name = some t := by
  cases t <;> rfl

end ValueType

end Behavior
