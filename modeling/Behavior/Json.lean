import Behavior.Decimal.Layout

/-!
JSON values and the shapes that records and variants take in them.

A number literal is a whole number when it is written as one and fits 64 bits, and a double
otherwise. The fields of an object have different names.
-/

namespace Behavior

inductive Json where
  | null
  | bool (value : Bool)
  | int (value : Int)
  | real (value : Float)
  | str (value : String)
  | arr (items : List Json)
  | obj (fields : List (String × Json))
deriving Inhabited

namespace Json

def field? (key : String) : Json → Option Json
  | obj fields => fields.lookup key
  | _ => none

def bool? : Json → Option Bool
  | bool b => some b
  | _ => none

def string? : Json → Option String
  | str s => some s
  | _ => none

def list? : Json → Option (List Json)
  | arr items => some items
  | _ => none

/-- A natural number of at most the given size, written as a whole number. -/
def nat? (bound : Nat) : Json → Option Nat
  | int (.ofNat n) => if n ≤ bound then some n else none
  | _ => none

def uint8? (j : Json) : Option UInt8 := (j.nat? 0xff).map Nat.toUInt8

def uint16? (j : Json) : Option UInt16 := (j.nat? 0xffff).map Nat.toUInt16

def uint32? (j : Json) : Option UInt32 := (j.nat? 0xffffffff).map Nat.toUInt32

def uint64? (j : Json) : Option UInt64 := (j.nat? 0xffffffffffffffff).map Nat.toUInt64

/-- The nearest double to a number of either form. -/
def float? : Json → Option Float
  | int (.ofNat n) => some (Float.ofNat n)
  | int (.negSucc n) => some (-Float.ofNat (n + 1))
  | real x => some x
  | _ => none

/-- The fields of a record: an object, or an array that gives the fields in order and may leave out
the last ones. Fields that are not named are ignored in an object and refused in an array. -/
def record? (names : List String) : Json → Option (List (Option Json))
  | obj fields => some (names.map fun name => fields.lookup name)
  | arr items =>
    if items.length ≤ names.length then
      some (items.map some ++ List.replicate (names.length - items.length) none)
    else none
  | _ => none

/-- A variant: its name alone, or an object whose only field is named for it and holds its data. -/
def variant? : Json → Option (String × Option Json)
  | str name => some (name, none)
  | obj [(name, data)] => some (name, some data)
  | _ => none

def plainVariant? (j : Json) : Option String :=
  match j.variant? with
  | some (name, none) => some name
  | some (name, some null) => some name
  | _ => none

/-- Present and read by `read`, or absent and standing for `fallback`. -/
def optional (j : Option Json) (fallback : α) (read : Json → Option α) : Option α :=
  match j with
  | none => some fallback
  | some j => read j

/-- Absent or null for no value. -/
def nullable (j : Option Json) (read : Json → Option α) : Option (Option α) :=
  match j with
  | none => some none
  | some null => some none
  | some j => (read j).map some

def listOf? (read : Json → Option α) (j : Json) : Option (List α) :=
  j.list?.bind fun items => items.mapM read

mutual

/-- Number of arrays and objects around the innermost value. -/
def depth : Json → Nat
  | arr items => depthItems 0 items + 1
  | obj fields => depthFields 0 fields + 1
  | _ => 0

/-- The greatest depth among values, and at least the given one. -/
def depthItems (least : Nat) : List Json → Nat
  | [] => least
  | j :: rest => depthItems (max least j.depth) rest

def depthFields (least : Nat) : List (String × Json) → Nat
  | [] => least
  | (_, j) :: rest => depthFields (max least j.depth) rest

end

end Json

end Behavior
