import Behavior.ValueType

/-!
The state of an entity: named values that models read as inputs.
-/

namespace Behavior

/-- A named value. A scalar uses the first number only. -/
structure Snapshot.Entry where
  name : String
  type : ValueType
  x : Float
  y : Float
  z : Float
deriving Inhabited

def Snapshot.Entry.values (e : Snapshot.Entry) : List Float :=
  [e.x, e.y, e.z]

/-- Named values; a name keeps its place, also when its value changes type. -/
structure Snapshot where
  entries : Array Snapshot.Entry := #[]
deriving Inhabited

namespace Snapshot

/-- Set a value, in place of an earlier one of the same name. -/
def put (s : Snapshot) (e : Entry) : Snapshot :=
  match s.entries.findIdx? (·.name == e.name) with
  | some i => ⟨s.entries.setIfInBounds i e⟩
  | none => ⟨s.entries.push e⟩

def setNumber (s : Snapshot) (name : String) (x : Float) : Snapshot :=
  s.put ⟨name, .number, x, 0.0, 0.0⟩

def setBool (s : Snapshot) (name : String) (b : Bool) : Snapshot :=
  s.put ⟨name, .bool, if b then 1.0 else 0.0, 0.0, 0.0⟩

def setVector (s : Snapshot) (name : String) (x y z : Float) : Snapshot :=
  s.put ⟨name, .vector3, x, y, z⟩

/-- The numbers of a value. -/
def get? (s : Snapshot) (name : String) : Option (List Float) :=
  (s.entries.find? (·.name == name)).map fun e => e.values.take e.type.width

/-- Place of a value that has as many numbers as a type takes. -/
def key? (s : Snapshot) (name : String) (type : ValueType) : Option Nat :=
  s.entries.findIdx? fun e => e.name == name && e.type.width == type.width

/-- Copy the value at a place into some slots of a vector, which keeps those for which there is no
number. -/
def read (s : Snapshot) (key : Nat) (slot width : Nat) (target : Array Float) : Array Float :=
  match s.entries[key]? with
  | none => target
  | some e =>
    (e.values.take width).zipIdx.foldl
      (fun target (x, i) => target.setIfInBounds (slot + i) x) target

end Snapshot

end Behavior
