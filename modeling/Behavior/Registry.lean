import Behavior.ValueType
import Behavior.Json

/-!
The variables a document may refer to, by qualified name.
-/

namespace Behavior

/-- How a document may use a variable: read it, write it by assignment, or write it by intents. -/
inductive Access where
  | input
  | output
  | channel
deriving DecidableEq, Repr, Inhabited

namespace Access

def name : Access → String
  | input => "input"
  | output => "output"
  | channel => "channel"

def ofName? : String → Option Access
  | "input" => some input
  | "output" => some output
  | "channel" => some channel
  | _ => none

end Access

/-- Declared type and use of one variable. -/
structure Variable where
  type : ValueType
  access : Access
deriving DecidableEq, Repr, Inhabited

/-- Variables by name; each name is declared once. -/
structure Registry where
  declared : List (String × Variable) := []
deriving Inhabited

namespace Registry

/-- Declare a variable, in place of an earlier one of the same name. -/
def insert (r : Registry) (name : String) (v : Variable) : Registry :=
  ⟨r.declared.filter (·.1 != name) ++ [(name, v)]⟩

def lookup (r : Registry) (name : String) : Option Variable :=
  r.declared.lookup name

/-- Whether some variable's name continues the given one with a dot. -/
def hasNamespace (r : Registry) (name : String) : Bool :=
  r.declared.any fun (key, _) => (name.toList ++ ['.']).isPrefixOf key.toList

def size (r : Registry) : Nat := r.declared.length

end Registry

def ValueType.ofJson? (j : Json) : Option ValueType :=
  j.plainVariant?.bind ValueType.ofName?

def Access.ofJson? (j : Json) : Option Access :=
  j.plainVariant?.bind Access.ofName?

def Variable.ofJson? (j : Json) : Option Variable :=
  match j.record? ["type", "access"] with
  | some [some type, some access] => do
    return ⟨← ValueType.ofJson? type, ← Access.ofJson? access⟩
  | _ => none

/-- Read a registry: a record with the variables by name. -/
def Registry.ofJson? (j : Json) : Option Registry :=
  match j.record? ["variables"] with
  | some [none] => some {}
  | some [some (.obj fields)] =>
    fields.foldlM (fun r (name, j) => (Variable.ofJson? j).map (r.insert name)) {}
  | _ => none

end Behavior
