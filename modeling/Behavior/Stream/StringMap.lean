import Behavior.Binary64
import Behavior.Pool

/-!
Texts of an extension in the string table of the stream it runs in.

Values of string type are indices. The stream has one table for all: the strings of its first
model, then those that extensions add. An extension has a table of its own, so its values are
recoded on the way in and out.
-/

namespace Behavior

/-- Numbers of an extension's strings in the stream's table, and the other way round. -/
structure StringMap where
  /-- For each string of the extension, its index in the stream's table. -/
  toStream : Array Nat
  /-- For each string of the stream, its index in the extension's table, if it is there. -/
  ofStream : Array (Option Nat)
deriving Inhabited

namespace StringMap

/-- Numbers from here on are not taken for indices. -/
def indexBound : Nat := 0xffffffff

def index? (value : Float) : Option Nat :=
  (Binary64.toNat? value).filter (· < indexBound)

/-- Index every string of an extension in a table, to which those that are missing are added. -/
def indexAll (table : Array String) (texts : List String) (indices : Array Nat) :
    Array Nat × Array String :=
  match texts with
  | [] => (indices, table)
  | text :: rest =>
    let (index, table) := Pool.intern table text
    indexAll table rest (indices.push index)

/-- The stream's table with the strings of an extension, and the map between the two. Of equal
strings in the extension the last one counts. -/
def build (stream extension : Array String) : Array String × StringMap :=
  let (toStream, table) := indexAll stream extension.toList #[]
  let ofStream := toStream.toList.zipIdx.foldl
    (fun (ofStream : Array (Option Nat)) (index, own) => ofStream.setIfInBounds index (some own))
    (Array.replicate table.size none)
  (table, ⟨toStream, ofStream⟩)

/-- A value of the stream as the extension sees it. The index of a text that the extension does not
have becomes a negative number, which comes back as it was. -/
def enter (map : StringMap) (value : Float) : Float :=
  match index? value with
  | none => value
  | some k =>
    match map.ofStream.getD k none with
    | some own => Float.ofNat own
    | none => -value - 1.0

/-- A value of the extension as the stream sees it. -/
def leave (map : StringMap) (value : Float) : Float :=
  match index? value with
  | some own =>
    match map.toStream[own]? with
    | some k => Float.ofNat k
    | none => value
  | none => if value < 0.0 && Binary64.isWhole value then -value - 1.0 else value

end StringMap

end Behavior
