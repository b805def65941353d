import Behavior.Document
import Behavior.Duration
import Behavior.Hash
import Behavior.Opcode
import Behavior.Schema

/-!
A compiled model: code, the tables its operands index, and the layout of its state.
-/

namespace Behavior

/-- Properties of a model that its stored form announces up front, one bit each. -/
structure Flags where
  bits : UInt16 := 0
deriving DecidableEq, Repr, Inhabited

namespace Flags

def debugInfo : Flags := ⟨1⟩

def compressed : Flags := ⟨2⟩

def continuationPoints : Flags := ⟨4⟩

/-- The model continues another one. -/
def isExtension : Flags := ⟨8⟩

def all : Flags := ⟨15⟩

def contains (f other : Flags) : Bool :=
  f.bits &&& other.bits == other.bits

def insert (f other : Flags) : Flags :=
  ⟨f.bits ||| other.bits⟩

def remove (f other : Flags) : Flags :=
  ⟨f.bits &&& ~~~other.bits⟩

end Flags

/-- A place where a model pauses for an extension. Without one it continues at the default offset
when the timeout has passed. -/
structure ContinuationPoint where
  name : String
  nameHash : UInt32
  timeoutMs : UInt32
  defaultOffset : UInt32
  /-- Where the pause instruction stands. -/
  offset : UInt32
deriving DecidableEq, Repr, Inhabited

def ContinuationPoint.timeout (p : ContinuationPoint) : Duration :=
  .ofMillis p.timeoutMs.toNat

/-- What an extension continues: a model, at the point whose name has the given hash. -/
structure Attachment where
  parent : ModelId
  pointHash : UInt32
deriving DecidableEq, Repr, Inhabited

/-- Where code came from. Both lists ascend by code offset. -/
structure DebugMap where
  spans : Array (UInt32 × Span) := #[]
  flows : List (UInt32 × String) := []
deriving DecidableEq, Repr, Inhabited

namespace DebugMap

/-- Index of the last entry at or before an offset, found by halving: the answer lies in the `size`
entries from `base` on, of which the first is taken when all of them come later. -/
def locate (spans : Array (UInt32 × Span)) (offset : UInt32) (base size : Nat) : Nat :=
  if size ≤ 1 then base
  else
    let half := size / 2
    let middle := base + half
    match spans[middle]? with
    | some (start, _) =>
      locate spans offset (if start ≤ offset then middle else base) (size - half)
    | none => base
termination_by size

/-- Source location of the statement that produced the code at an offset. -/
def spanAt? (d : DebugMap) (offset : UInt32) : Option Span :=
  match d.spans[locate d.spans offset 0 d.spans.size]? with
  | some (start, span) => if start ≤ offset then some span else none
  | none => none

def flowAt? (d : DebugMap) (offset : UInt32) : Option String :=
  (d.flows.find? (·.1 == offset)).map (·.2)

end DebugMap

/-- A number that code refers to, kept as its bits: this tells the zeros apart, and stored models
keep whichever NaN they have. -/
structure Constant where
  bits : UInt64
deriving DecidableEq, Repr, Inhabited

namespace Constant

def ofFloat (x : Float) : Constant := ⟨x.toBits⟩

def value (c : Constant) : Float := .ofBits c.bits

end Constant

structure Model where
  id : ModelId
  version : UInt16
  flags : Flags
  /-- Operand stack depth that running the model may reach. -/
  maxStack : UInt16
  /-- Depth of nested calls that running the model may reach. -/
  maxCallDepth : UInt16
  localCount : UInt16
  entry : UInt32
  schema : Schema
  points : Array ContinuationPoint
  constants : Array Constant
  strings : Array String
  code : Array Word
  extends? : Option Attachment
  debug? : Option DebugMap
deriving DecidableEq, Repr, Inhabited

namespace Model

/-- The version of the stored form that is written and read. -/
def formatVersion : UInt16 := 1

def isExtension (m : Model) : Bool :=
  m.flags.contains .isExtension

def hasPoints (m : Model) : Bool :=
  !m.points.isEmpty

def inputSize (m : Model) : Nat := m.schema.inputSize

def outputSize (m : Model) : Nat := m.schema.outputSize

def stringIndex? (m : Model) (text : String) : Option Nat :=
  m.strings.findIdx? (· == text)

/-- The text that a value of string type stands for: the value is an index into the string
table. -/
def resolveString? (m : Model) (value : Float) : Option String :=
  (Binary64.toNat? value).bind fun i => m.strings[i]?

end Model

end Behavior
