import Behavior.ValueType

/-!
The layout of a model's state: which slots of the input and the output vector its variables and
channels occupy.
-/

namespace Behavior

namespace Schema

/-- A named variable and the first of its slots. -/
structure Entry where
  name : String
  type : ValueType
  slot : UInt16
deriving DecidableEq, Repr, Inhabited

/-- One past the last slot of the variable. -/
def Entry.stop (e : Entry) : Nat :=
  e.slot.toNat + e.type.width

def Entry.covers (e : Entry) (slot : Nat) : Bool :=
  e.slot.toNat ≤ slot && slot < e.stop

/-- A channel the model writes intents to: its value and its urgency, both in the output vector. -/
structure Channel where
  name : String
  type : ValueType
  valueSlot : UInt16
  urgencySlot : UInt16
deriving DecidableEq, Repr, Inhabited

def Channel.valueStop (c : Channel) : Nat :=
  c.valueSlot.toNat + c.type.width

def Channel.coversValue (c : Channel) (slot : Nat) : Bool :=
  c.valueSlot.toNat ≤ slot && slot < c.valueStop

/-- One past the last slot the channel uses. -/
def Channel.stop (c : Channel) : Nat :=
  max c.valueStop (c.urgencySlot.toNat + 1)

end Schema

/-- Variables and channels of a model, in the order in which the document first uses them. -/
structure Schema where
  inputs : List Schema.Entry := []
  outputs : List Schema.Entry := []
  channels : List Schema.Channel := []
deriving DecidableEq, Repr, Inhabited

namespace Schema

/-- Number of slots of the input vector. -/
def inputSize (s : Schema) : Nat :=
  s.inputs.foldl (fun size e => max size e.stop) 0

/-- Number of slots of the output vector. -/
def outputSize (s : Schema) : Nat :=
  s.channels.foldl (fun size c => max size c.stop)
    (s.outputs.foldl (fun size e => max size e.stop) 0)

theorem foldl_max_le_iff {α : Type} (f : α → Nat) (l : List α) (start bound : Nat) :
    l.foldl (fun size a => max size (f a)) start ≤ bound ↔
      start ≤ bound ∧ ∀ a ∈ l, f a ≤ bound := by
  induction l generalizing start with
  | nil => simp
  | cons a rest ih => rw [List.foldl_cons, ih, Nat.max_le, List.forall_mem_cons, and_assoc]

/-- The input vector is as long as its variables need. -/
theorem inputSize_le_iff {s : Schema} {bound : Nat} :
    s.inputSize ≤ bound ↔ ∀ e ∈ s.inputs, e.stop ≤ bound := by
  simp [inputSize, foldl_max_le_iff]

/-- The output vector is as long as its variables and channels need. -/
theorem outputSize_le_iff {s : Schema} {bound : Nat} :
    s.outputSize ≤ bound ↔
      (∀ e ∈ s.outputs, e.stop ≤ bound) ∧ ∀ c ∈ s.channels, c.stop ≤ bound := by
  simp [outputSize, foldl_max_le_iff]

def input? (s : Schema) (name : String) : Option Entry :=
  s.inputs.find? (·.name == name)

def output? (s : Schema) (name : String) : Option Entry :=
  s.outputs.find? (·.name == name)

def channel? (s : Schema) (name : String) : Option Channel :=
  s.channels.find? (·.name == name)

theorem input?_eq_some {s : Schema} {name : String} {e : Entry} (h : s.input? name = some e) :
    e ∈ s.inputs ∧ e.name = name := by
  have hname := List.find?_some h
  exact ⟨List.mem_of_find?_eq_some h, beq_iff_eq.1 hname⟩

theorem output?_eq_some {s : Schema} {name : String} {e : Entry} (h : s.output? name = some e) :
    e ∈ s.outputs ∧ e.name = name := by
  have hname := List.find?_some h
  exact ⟨List.mem_of_find?_eq_some h, beq_iff_eq.1 hname⟩

theorem channel?_eq_some {s : Schema} {name : String} {c : Channel}
    (h : s.channel? name = some c) : c ∈ s.channels ∧ c.name = name := by
  have hname := List.find?_some h
  exact ⟨List.mem_of_find?_eq_some h, beq_iff_eq.1 hname⟩

/-- Whether some output or channel holds texts. -/
def writesTexts (s : Schema) : Bool :=
  s.outputs.any (·.type == .string) || s.channels.any (·.type == .string)

end Schema

end Behavior
