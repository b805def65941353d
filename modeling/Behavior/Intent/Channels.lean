import Behavior.Json

/-!
The channels of an entity: what its sources compete for.
-/

namespace Behavior

/-- How contributions to one channel are brought together. -/
inductive Policy where
  /-- The most urgent contribution wins. -/
  | exclusive
  /-- Contributions are averaged, weighted by urgency. -/
  | blendable
deriving DecidableEq, Repr, Inhabited

namespace Policy

def name : Policy → String
  | exclusive => "exclusive"
  | blendable => "blendable"

def ofName? : String → Option Policy
  | "exclusive" => some exclusive
  | "blendable" => some blendable
  | _ => none

end Policy

structure ChannelSpec where
  name : String
  policy : Policy
deriving DecidableEq, Repr, Inhabited

/-- The channels of an entity, numbered in this order. -/
structure Channels where
  specs : Array ChannelSpec := #[]
deriving DecidableEq, Repr, Inhabited

namespace Channels

def size (c : Channels) : Nat := c.specs.size

/-- Number of the first channel of a name, if it is one of those that can be referred to. -/
def channel? (c : Channels) (name : String) : Option UInt16 := do
  let i ← c.specs.findIdx? (·.name == name)
  if i < UInt16.size then some i.toUInt16 else none

def policy? (c : Channels) (i : Nat) : Option Policy :=
  c.specs[i]?.map (·.policy)

end Channels

def ChannelSpec.ofJson? (j : Json) : Option ChannelSpec :=
  match j.record? ["name", "policy"] with
  | some [some name, some policy] => do
    return ⟨← name.string?, ← policy.plainVariant?.bind Policy.ofName?⟩
  | _ => none

/-- Read channels, a record with the list of them. -/
def Channels.ofJson? (j : Json) : Option Channels :=
  match j.record? ["channels"] with
  | some [some specs] => do return ⟨(← specs.listOf? ChannelSpec.ofJson?).toArray⟩
  | _ => none

end Behavior
