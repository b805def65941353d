import Behavior.Intent
import Behavior.Intent.Channels

/-!
One decision per channel from the contributions of all sources.

On an exclusive channel the most urgent contribution wins, and of equally urgent ones that of the
source registered first. On a blendable channel values are averaged; only those of the kind of the
most urgent one take part. Abstentions count nowhere.
-/

namespace Behavior

/-- What becomes of one channel. -/
structure Decision where
  value : IntentValue
  /-- Urgency of the strongest contribution. -/
  urgency : Urgency
  /-- The source that won; none when values were blended. -/
  winner? : Option UInt32
deriving Inhabited

namespace Contribution

/-- Whether a contribution takes the place of one that came before it. -/
def outranks (candidate current : Contribution) : Bool :=
  if candidate.urgency.value != current.urgency.value then
    current.urgency.value < candidate.urgency.value
  else candidate.source < current.source

end Contribution

/-- A running weighted sum of values. -/
structure Blend where
  weight : Float := 0.0
  x : Float := 0.0
  y : Float := 0.0
  z : Float := 0.0
deriving Inhabited

namespace Blend

/-- Count a contribution in, if it can be blended. -/
def add (b : Blend) (c : Contribution) : Blend :=
  match c.value.components? with
  | none => b
  | some (x, y, z) =>
    let u := c.urgency.value
    ⟨b.weight + u, b.x + u * x, b.y + u * y, b.z + u * z⟩

/-- The weighted average as a value of a given kind, if there is one. -/
def average? (b : Blend) (kind : IntentValue) : Option IntentValue :=
  if b.weight ≤ 0.0 then none
  else
    match kind with
    | .scalar _ => some (.scalar (b.x / b.weight))
    | .vector _ _ _ => some (.vector (b.x / b.weight) (b.y / b.weight) (b.z / b.weight))
    | .symbol _ => none

end Blend

/-- What has been found out about one channel while contributions are gone through. -/
structure Tally where
  /-- Number of the strongest contribution so far. -/
  strongest? : Option Nat := none
  blend : Blend := {}
deriving Inhabited

namespace Tally

variable (contributions : List Contribution)

/-- The strongest contribution so far. -/
def leader? (t : Tally) : Option Contribution :=
  t.strongest?.bind (contributions[·]?)

/-- A contribution becomes the strongest if there is none yet or if it outranks the one there is. -/
def rank (t : Tally) (c : Contribution) (number : Nat) : Tally :=
  if (t.leader? contributions).all c.outranks then { t with strongest? := some number } else t

/-- Blend a contribution in, if it is no abstention and of the kind of the strongest one. -/
def count (t : Tally) (c : Contribution) : Tally :=
  match t.leader? contributions with
  | none => t
  | some best =>
    if c.urgency.isAbstention || !c.value.sameKind best.value then t
    else { t with blend := t.blend.add c }

/-- The decision, once all contributions are counted. -/
def decision? (policy : Policy) (t : Tally) : Option Decision :=
  (t.leader? contributions).map fun best =>
    let blended? : Option IntentValue :=
      match policy with
      | .exclusive => none
      | .blendable => t.blend.average? best.value
    match blended? with
    | some value => ⟨value, best.urgency, none⟩
    | none => ⟨best.value, best.urgency, some best.source⟩

end Tally

/-- The decisions of one cycle, one place per channel. -/
structure Decisions where
  slots : Array (Option Decision)
deriving Inhabited

namespace Decisions

def get? (d : Decisions) (channel : Nat) : Option Decision :=
  d.slots.getD channel none

/-- Numbers of the channels on which there is a decision. -/
def decided (d : Decisions) : List Nat :=
  (List.range d.slots.size).filter fun i => (d.get? i).isSome

def isEmpty (d : Decisions) : Bool :=
  d.slots.all (·.isNone)

end Decisions

/-- Merges contributions, cycle after cycle. Its vectors are those of the last cycle. -/
structure Merger where
  channels : Channels
  tallies : Array Tally
  decisions : Decisions
  tallies_size : tallies.size = channels.size
  slots_size : decisions.slots.size = channels.size

namespace Merger

/-- A merger before its first cycle. -/
def new (channels : Channels) : Merger where
  channels := channels
  tallies := Array.replicate channels.size {}
  decisions := ⟨Array.replicate channels.size none⟩
  tallies_size := Array.size_replicate
  slots_size := Array.size_replicate

instance : Inhabited Merger :=
  ⟨new {}⟩

/-- Find the strongest contribution to each channel. Contributions to channels that do not exist are
ignored, and so are abstentions. -/
def rankAll (contributions : List Contribution) (tallies : Array Tally) : Array Tally :=
  contributions.zipIdx.foldl
    (fun tallies (c, number) =>
      if c.urgency.isAbstention then tallies
      else tallies.modify c.channel.toNat (·.rank contributions c number))
    tallies

/-- Blend the contributions to each channel on which values are blended. -/
def countAll (channels : Channels) (contributions : List Contribution) (tallies : Array Tally) :
    Array Tally :=
  contributions.foldl
    (fun tallies c =>
      if channels.policy? c.channel.toNat = some .blendable then
        tallies.modify c.channel.toNat (·.count contributions c)
      else tallies)
    tallies

theorem size_rankAll (contributions : List Contribution) (tallies : Array Tally) :
    (rankAll contributions tallies).size = tallies.size :=
  List.foldlRecOn (motive := fun t : Array Tally => t.size = tallies.size) _ _ rfl
    fun t ht x _ => by
      dsimp only
      split
      · exact ht
      · rw [Array.size_modify, ht]

theorem size_countAll (channels : Channels) (contributions : List Contribution)
    (tallies : Array Tally) : (countAll channels contributions tallies).size = tallies.size :=
  List.foldlRecOn (motive := fun t : Array Tally => t.size = tallies.size) _ _ rfl
    fun t ht c _ => by
      split
      · rw [Array.size_modify, ht]
      · exact ht

/-- Decide on every channel. -/
def merge (m : Merger) (contributions : List Contribution) : Merger :=
  let cleared := m.tallies.map fun _ => {}
  let tallies := countAll m.channels contributions (rankAll contributions cleared)
  { m with
    tallies
    decisions := ⟨m.decisions.slots.mapIdx fun channel _ => do
      (tallies.getD channel {}).decision? contributions (← m.channels.policy? channel)⟩
    tallies_size := by rw [size_countAll, size_rankAll, Array.size_map, m.tallies_size]
    slots_size := by rw [Array.size_mapIdx, m.slots_size] }

end Merger

/-- Decide on every channel, without earlier cycles. -/
def Channels.merge (channels : Channels) (contributions : List Contribution) : Decisions :=
  ((Merger.new channels).merge contributions).decisions

end Behavior
