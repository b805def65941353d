import Behavior.Block

/-!
Computing repeated expressions once. Within a block, an expression of inputs and constants has one
value, so the largest one that occurs twice is kept in a local at the front of the block, and so on
until none occurs twice.
-/

namespace Behavior

namespace Scalar

/-- Number of nodes, and whether the expression has one value throughout a block, which is so if it
draws no random numbers and reads no locals. In front of `rest` come the parts that could be shared,
those with an operator, each with its size and before its own parts. -/
def candidates : Scalar → List (Nat × Scalar) → Nat × Bool × List (Nat × Scalar)
  | const _, rest | inputSlot _, rest => (1, true, rest)
  | localSlot _, rest | random, rest => (1, false, rest)
  | unary f a, rest =>
    let (n, fixed, rest) := a.candidates rest
    (n + 1, fixed, if fixed then (n + 1, unary f a) :: rest else rest)
  | binary f a b, rest =>
    let (m, fixedB, rest) := b.candidates rest
    let (n, fixedA, rest) := a.candidates rest
    let fixed := fixedA && fixedB
    (n + m + 1, fixed, if fixed then (n + m + 1, binary f a b) :: rest else rest)
  | ternary f a b c, rest =>
    let (l, fixedC, rest) := c.candidates rest
    let (m, fixedB, rest) := b.candidates rest
    let (n, fixedA, rest) := a.candidates rest
    let fixed := fixedA && fixedB && fixedC
    (n + m + l + 1, fixed, if fixed then (n + m + l + 1, ternary f a b c) :: rest else rest)
  | select a b c, rest =>
    let (l, fixedC, rest) := c.candidates rest
    let (m, fixedB, rest) := b.candidates rest
    let (n, fixedA, rest) := a.candidates rest
    let fixed := fixedA && fixedB && fixedC
    (n + m + l + 1, fixed, if fixed then (n + m + l + 1, select a b c) :: rest else rest)

/-- Read a local wherever the target occurs. -/
def replace (target : Scalar) (slot : Nat) (e : Scalar) : Scalar :=
  if e.same target then localSlot slot
  else
    match e with
    | unary f a => unary f (replace target slot a)
    | binary f a b => binary f (replace target slot a) (replace target slot b)
    | ternary f a b c =>
      ternary f (replace target slot a) (replace target slot b) (replace target slot c)
    | select a b c =>
      select (replace target slot a) (replace target slot b) (replace target slot c)
    | e => e

end Scalar

namespace Block

/-- The parts of a block's expressions that could be shared, in order, each with its size. -/
def candidates (b : Block) : List (Nat × Scalar) :=
  b.values.foldr (fun e rest => (e.candidates rest).2.2) []

/-- The largest candidate that occurs again later, the first one of that size. -/
def largestRepeated? (best : Option (Nat × Scalar)) : List (Nat × Scalar) → Option Scalar
  | [] => best.map (·.2)
  | (size, e) :: rest =>
    let larger := match best with
      | some (n, _) => n < size
      | none => true
    if larger && rest.any (fun (n, other) => n == size && e.same other) then
      largestRepeated? (some (size, e)) rest
    else largestRepeated? best rest

/-- Keep a value in a local before everything else. -/
def shareValue (b : Block) (slot : Nat) (value : Scalar) : Block :=
  let span :=
    match b.steps with
    | (_, span) :: _ => span
    | [] => b.exitSpan
  let rest := b.mapValues (Scalar.replace value slot)
  { rest with steps := (.setLocal slot value, span) :: rest.steps }

/-- Share values until no candidate is repeated; `slot` is the next free local. Each shared value
takes the place of two candidates at least, so there are fewer rounds than candidates. -/
def shareWithin : (fuel : Nat) → (slot : Nat) → Block → Nat × Block
  | 0, slot, b => (slot, b)
  | fuel + 1, slot, b =>
    match largestRepeated? none b.candidates with
    | some value => shareWithin fuel (slot + 1) (b.shareValue slot value)
    | none => (slot, b)

def share (slot : Nat) (b : Block) : Nat × Block :=
  b.shareWithin b.candidates.length slot

end Block

/-- Share the repeated values of every block that has code. -/
def BlockGraph.share (g : BlockGraph) : BlockGraph :=
  g.layout.foldl (fun g block =>
    let (localCount, b) := (g.blocks.getD block {}).share g.localCount
    { g with blocks := g.blocks.setIfInBounds block b, localCount }) g

end Behavior
