import Behavior.Block
import Behavior.Proofs.Draws
import Mathlib.Logic.Function.Basic

/-!
What a block graph means. A walk goes through the blocks of a graph step by step: it evaluates
expressions over locals and inputs, writes locals and outputs, and remembers where to go on after a
call. Unlike the machine it needs neither code nor an operand stack, so it is what compiled code is
compared with, and what the passes over graphs are shown to preserve.
-/

namespace Behavior

namespace Scalar

/-- The value of an expression, and the tape after it. Inputs past the end count as zero. -/
def eval (inputs : Array Float) (locals : Nat → Float) : Scalar → Tape → Float × Tape
  | const x, r => (x, r)
  | inputSlot slot, r => (inputs.getD slot 0.0, r)
  | localSlot slot, r => (locals slot, r)
  | random, r => r.next
  | unary f a, r =>
    let x := a.eval inputs locals r
    (f.apply x.1, x.2)
  | binary f a b, r =>
    let x := a.eval inputs locals r
    let y := b.eval inputs locals x.2
    (f.apply x.1 y.1, y.2)
  | ternary f a b c, r =>
    let x := a.eval inputs locals r
    let y := b.eval inputs locals x.2
    let z := c.eval inputs locals y.2
    (f.apply x.1 y.1 z.1, z.2)
  | select condition a b, r =>
    let x := condition.eval inputs locals r
    if truthy x.1 then a.eval inputs locals x.2 else b.eval inputs locals x.2

end Scalar

/-- The block of a number; blocks that are not there are empty. -/
def BlockGraph.block (g : BlockGraph) (i : Nat) : Block :=
  g.blocks.getD i {}

/-- Somewhere in a block graph. -/
structure Walk where
  /-- What is left of the current block. -/
  block : Block
  /-- What is left of the blocks to come back to, the innermost first. -/
  calls : List Block := []
  locals : Nat → Float
  outputs : Array Float
  tape : Tape

namespace Walk

/-- The random numbers that are left. -/
def random (w : Walk) : Random :=
  w.tape.random

/-- At the entry of a graph, with all locals zero and nothing drawn. -/
def start (g : BlockGraph) (outputs : Array Float) (random : Random) : Walk where
  block := g.block BlockGraph.entry
  locals := fun _ => 0.0
  outputs := outputs
  tape := .start random

/-- What one step of a walk does. -/
inductive Reaction where
  | next (w : Walk)
  | stop (signal : Signal) (w : Walk)

/-- Leave the current block. A walk that waits or pauses goes on with a jump. -/
def leave (g : BlockGraph) (inputs : Array Float) (w : Walk) : Reaction :=
  match w.block.exit with
  | .jump b => .next { w with block := g.block b }
  | .branch condition thenBlock elseBlock =>
    let x := condition.eval inputs w.locals w.tape
    .next { w with
      block := g.block (if truthy x.1 then thenBlock else elseBlock)
      tape := x.2 }
  | .ret =>
    match w.calls with
    | back :: rest => .next { w with block := back, calls := rest }
    | [] => .stop .halt w
  | .halt => .stop .halt w
  | .wait seconds next =>
    let x := seconds.eval inputs w.locals w.tape
    .stop (.wait x.1) { w with block := { exit := .jump next }, tape := x.2 }
  | .pause point defaultBlock =>
    .stop (.pause point) { w with block := { exit := .jump defaultBlock } }

/-- One step of the current block, or leaving it if none is left. -/
def step (g : BlockGraph) (inputs : Array Float) (w : Walk) : Reaction :=
  match w.block.steps with
  | [] => w.leave g inputs
  | (.setLocal slot value, _) :: rest =>
    let x := value.eval inputs w.locals w.tape
    .next { w with
      block := { w.block with steps := rest }
      locals := Function.update w.locals slot x.1
      tape := x.2 }
  | (.setOutput slot value, _) :: rest =>
    let x := value.eval inputs w.locals w.tape
    .next { w with
      block := { w.block with steps := rest }
      outputs := w.outputs.setIfInBounds slot x.1
      tape := x.2 }
  | (.call b, _) :: rest =>
    .next { w with block := g.block b, calls := { w.block with steps := rest } :: w.calls }

/-- A run of the given length that ends with a signal. Waits are passed over if `skipWaits` is
set. -/
inductive Runs (g : BlockGraph) (inputs : Array Float) (skipWaits : Bool) :
    Nat → Walk → Signal → Walk → Prop
  | stop {w w' : Walk} {signal : Signal} :
      w.step g inputs = .stop signal w' → (skipWaits = true → ∀ x, signal ≠ .wait x) →
      Runs g inputs skipWaits 1 w signal w'
  | step {w v w' : Walk} {signal : Signal} {n : Nat} :
      w.step g inputs = .next v → Runs g inputs skipWaits n v signal w' →
      Runs g inputs skipWaits (n + 1) w signal w'
  | pass {w v w' : Walk} {signal : Signal} {x : Float} {n : Nat} :
      skipWaits = true → w.step g inputs = .stop (.wait x) v →
      Runs g inputs skipWaits n v signal w' →
      Runs g inputs skipWaits (n + 1) w signal w'

variable {g : BlockGraph} {inputs : Array Float} {skipWaits : Bool} {n : Nat} {w w' : Walk}
  {signal : Signal}

theorem Runs.of_next {v : Walk} (h : Runs g inputs skipWaits n w signal w')
    (hs : w.step g inputs = .next v) :
    ∃ k, n = k + 1 ∧ Runs g inputs skipWaits k v signal w' := by
  cases h with
  | stop hs' _ | pass _ hs' _ =>
    rw [hs] at hs'
    cases hs'
  | step hs' h' =>
    rw [hs] at hs'
    cases hs'
    exact ⟨_, rfl, h'⟩

/-- A run that comes to a stop: it ends there, or passes over a wait. -/
theorem Runs.of_stop {v : Walk} {signal' : Signal} (h : Runs g inputs skipWaits n w signal w')
    (hs : w.step g inputs = .stop signal' v) :
    (n = 1 ∧ signal' = signal ∧ v = w' ∧ (skipWaits = true → ∀ x, signal ≠ .wait x)) ∨
      ∃ x k, skipWaits = true ∧ signal' = .wait x ∧ n = k + 1 ∧
        Runs g inputs skipWaits k v signal w' := by
  cases h with
  | stop hs' hwait =>
    rw [hs] at hs'
    cases hs'
    exact .inl ⟨rfl, rfl, rfl, hwait⟩
  | step hs' _ =>
    rw [hs] at hs'
    cases hs'
  | pass hskip hs' h' =>
    rw [hs] at hs'
    cases hs'
    exact .inr ⟨_, _, hskip, rfl, rfl, h'⟩

/-- A run that passes over waits ends with none. -/
theorem Runs.ne_wait (h : Runs g inputs true n w signal w') (x : Float) : signal ≠ .wait x := by
  induction h with
  | stop _ hwait => exact hwait rfl x
  | step _ _ ih | pass _ _ _ ih => exact ih

/-- A walk has at most one end. -/
theorem Runs.unique {n' : Nat} {w₁ w₂ : Walk} {signal₁ signal₂ : Signal}
    (h : Runs g inputs skipWaits n w signal₁ w₁) (h' : Runs g inputs skipWaits n' w signal₂ w₂) :
    signal₁ = signal₂ ∧ w₁ = w₂ := by
  induction h generalizing n' with
  | stop hs hwait =>
    rcases h'.of_stop hs with ⟨-, rfl, rfl, -⟩ | ⟨x, k, hskip, rfl, -, -⟩
    · exact ⟨rfl, rfl⟩
    · exact absurd rfl (hwait hskip x)
  | step hs _ ih =>
    obtain ⟨k, -, h'⟩ := h'.of_next hs
    exact ih h'
  | pass hskip hs _ ih =>
    rcases h'.of_stop hs with ⟨-, rfl, -, hwait⟩ | ⟨x, k, -, -, -, h'⟩
    · exact absurd rfl (hwait hskip _)
    · exact ih h'

/-- The walk with all its blocks changed in the same way. -/
def map (f : Block → Block) (w : Walk) : Walk :=
  { w with block := f w.block, calls := w.calls.map f }

def Reaction.map (f : Block → Block) : Reaction → Reaction
  | .next w => .next (w.map f)
  | .stop signal w => .stop signal (w.map f)

/-- A change of blocks that carries over each step carries over runs. -/
theorem Runs.map {g' : BlockGraph} {f : Block → Block}
    (hf : ∀ w : Walk, (w.map f).step g' inputs = (w.step g inputs).map f)
    (h : Runs g inputs skipWaits n w signal w') :
    Runs g' inputs skipWaits n (w.map f) signal (w'.map f) := by
  induction h with
  | stop hs hsignal => exact .stop (by rw [hf, hs]; rfl) hsignal
  | step hs _ ih => exact .step (by rw [hf, hs]; rfl) ih
  | pass hskip hs _ ih => exact .pass hskip (by rw [hf, hs]; rfl) ih

end Walk

end Behavior
