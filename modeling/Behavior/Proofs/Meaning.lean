import Behavior.Proofs.Draws
import Behavior.Typed.Check

/-!
What a document means, without slots for locals, blocks or code. Expressions are evaluated where
they stand, from left to right, over the locals of the blocks around them; statements change those
locals and write outputs; flows are looked up by name and have locals of their own. Random numbers are
drawn from a tape that keeps a record of them.

This is what compiled documents are compared with. It asks nothing of a document beforehand: where a
document makes no sense there is no result.
-/

namespace Behavior

/-- What an expression can evaluate to. Truth values and texts are numbers. -/
inductive Datum where
  | scalar (x : Float)
  | vector (x y z : Float)
deriving Inhabited

namespace Datum

/-- One number for each slot. -/
def numbers : Datum → List Float
  | scalar x => [x]
  | vector x y z => [x, y, z]

/-- A datum of a type, from consecutive slots. -/
def read (type : ValueType) (slots : Nat → Float) (first : Nat) : Datum :=
  match type with
  | .vector3 => vector (slots first) (slots (first + 1)) (slots (first + 2))
  | _ => scalar (slots first)

def scalar? : Datum → Option Float
  | scalar x => some x
  | vector .. => none

end Datum

/-- Numbers in consecutive slots, the last of several to one slot counting. -/
def writeAll (slots : Array Float) (first : Nat) : List Float → Array Float
  | [] => slots
  | x :: rest => writeAll (slots.setIfInBounds first x) (first + 1) rest

/-- How statements end. -/
inductive Ending where
  /-- After the last one. -/
  | done
  /-- The flow was left for another one, which is over. -/
  | left
  | halted
  /-- At a continuation point. -/
  | paused
deriving DecidableEq, Repr, Inhabited

namespace Ending

/-- What comes next is reached only after the last statement. -/
def andThen {α : Type} (o : Option (α × Ending)) (next : α → Option (α × Ending)) :
    Option (α × Ending) :=
  match o with
  | some (a, done) => next a
  | some (a, ending) => some (a, ending)
  | none => none

/-- A body a number of times. -/
def iterate {α : Type} (body : α → Option (α × Ending)) : Nat → α → Option (α × Ending)
  | 0, a => some (a, done)
  | n + 1, a => andThen (body a) (iterate body n)

/-- How a call ends, given how the flow does. -/
def ofCall : Ending → Ending
  | halted => halted
  | paused => paused
  | _ => done

/-- How a flow ends that has been left for another, given how that one does. -/
def ofGoto : Ending → Ending
  | halted => halted
  | paused => paused
  | _ => left

/-- Nothing comes after it, not even in the flow that it was called from. -/
def isFinal : Ending → Bool
  | halted | paused => true
  | _ => false

theorem ofCall_eq (ending : Ending) :
    ending.ofCall = if ending.isFinal then ending else done := by
  cases ending <;> rfl

theorem ofGoto_eq (ending : Ending) :
    ending.ofGoto = if ending.isFinal then ending else left := by
  cases ending <;> rfl

end Ending

/-- A function of numbers. -/
def Typed.Builtin.apply? : Builtin → List Float → Tape → Option (Float × Tape)
  | random, [], r => some r.next
  | abs, [a], r => some (UnaryFn.abs.apply a, r)
  | min, [a, b], r => some (BinaryFn.min.apply a b, r)
  | max, [a, b], r => some (BinaryFn.max.apply a b, r)
  | lerp, [a, b, c], r => some (TernaryFn.lerp.apply a b c, r)
  | clamp, [a, b, c], r => some (TernaryFn.clamp.apply a b c, r)
  | _, _, _ => none

namespace Meaning

/-! ## Locals -/

/-- Locals of one block, the latest first. -/
abbrev Scope := List (String × Datum)

/-- The innermost local of a name. -/
def find (scopes : List Scope) (name : String) : Option Datum :=
  scopes.findSome? fun scope => scope.lookup name

/-- A local becomes known in the innermost block, in place of an earlier one of its name. -/
def define (name : String) (x : Datum) : List Scope → List Scope
  | [] => [[(name, x)]]
  | scope :: outer => ((name, x) :: scope.filter (·.1 != name)) :: outer

def assignIn (name : String) (x : Datum) : Scope → Scope
  | [] => []
  | (name', y) :: rest =>
    if name' == name then (name', x) :: rest else (name', y) :: assignIn name x rest

/-- The innermost local of a name gets another value. -/
def assign (name : String) (x : Datum) : List Scope → List Scope
  | [] => []
  | scope :: outer =>
    if (scope.lookup name).isSome then assignIn name x scope :: outer
    else scope :: assign name x outer

/-! ## Expressions -/

/-- What stays the same throughout a run. -/
structure World where
  /-- What names refer to besides locals. -/
  names : Typed.Names
  /-- Where inputs and outputs are. -/
  schema : Schema
  /-- The number that stands for a text. -/
  handle : String → Float
  inputs : Array Float

namespace World

variable (W : World)

/-- An input, or a number with a name of its own. -/
def value? (name : String) : Option Datum :=
  match W.names.resolve? name with
  | some (qualified, ⟨type, .input⟩) =>
    (W.schema.input? qualified).map fun e => .read type (W.inputs.getD · 0.0) e.slot.toNat
  | some _ => none
  | none => (Typed.namedConstant? name).map .scalar

/-- The first slot of an output. -/
def output? (name : String) : Option Nat :=
  match W.names.resolve? name with
  | some (qualified, ⟨_, .output⟩) => (W.schema.output? qualified).map (·.slot.toNat)
  | _ => none

/-- The first slot of a channel's value, and the slot of its urgency. -/
def channel? (name : String) : Option (Nat × Nat) :=
  match W.names.resolve? name with
  | some (qualified, ⟨_, .channel⟩) =>
    (W.schema.channel? qualified).map fun c => (c.valueSlot.toNat, c.urgencySlot.toNat)
  | _ => none

mutual

/-- Evaluate an expression. A conditional evaluates its condition and one alternative. -/
def eval (scopes : List Scope) : Expr → Tape → Option (Datum × Tape)
  | .number _ x, r => some (.scalar x, r)
  | .bool _ b, r => some (.scalar (truthValue b), r)
  | .str _ text, r => some (.scalar (W.handle text), r)
  | .vector _ items, r => do
    match ← evalNumbers scopes items r with
    | ([x, y, z], r) => some (.vector x y z, r)
    | _ => none
  | .var _ name, r =>
    match find scopes name with
    | some x => some (x, r)
    | none => (W.value? name).map (·, r)
  | .unary _ op operand, r => do
    let (x, r) ← eval scopes operand r
    return (.scalar (op.fn.apply (← x.scalar?)), r)
  | .binary _ op left right, r => do
    let (x, r) ← eval scopes left r
    let (y, r) ← eval scopes right r
    return (.scalar (op.fn.apply (← x.scalar?) (← y.scalar?)), r)
  | .conditional _ condition thenExpr elseExpr, r => do
    let (x, r) ← eval scopes condition r
    if truthy (← x.scalar?) then eval scopes thenExpr r else eval scopes elseExpr r
  | .call _ function args, r => do
    let builtin ← Typed.Builtin.ofName? function
    let (xs, r) ← evalNumbers scopes args r
    let (x, r) ← builtin.apply? xs r
    return (.scalar x, r)

def evalNumbers (scopes : List Scope) : List Expr → Tape → Option (List Float × Tape)
  | [], r => some ([], r)
  | e :: rest, r => do
    let (x, r) ← eval scopes e r
    let (xs, r) ← evalNumbers scopes rest r
    return ((← x.scalar?) :: xs, r)

end

end World

/-! ## Statements -/

/-- What statements change. -/
structure Store where
  /-- Locals of the blocks around, the innermost first. -/
  scopes : List Scope := []
  outputs : Array Float
  tape : Tape

/-- A block with locals of its own. -/
def inBlock (body : Store → Option (Store × Ending)) (s : Store) : Option (Store × Ending) := do
  let (t, ending) ← body { s with scopes := [] :: s.scopes }
  return ({ t with scopes := t.scopes.tail }, ending)

namespace World

variable (W : World) (enter : String → Store → Option (Store × Ending))

mutual

/-- Run a statement, given what it is to enter a flow. -/
def run : Stmt → Store → Option (Store × Ending)
  | .bind _ name value, s => do
    let (x, r) ← W.eval s.scopes value s.tape
    return ({ s with scopes := define name x s.scopes, tape := r }, .done)
  | .assign _ target value, s => do
    let (x, r) ← W.eval s.scopes value s.tape
    match find s.scopes target with
    | some _ => return ({ s with scopes := assign target x s.scopes, tape := r }, .done)
    | none =>
      let slot ← W.output? target
      return ({ s with outputs := writeAll s.outputs slot x.numbers, tape := r }, .done)
  | .intent _ channel value urgency, s => do
    let (x, r) ← W.eval s.scopes value s.tape
    let (u, r) ← W.eval s.scopes urgency r
    let (valueSlot, urgencySlot) ← W.channel? channel
    let outputs := writeAll s.outputs valueSlot x.numbers
    return ({ s with outputs := writeAll outputs urgencySlot u.numbers, tape := r }, .done)
  | .branch _ condition thenBody elseBody, s => do
    let (x, r) ← W.eval s.scopes condition s.tape
    if truthy (← x.scalar?) then inBlock (runAll thenBody) { s with tape := r }
    else inBlock (runAll elseBody) { s with tape := r }
  | .loop _ count body, s => Ending.iterate (inBlock (runAll body)) count s
  | .call _ flow, s => do
    let (t, ending) ← enter flow s
    return (t, ending.ofCall)
  | .goto _ flow, s => do
    let (t, ending) ← enter flow s
    return (t, ending.ofGoto)
  | .wait _ seconds, s => do
    let (_, r) ← W.eval s.scopes seconds s.tape
    return ({ s with tape := r }, .done)
  | .continuation .., s => some (s, .paused)
  | .halt _, s => some (s, .halted)

def runAll : List Stmt → Store → Option (Store × Ending)
  | [], s => some (s, .done)
  | stmt :: rest, s => Ending.andThen (run stmt s) (runAll rest)

end

/-- Run a flow, which has locals of its own. Flows are nested in each other at most `depth` deep. -/
def runFlow (W : World) (flows : List Flow) : Nat → String → Store → Option (Store × Ending)
  | 0, _, _ => none
  | depth + 1, name, s => do
    let flow ← flows.find? (·.name == name)
    let (t, ending) ← W.runAll (runFlow W flows depth) flow.body { s with scopes := [[]] }
    return ({ t with scopes := s.scopes }, ending)

/-- Run a document from its first flow. No flow leads back to itself, so flows are nested at most as
deep as there are flows. There is no result at continuation points. -/
def traceDocument (d : Document) (outputs : Array Float) (random : Random) :
    Option (Array Float × Tape) := do
  let flow ← d.entry?
  let (s, ending) ← W.runFlow d.flows d.flows.length flow.name { outputs, tape := .start random }
  if ending = .paused then none else return (s.outputs, s.tape)

/-- The outputs of a document, and the random numbers that are left. -/
def runDocument (d : Document) (outputs : Array Float) (random : Random) :
    Option (Array Float × Random) :=
  (W.traceDocument d outputs random).map fun x => (x.1, x.2.random)

end World

end Meaning

/-! ## What documents are made of -/

mutual

/-- Whether an expression draws no random numbers. -/
def Expr.isRandomFree : Expr → Bool
  | .number .. | .bool .. | .str .. | .var .. => true
  | .vector _ items => Expr.allRandomFree items
  | .unary _ _ operand => operand.isRandomFree
  | .binary _ _ left right => left.isRandomFree && right.isRandomFree
  | .conditional _ condition thenExpr elseExpr =>
    condition.isRandomFree && thenExpr.isRandomFree && elseExpr.isRandomFree
  | .call _ function args => function != "random" && Expr.allRandomFree args

def Expr.allRandomFree : List Expr → Bool
  | [] => true
  | e :: rest => e.isRandomFree && Expr.allRandomFree rest

end

mutual

/-- The texts that an expression holds. -/
def Expr.texts : Expr → List String
  | .number .. | .bool .. | .var .. => []
  | .str _ text => [text]
  | .vector _ items => Expr.allTexts items
  | .unary _ _ operand => operand.texts
  | .binary _ _ left right => left.texts ++ right.texts
  | .conditional _ condition thenExpr elseExpr =>
    condition.texts ++ thenExpr.texts ++ elseExpr.texts
  | .call _ _ args => Expr.allTexts args

def Expr.allTexts : List Expr → List String
  | [] => []
  | e :: rest => e.texts ++ Expr.allTexts rest

end

mutual

/-- The expressions that statements hold, those of blocks inside included. -/
def Stmt.exprs : Stmt → List Expr
  | .bind _ _ value | .assign _ _ value => [value]
  | .intent _ _ value urgency => [value, urgency]
  | .branch _ condition thenBody elseBody =>
    condition :: (Stmt.allExprs thenBody ++ Stmt.allExprs elseBody)
  | .loop _ _ body => Stmt.allExprs body
  | .wait _ seconds => [seconds]
  | .call .. | .goto .. | .continuation .. | .halt .. => []

def Stmt.allExprs : List Stmt → List Expr
  | [] => []
  | stmt :: rest => stmt.exprs ++ Stmt.allExprs rest

end

mutual

/-- Whether there is a continuation point. -/
def Stmt.hasPoint : Stmt → Bool
  | .continuation .. => true
  | .branch _ _ thenBody elseBody => Stmt.anyPoint thenBody || Stmt.anyPoint elseBody
  | .loop _ _ body => Stmt.anyPoint body
  | .bind .. | .assign .. | .intent .. | .call .. | .goto .. | .wait .. | .halt .. => false

def Stmt.anyPoint : List Stmt → Bool
  | [] => false
  | stmt :: rest => stmt.hasPoint || Stmt.anyPoint rest

end

namespace Document

def exprs (d : Document) : List Expr :=
  d.flows.flatMap fun flow => Stmt.allExprs flow.body

def hasPoint (d : Document) : Bool :=
  d.flows.any fun flow => Stmt.anyPoint flow.body

/-- Whether a document draws no random numbers. -/
def isRandomFree (d : Document) : Bool :=
  d.exprs.all Expr.isRandomFree

/-- The texts that a document holds. -/
def texts (d : Document) : List String :=
  d.exprs.flatMap Expr.texts

end Document

/-! ## Documents without continuation points -/

namespace Ending

variable {α : Type}

/-- Nothing ends at a continuation point. -/
def NeverPauses (f : α → Option (α × Ending)) : Prop :=
  ∀ a b ending, f a = some (b, ending) → ending ≠ paused

theorem NeverPauses.andThen {f g : α → Option (α × Ending)} (hf : NeverPauses f)
    (hg : NeverPauses g) : NeverPauses fun a => andThen (f a) g := by
  intro a b ending h
  dsimp only [Ending.andThen] at h
  split at h
  · exact hg _ _ _ h
  · next heq =>
    cases h
    exact hf _ _ _ heq
  · cases h

theorem NeverPauses.iterate {body : α → Option (α × Ending)} (h : NeverPauses body) (n : Nat) :
    NeverPauses (iterate body n) := by
  induction n with
  | zero =>
    intro a b ending hrun
    cases hrun
    nofun
  | succ n ih => exact h.andThen ih

end Ending

namespace Meaning

open Ending (NeverPauses)

theorem neverPauses_inBlock {body : Store → Option (Store × Ending)} (h : NeverPauses body) :
    NeverPauses (inBlock body) := by
  intro s t ending hrun
  obtain ⟨⟨u, ending'⟩, hbody, hrun⟩ := Option.bind_eq_some_iff.1 hrun
  cases hrun
  exact h _ _ _ hbody

namespace World

variable (W : World) {enter : String → Store → Option (Store × Ending)}

mutual

theorem neverPauses_run (henter : ∀ flow, NeverPauses (enter flow)) {stmt : Stmt}
    (hpoint : stmt.hasPoint = false) : NeverPauses (W.run enter stmt) := by
  intro s t ending h
  cases stmt with
  | bind span name value | wait span seconds =>
    obtain ⟨x, -, h⟩ := Option.bind_eq_some_iff.1 h
    cases h
    nofun
  | assign span target value =>
    obtain ⟨x, -, h⟩ := Option.bind_eq_some_iff.1 h
    dsimp only at h
    split at h
    · cases h
      nofun
    · obtain ⟨slot, -, h⟩ := Option.bind_eq_some_iff.1 h
      cases h
      nofun
  | intent span channel value urgency =>
    obtain ⟨x, -, h⟩ := Option.bind_eq_some_iff.1 h
    obtain ⟨u, -, h⟩ := Option.bind_eq_some_iff.1 h
    obtain ⟨slots, -, h⟩ := Option.bind_eq_some_iff.1 h
    cases h
    nofun
  | branch span condition thenBody elseBody =>
    obtain ⟨hthen, helse⟩ := Bool.or_eq_false_iff.1 hpoint
    obtain ⟨x, -, h⟩ := Option.bind_eq_some_iff.1 h
    obtain ⟨c, -, h⟩ := Option.bind_eq_some_iff.1 h
    split at h
    · exact neverPauses_inBlock (neverPauses_runAll henter hthen) _ _ _ h
    · exact neverPauses_inBlock (neverPauses_runAll henter helse) _ _ _ h
  | loop span count body =>
    exact (neverPauses_inBlock (neverPauses_runAll henter hpoint)).iterate count _ _ _ h
  | call span flow | goto span flow =>
    obtain ⟨⟨u, ending'⟩, hflow, h⟩ := Option.bind_eq_some_iff.1 h
    have hne := henter flow _ _ _ hflow
    cases h
    cases ending' with
    | paused => exact hne
    | _ => nofun
  | continuation span name timeout defaultFlow => cases hpoint
  | halt span =>
    cases h
    nofun

theorem neverPauses_runAll (henter : ∀ flow, NeverPauses (enter flow)) {stmts : List Stmt}
    (hpoint : Stmt.anyPoint stmts = false) : NeverPauses (W.runAll enter stmts) := by
  cases stmts with
  | nil =>
    intro s t ending h
    cases h
    nofun
  | cons stmt rest =>
    obtain ⟨hstmt, hrest⟩ := Bool.or_eq_false_iff.1 hpoint
    exact (neverPauses_run henter hstmt).andThen (neverPauses_runAll henter hrest)

end

theorem neverPauses_runFlow {d : Document} (hpoint : d.hasPoint = false) (depth : Nat)
    (name : String) : NeverPauses (W.runFlow d.flows depth name) := by
  induction depth generalizing name with
  | zero =>
    intro s t ending h
    cases h
  | succ depth ih =>
    intro s t ending h
    obtain ⟨flow, hflow, h⟩ := Option.bind_eq_some_iff.1 h
    obtain ⟨⟨u, ending'⟩, hrun, h⟩ := Option.bind_eq_some_iff.1 h
    have hbody : Stmt.anyPoint flow.body = false :=
      Bool.eq_false_iff.2 (List.any_eq_false.1 hpoint flow (List.mem_of_find?_eq_some hflow))
    cases h
    exact W.neverPauses_runAll ih hbody _ _ _ hrun

end World

end Meaning

end Behavior
