import Behavior.FlowGraph
import Behavior.Pool
import Behavior.Typed

/-!
Checking documents: names are resolved, slots are handed out, and every expression is given its
type.

A name is a local, then a variable of the registry, then a variable of an imported namespace, then
a constant. Locals have slots of their own throughout a document, so that flows which call each
other keep theirs. A local whose first value has a problem is known but has no type, and its uses
cause no further problems.
-/

namespace Behavior.Typed

/-- A local; without type when its first value has a problem. -/
structure Local where
  slot : Nat
  type? : Option ValueType
deriving DecidableEq, Repr, Inhabited

/-- Locals of one block. -/
abbrev Scope := List (String × Local)

/-- What the names of a document can refer to besides locals. -/
structure Names where
  registry : Registry
  /-- Imported namespaces, in order. -/
  imports : List String
  /-- Numbers of the flows. -/
  flows : List (String × Nat)

/-- What checking has found so far. -/
structure State where
  /-- Blocks around the current statement, the innermost first. -/
  scopes : List Scope := []
  localCount : Nat := 0
  schema : Schema := {}
  points : Array Point := #[]
  strings : Array String := #[]
  /-- Flows that the current one leads to, the latest first. -/
  passages : List (Nat × Passage) := []
  /-- Problems, the latest first. -/
  problems : List Diagnostic := []
deriving Inhabited

abbrev Check := StateM State

def report (span : Span) (problem : Problem) : Check Unit :=
  modify fun s => { s with problems := ⟨problem, span⟩ :: s.problems }

/-- Report a problem in place of a result. -/
def refuse (span : Span) (problem : Problem) : Check (Option α) := do
  report span problem
  return none

def addString (text : String) : Check Nat :=
  modifyGet fun s =>
    let (index, strings) := Pool.intern s.strings text
    (index, { s with strings })

/-! ## Names and slots -/

/-- Numbers with a name of their own. -/
def namedConstant? : String → Option Float
  | "PI" => some (.ofBits 0x400921fb54442d18)
  | "TAU" => some (.ofBits 0x401921fb54442d18)
  | "E" => some (.ofBits 0x4005bf0a8b145769)
  | "Infinity" => some (.ofBits 0x7ff0000000000000)
  | _ => none

/-- The variable of a name, which may leave out an imported namespace. -/
def Names.resolve? (names : Names) (name : String) : Option (String × Variable) :=
  match names.registry.lookup name with
  | some v => some (name, v)
  | none => names.imports.findSome? fun space =>
    let qualified := space ++ "." ++ name
    (names.registry.lookup qualified).map (qualified, ·)

def local? (name : String) : Check (Option Local) := do
  return (← get).scopes.findSome? fun scope => scope.lookup name

/-- Make a local known in the innermost block, in place of an earlier one of its name. -/
def define (name : String) (l : Local) : Check Unit :=
  modify fun s => { s with
    scopes := match s.scopes with
      | [] => [[(name, l)]]
      | scope :: outer => ((name, l) :: scope.filter (·.1 != name)) :: outer }

/-- Slots of each kind are numbered with sixteen bits. -/
def maxSlots : Nat := 0xffff

/-- Whether some more slots can be numbered. -/
def fits (kind : SlotKind) (start width : Nat) (span : Span) : Check Bool := do
  if maxSlots < start + width then
    report span (.tooManySlots kind)
    return false
  return true

/-- Slots for a local. They are used up even if they cannot be numbered. -/
def newLocal (width : Nat) (span : Span) : Check (Option Nat) := do
  let slot := (← get).localCount
  modify fun s => { s with localCount := slot + width }
  return if ← fits .locals slot width span then some slot else none

/-- First slot of an input, which is added to the schema when it is used first. -/
def bindInput (name : String) (type : ValueType) (span : Span) : Check (Option Nat) := do
  let schema := (← get).schema
  match schema.input? name with
  | some e => return some e.slot.toNat
  | none =>
    let slot := schema.inputSize
    if !(← fits .input slot type.width span) then return none
    discard (addString name)
    modify fun s => { s with
      schema := { s.schema with inputs := s.schema.inputs ++ [⟨name, type, slot.toUInt16⟩] } }
    return some slot

def bindOutput (name : String) (type : ValueType) (span : Span) : Check (Option Nat) := do
  let schema := (← get).schema
  match schema.output? name with
  | some e => return some e.slot.toNat
  | none =>
    let slot := schema.outputSize
    if !(← fits .output slot type.width span) then return none
    discard (addString name)
    modify fun s => { s with
      schema := { s.schema with outputs := s.schema.outputs ++ [⟨name, type, slot.toUInt16⟩] } }
    return some slot

/-- First slot of a channel's value, and the slot of its urgency, which comes after the value. -/
def bindChannel (name : String) (type : ValueType) (span : Span) :
    Check (Option (Nat × Nat)) := do
  let schema := (← get).schema
  match schema.channel? name with
  | some c => return some (c.valueSlot.toNat, c.urgencySlot.toNat)
  | none =>
    let slot := schema.outputSize
    if !(← fits .output slot (type.width + 1) span) then return none
    discard (addString name)
    let urgency := slot + type.width
    modify fun s => { s with
      schema := { s.schema with
        channels := s.schema.channels ++ [⟨name, type, slot.toUInt16, urgency.toUInt16⟩] } }
    return some (slot, urgency)

/-! ## Expressions -/

def expect (role : Role) (expected : ValueType) (span : Span) (value? : Option Value) :
    Check (Option Value) := do
  let some value := value? | return none
  if value.type = expected then return some value
  else refuse span (.wrongType role expected value.type)

def expectNumber (role : Role) (span : Span) (value? : Option Value) : Check (Option Scalar) := do
  return (← expect role .number span value?).bind Value.number?

def expectBool (role : Role) (span : Span) (value? : Option Value) : Check (Option Scalar) := do
  return (← expect role .bool span value?).bind Value.bool?

/-- Functions of numbers that documents can call. -/
inductive Builtin where
  | random
  | abs
  | min
  | max
  | lerp
  | clamp
deriving DecidableEq, Repr, Inhabited

namespace Builtin

def ofName? : String → Option Builtin
  | "random" => some random
  | "abs" => some abs
  | "min" => some min
  | "max" => some max
  | "lerp" => some lerp
  | "clamp" => some clamp
  | _ => none

def arity : Builtin → Nat
  | random => 0
  | abs => 1
  | min | max => 2
  | lerp | clamp => 3

/-- A call with the right number of arguments. -/
def call? : Builtin → List Scalar → Option Scalar
  | random, [] => some .random
  | abs, [a] => some (.unary .abs a)
  | min, [a, b] => some (.binary .min a b)
  | max, [a, b] => some (.binary .max a b)
  | lerp, [a, b, c] => some (.ternary .lerp a b c)
  | clamp, [a, b, c] => some (.ternary .clamp a b c)
  | _, _ => none

end Builtin

def checkVar (names : Names) (span : Span) (name : String) : Check (Option Value) := do
  match ← local? name with
  | some l => return l.type?.map fun type => .ofLocal type l.slot
  | none =>
    match names.resolve? name with
    | some (qualified, ⟨type, .input⟩) =>
      return (← bindInput qualified type span).map fun slot => .ofInput type slot
    | some (qualified, _) => refuse span (.notInput qualified)
    | none =>
      match namedConstant? name with
      | some x => return some (.number (.const x))
      | none => refuse span (.unknownVariable name)

def checkCall (span : Span) (function : String) (args : List (Option Scalar)) :
    Check (Option Value) := do
  match Builtin.ofName? function with
  | none => refuse span (.unknownFunction function)
  | some builtin =>
    if args.length = builtin.arity then
      return ((args.mapM id).bind builtin.call?).map .number
    else refuse span (.argumentCount function builtin.arity args.length)

mutual

/-- The value of an expression. Every part is checked, also after a problem in another. -/
def checkExpr (names : Names) : Expr → Check (Option Value)
  | .number _ x => return some (.number (.const x))
  | .bool _ b => return some (.bool (.const (truthValue b)))
  | .str _ text => do return some (.string (.const (Float.ofNat (← addString text))))
  | .vector span items => do
    match ← checkNumbers names .vectorComponent items with
    | [some x, some y, some z] => return some (.vector (.make x y z))
    | [_, _, _] => return none
    | parts => refuse span (.vectorSize parts.length)
  | .var span name => checkVar names span name
  | .unary span .neg operand => do
    let operand ← expectNumber .operand span (← checkExpr names operand)
    return operand.map fun a => .number (.unary .neg a)
  | .unary span .not operand => do
    let operand ← expectBool .operand span (← checkExpr names operand)
    return operand.map fun a => .bool (.unary .not a)
  | .binary span op left right => do
    let left ← checkExpr names left
    let right ← checkExpr names right
    let (some a, some b) := (left, right) | return none
    match Value.combine? op a b with
    | some value => return some value
    | none => refuse span (.operandTypes op a.type b.type)
  | .conditional span condition thenExpr elseExpr => do
    let condition ← expectBool .condition span (← checkExpr names condition)
    let thenValue ← checkExpr names thenExpr
    let elseValue ← checkExpr names elseExpr
    let (some c, some a, some b) := (condition, thenValue, elseValue) | return none
    match Value.select? c a b with
    | some value => return some value
    | none => refuse span (.branchTypes a.type b.type)
  | .call span function args => do
    checkCall span function (← checkNumbers names .argument args)

def checkNumbers (names : Names) (role : Role) : List Expr → Check (List (Option Scalar))
  | [] => return []
  | e :: rest => do
    let part ← expectNumber role e.span (← checkExpr names e)
    return part :: (← checkNumbers names role rest)

end

/-! ## Statements -/

/-- The number of a flow, to which the current one leads. -/
def enter (names : Names) (span : Span) (passage : Passage) (name : String) :
    Check (Option Nat) := do
  match names.flows.lookup name with
  | some flow =>
    modify fun s => { s with passages := (flow, passage) :: s.passages }
    return some flow
  | none => refuse span (.unknownFlow name)

def inBlock (block : Check α) : Check α := do
  modify fun s => { s with scopes := [] :: s.scopes }
  let result ← block
  modify fun s => { s with scopes := s.scopes.tail }
  return result

def checkBind (span : Span) (name : String) (value? : Option Value) : Check (Option Stmt) := do
  match value? with
  | none =>
    define name ⟨0, none⟩
    return none
  | some value =>
    match ← newLocal value.type.width span with
    | none => return none
    | some slot =>
      define name ⟨slot, some value.type⟩
      return some (.setLocal span slot value)

def checkAssign (names : Names) (span : Span) (target : String) (value? : Option Value) :
    Check (Option Stmt) := do
  match ← local? target with
  | some ⟨_, none⟩ => return none
  | some ⟨slot, some type⟩ =>
    return (← expect .assignedValue type span value?).map (.setLocal span slot)
  | none =>
    match names.resolve? target with
    | some (qualified, ⟨type, .output⟩) =>
      let value? ← expect .assignedValue type span value?
      let slot? ← bindOutput qualified type span
      return slot?.bind fun slot => value?.map (.setOutput span slot)
    | some (qualified, v) => refuse span (.notOutput qualified v.access)
    | none =>
      if (namedConstant? target).isSome then refuse span (.constantTarget target)
      else refuse span (.unknownTarget target)

def checkIntent (names : Names) (span : Span) (channel : String)
    (value? urgency? : Option Value) : Check (Option Stmt) := do
  let urgency? ← expectNumber .urgency span urgency?
  match names.resolve? channel with
  | some (qualified, ⟨type, .channel⟩) =>
    let value? ← expect .intentValue type span value?
    let slots? ← bindChannel qualified type span
    let (some (valueSlot, urgencySlot), some value, some urgency) := (slots?, value?, urgency?)
      | return none
    return some (.intent span valueSlot urgencySlot value urgency)
  | some (qualified, _) => refuse span (.notChannel qualified)
  | none => refuse span (.unknownChannel channel)

/-- A timeout in milliseconds, halves rounded up. -/
def timeoutMs? (seconds : Float) : Option Nat :=
  let millis := seconds * 1000.0
  if seconds.isFinite && 0.0 ≤ seconds && millis ≤ Float.ofNat maxTimeoutMs then
    (Binary64.parts? millis).map (·.roundHalfUp)
  else none

/-- A continuation point. It keeps its name and number even if it has a problem. -/
def checkContinuation (names : Names) (span : Span) (name : String) (seconds : Float)
    (defaultFlow : String) : Check (Option Stmt) := do
  let timeout? := timeoutMs? seconds
  if timeout?.isNone then report span (.timeout name seconds)
  let points := (← get).points
  if points.any (·.name == name) then refuse span (.duplicatePoint name)
  else
    let flow? ← enter names span .jump defaultFlow
    discard (addString name)
    modify fun s => { s with points := s.points.push ⟨name, timeout?.getD 0⟩ }
    let (some _, some flow) := (timeout?, flow?) | return none
    return some (.continuation span points.size flow)

mutual

def checkStmt (names : Names) : Behavior.Stmt → Check (Option Stmt)
  | .bind span name value => do checkBind span name (← checkExpr names value)
  | .assign span target value => do checkAssign names span target (← checkExpr names value)
  | .intent span channel value urgency => do
    let value? ← checkExpr names value
    let urgency? ← checkExpr names urgency
    checkIntent names span channel value? urgency?
  | .branch span condition thenBody elseBody => do
    let condition? ← expectBool .condition span (← checkExpr names condition)
    let thenBody ← inBlock (checkStmts names [] thenBody)
    let elseBody ← inBlock (checkStmts names [] elseBody)
    return condition?.map fun condition => .branch span condition thenBody elseBody
  | .loop span count body => do
    if maxLoopCount < count then report span (.loopCount count)
    let counter? ← newLocal 1 span
    let body ← inBlock (checkStmts names [] body)
    if maxLoopCount < count then return none
    return counter?.map fun counter => .loop span count counter body
  | .call span flow => do return (← enter names span .call flow).map (.call span)
  | .goto span flow => do return (← enter names span .jump flow).map (.goto span)
  | .wait span seconds => do
    let seconds? ← expectNumber .waitDuration span (← checkExpr names seconds)
    return seconds?.map (.wait span)
  | .continuation span name seconds defaultFlow =>
    checkContinuation names span name seconds defaultFlow
  | .halt span => return some (.halt span)

/-- Check statements in order; `done` has those so far, the latest first. -/
def checkStmts (names : Names) (done : List Stmt) : List Behavior.Stmt → Check (List Stmt)
  | [] => return done.reverse
  | s :: rest => do
    match ← checkStmt names s with
    | some stmt => checkStmts names (stmt :: done) rest
    | none => checkStmts names done rest

end

/-! ## Documents -/

def checkFlow (names : Names) (flow : Behavior.Flow) :
    Check (Flow × List (Nat × Passage)) := do
  modify fun s => { s with passages := [] }
  let body ← inBlock (checkStmts names [] flow.body)
  return (⟨flow.name, body, flow.span⟩, (← get).passages)

def checkImports (registry : Registry) : List Import → Check (List String)
  | [] => return []
  | i :: rest => do
    if registry.hasNamespace i.namespaceName then
      return i.namespaceName :: (← checkImports registry rest)
    else
      report i.span (.unknownNamespace i.namespaceName)
      checkImports registry rest

/-- Numbers of the flows, from `index` on. The first of several flows of one name counts. -/
def numberFlows (index : Nat) (numbered : List (String × Nat)) :
    List Behavior.Flow → Check (List (String × Nat))
  | [] => return numbered.reverse
  | flow :: rest => do
    if (numbered.lookup flow.name).isSome then
      report flow.span (.duplicateFlow flow.name)
      numberFlows (index + 1) numbered rest
    else numberFlows (index + 1) ((flow.name, index) :: numbered) rest

/-- Refuse flows that can lead back to themselves, and find how deeply calls are nested. -/
def checkGraph (flows : List Flow) (graph : FlowGraph) : Check Nat := do
  let recursive := graph.recursive
  if recursive.isEmpty then
    let depth := graph.callDepth
    if 0xffff < depth then report {} .callDepth
    return depth
  else
    recursive.forM fun index =>
      match flows[index]? with
      | some flow => report flow.span (.recursiveFlow flow.name)
      | none => return
    return 0

def checkDocument (registry : Registry) (d : Document) : Check (List Flow × Nat) := do
  let imports ← checkImports registry d.imports
  let flows ← numberFlows 0 [] d.flows
  let checked ← d.flows.mapM (checkFlow { registry, imports, flows })
  let callDepth ← checkGraph (checked.map (·.1)) ⟨(checked.map (·.2)).toArray⟩
  return (checked.map (·.1), callDepth)

/-- The checked form of a document, or everything that is wrong with it. -/
def check (registry : Registry) (d : Document) : Except (List Diagnostic) Program :=
  if d.flows.isEmpty then .error [⟨.emptyDocument d.name, {}⟩]
  else
    let ((flows, callDepth), s) := (checkDocument registry d).run {}
    if s.problems.isEmpty then
      .ok {
        flows
        schema := s.schema
        points := s.points
        strings := s.strings
        localCount := s.localCount
        callDepth
        extends? := d.extends?.map fun e => ⟨.ofName e.parent, nameHash e.attachPoint⟩ }
    else .error s.problems.reverse

end Behavior.Typed
