import Behavior.Decimal.Layout
import Behavior.Document
import Behavior.Model.LoadError
import Behavior.Registry

/-!
What is wrong with a document. Compiling reports every problem it finds, each with its place.
-/

namespace Behavior

/-- What a value is needed for. -/
inductive Role where
  | condition
  | assignedValue
  | waitDuration
  | urgency
  | intentValue
  | operand
  | vectorComponent
  | argument
deriving DecidableEq, Repr, Inhabited

def Role.name : Role → String
  | condition => "condition"
  | assignedValue => "assigned value"
  | waitDuration => "wait duration"
  | urgency => "urgency"
  | intentValue => "intent value"
  | operand => "operand"
  | vectorComponent => "vector component"
  | argument => "argument"

inductive SlotKind where
  | input
  | output
  | locals
deriving DecidableEq, Repr, Inhabited

def SlotKind.name : SlotKind → String
  | input => "input"
  | output => "output"
  | locals => "local"

/-- Tables of a model that operands index. -/
inductive TableKind where
  | code
  | constants
  | strings
  | points
deriving DecidableEq, Repr, Inhabited

def TableKind.name : TableKind → String
  | code => "code"
  | constants => "constant pool"
  | strings => "string table"
  | points => "continuation point table"

/-- The largest number of times a loop may run. -/
def maxLoopCount : Nat := 10000

def maxTimeoutMs : Nat := 0xffffffff

inductive Problem where
  | emptyDocument (name : String)
  | unknownNamespace (name : String)
  | duplicateFlow (name : String)
  | unknownFlow (name : String)
  | recursiveFlow (name : String)
  | callDepth
  | tooManySlots (kind : SlotKind)
  | unknownVariable (name : String)
  | unknownChannel (name : String)
  /-- An assignment to a name that is neither a local nor a variable. -/
  | unknownTarget (name : String)
  | constantTarget (name : String)
  /-- An assignment to a variable that is not an output. -/
  | notOutput (name : String) (access : Access)
  /-- An intent on a variable that is not a channel. -/
  | notChannel (name : String)
  /-- A use of a variable that is not an input. -/
  | notInput (name : String)
  | wrongType (role : Role) (expected found : ValueType)
  | branchTypes (thenType elseType : ValueType)
  | operandTypes (op : BinaryOp) (left right : ValueType)
  | unknownFunction (name : String)
  | argumentCount (function : String) (expected found : Nat)
  | vectorSize (found : Nat)
  | loopCount (count : Nat)
  | timeout (point : String) (seconds : Float)
  | duplicatePoint (name : String)
  | tooManyLocals (count : Nat)
  | tableTooLarge (table : TableKind) (size : Nat)
  /-- A block is jumped to and has no place in the code. -/
  | blockWithoutCode (block : Nat)
  | stackAnalysis (cause : StackError)
  | unfitModel (cause : LoadError)
deriving Inhabited

/-- Categories of problems. -/
inductive ProblemKind where
  | unknownVariable
  | typeMismatch
  | unresolvedImport
  | unknownFlow
  | duplicateFlow
  | recursiveFlow
  | duplicateContinuationPoint
  | invalidTimeout
  | unknownFunction
  | arityMismatch
  | invalidTarget
  | invalidRepeatCount
  | emptyDocument
  | limit
deriving DecidableEq, Repr, Inhabited

def ProblemKind.name : ProblemKind → String
  | unknownVariable => "unknown variable"
  | typeMismatch => "type mismatch"
  | unresolvedImport => "unresolved import"
  | unknownFlow => "unknown flow"
  | duplicateFlow => "duplicate flow"
  | recursiveFlow => "recursive flow"
  | duplicateContinuationPoint => "duplicate continuation point"
  | invalidTimeout => "invalid timeout"
  | unknownFunction => "unknown function"
  | arityMismatch => "arity mismatch"
  | invalidTarget => "invalid target"
  | invalidRepeatCount => "invalid repeat count"
  | emptyDocument => "empty document"
  | limit => "limit exceeded"

namespace Problem

def kind : Problem → ProblemKind
  | emptyDocument _ => .emptyDocument
  | unknownNamespace _ => .unresolvedImport
  | duplicateFlow _ => .duplicateFlow
  | unknownFlow _ => .unknownFlow
  | recursiveFlow _ => .recursiveFlow
  | unknownVariable _ | unknownChannel _ | unknownTarget _ => .unknownVariable
  | constantTarget _ | notOutput _ _ | notChannel _ | notInput _ => .invalidTarget
  | wrongType _ _ _ | branchTypes _ _ | operandTypes _ _ _ => .typeMismatch
  | unknownFunction _ => .unknownFunction
  | argumentCount _ _ _ | vectorSize _ => .arityMismatch
  | loopCount _ => .invalidRepeatCount
  | timeout _ _ => .invalidTimeout
  | duplicatePoint _ => .duplicateContinuationPoint
  | callDepth | tooManySlots _ | tooManyLocals _ | tableTooLarge _ _ | blockWithoutCode _
  | stackAnalysis _ | unfitModel _ => .limit

def message : Problem → String
  | emptyDocument name => s!"document `{name}` declares no flows"
  | unknownNamespace name => s!"namespace `{name}` is unknown"
  | duplicateFlow name => s!"flow `{name}` is declared more than once"
  | unknownFlow name => s!"flow `{name}` does not exist"
  | recursiveFlow name => s!"flow `{name}` can reach itself through call, goto or continuation"
  | callDepth => "call depth exceeds 65535"
  | tooManySlots kind => s!"too many {kind.name} slots"
  | unknownVariable name => s!"unknown variable `{name}`"
  | unknownChannel name => s!"unknown channel `{name}`"
  | unknownTarget name | constantTarget name => s!"cannot assign to `{name}`"
  | notOutput name .input => s!"`{name}` is an input and cannot be assigned"
  | notOutput name _ => s!"`{name}` is a channel; use an intent and cannot be assigned"
  | notChannel name => s!"`{name}` is not an intent channel"
  | notInput name => s!"`{name}` is write-only and cannot be read"
  | wrongType role expected found =>
    s!"{role.name} must be {expected.name}, found {found.name}"
  | branchTypes thenType elseType =>
    s!"conditional branches differ: {thenType.name} and {elseType.name}"
  | operandTypes op left right =>
    s!"operator `{op.symbol}` cannot combine {left.name} and {right.name}"
  | unknownFunction name => s!"unknown function `{name}`"
  | argumentCount function expected found =>
    s!"`{function}` takes {expected} arguments, found {found}"
  | vectorSize found => s!"vector needs 3 components, found {found}"
  | loopCount count => s!"repeat count {count} exceeds {maxLoopCount}"
  | timeout point seconds =>
    s!"timeout of continuation `{point}` must be between 0 and {maxTimeoutMs / 1000} seconds, " ++
      s!"found {Decimal.plain.render seconds}"
  | duplicatePoint name => s!"continuation point `{name}` is declared more than once"
  | tooManyLocals count => s!"{count} locals"
  | tableTooLarge table size =>
    s!"{table.name} has {size} entries, at most {Word.maxOperand} are addressable"
  | blockWithoutCode block => s!"block {block} is referenced but was never emitted"
  | stackAnalysis cause => s!"operand stack: {cause.message}"
  | unfitModel cause => s!"generated model is invalid: {cause.message}"

end Problem

/-- A problem and its place. -/
structure Diagnostic where
  problem : Problem
  span : Span := {}
deriving Inhabited

def Diagnostic.text (d : Diagnostic) : String :=
  s!"{d.problem.kind.name}: {d.problem.message} at {d.span.text}"

end Behavior
