import Behavior.Diagnostic
import Behavior.Model
import Behavior.Scalar

/-!
Checked documents: names are slots, flows are numbers, and every value has its type.
-/

namespace Behavior

/-- What an operator computes. -/
def UnaryOp.fn : UnaryOp → UnaryFn
  | neg => .neg
  | not => .not

/-- What an operator computes. -/
def BinaryOp.fn : BinaryOp → BinaryFn
  | add => .add
  | sub => .sub
  | mul => .mul
  | div => .div
  | mod => .mod
  | eq => .eq
  | ne => .ne
  | lt => .lt
  | le => .le
  | gt => .gt
  | ge => .ge
  | and => .and
  | or => .or

namespace Typed

/-- Expressions with a vector as value. -/
inductive Triple where
  | make (x y z : Scalar)
  /-- Three consecutive inputs. -/
  | inputSlots (first : Nat)
  /-- Three consecutive locals. -/
  | localSlots (first : Nat)
  | select (condition : Scalar) (a b : Triple)
deriving Inhabited

/-- An expression with the type of its value. Texts are indices into the string table. -/
inductive Value where
  | number (e : Scalar)
  | bool (e : Scalar)
  | string (e : Scalar)
  | vector (v : Triple)
deriving Inhabited

namespace Value

def type : Value → ValueType
  | number _ => .number
  | bool _ => .bool
  | string _ => .string
  | vector _ => .vector3

def number? : Value → Option Scalar
  | number e => some e
  | _ => none

def bool? : Value → Option Scalar
  | bool e => some e
  | _ => none

def ofInput (type : ValueType) (slot : Nat) : Value :=
  match type with
  | .number => number (.inputSlot slot)
  | .bool => bool (.inputSlot slot)
  | .string => string (.inputSlot slot)
  | .vector3 => vector (.inputSlots slot)

def ofLocal (type : ValueType) (slot : Nat) : Value :=
  match type with
  | .number => number (.localSlot slot)
  | .bool => bool (.localSlot slot)
  | .string => string (.localSlot slot)
  | .vector3 => vector (.localSlots slot)

/-- An operator applied to two values, if it takes their types: arithmetic and order are for
numbers, logic for truth values, and equality for two values of one type that is not a vector. -/
def combine? (op : BinaryOp) : Value → Value → Option Value
  | number a, number b =>
    match op with
    | .add | .sub | .mul | .div | .mod => some (number (.binary op.fn a b))
    | .and | .or => none
    | _ => some (bool (.binary op.fn a b))
  | bool a, bool b =>
    match op with
    | .and | .or | .eq | .ne => some (bool (.binary op.fn a b))
    | _ => none
  | string a, string b =>
    match op with
    | .eq | .ne => some (bool (.binary op.fn a b))
    | _ => none
  | _, _ => none

/-- The choice between two values, if they have one type. -/
def select? (condition : Scalar) : Value → Value → Option Value
  | number a, number b => some (number (.select condition a b))
  | bool a, bool b => some (bool (.select condition a b))
  | string a, string b => some (string (.select condition a b))
  | vector a, vector b => some (vector (.select condition a b))
  | _, _ => none

theorem type_ofInput (t : ValueType) (slot : Nat) : (ofInput t slot).type = t := by
  cases t <;> rfl

theorem type_ofLocal (t : ValueType) (slot : Nat) : (ofLocal t slot).type = t := by
  cases t <;> rfl

end Value

/-- Checked statements. Flows and continuation points are numbered in the order of the document. -/
inductive Stmt where
  | setLocal (span : Span) (slot : Nat) (value : Value)
  | setOutput (span : Span) (slot : Nat) (value : Value)
  | intent (span : Span) (valueSlot urgencySlot : Nat) (value : Value) (urgency : Scalar)
  | branch (span : Span) (condition : Scalar) (thenBody elseBody : List Stmt)
  /-- `counter` is the local that counts the runs still to come. -/
  | loop (span : Span) (count counter : Nat) (body : List Stmt)
  | call (span : Span) (flow : Nat)
  | goto (span : Span) (flow : Nat)
  | wait (span : Span) (seconds : Scalar)
  | continuation (span : Span) (point defaultFlow : Nat)
  | halt (span : Span)
deriving Inhabited

structure Flow where
  name : String
  body : List Stmt
  span : Span
deriving Inhabited

/-- A continuation point as the document declares it. -/
structure Point where
  name : String
  timeoutMs : Nat
deriving DecidableEq, Repr, Inhabited

/-- A checked document. -/
structure Program where
  flows : List Flow
  schema : Schema
  points : Array Point
  strings : Array String
  localCount : Nat
  callDepth : Nat
  extends? : Option Attachment
deriving Inhabited

end Typed

end Behavior
