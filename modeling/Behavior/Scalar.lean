import Behavior.Operator

/-!
Expressions over slots with one number as value, which is what code computes on the operand stack.
-/

namespace Behavior

inductive Scalar where
  | const (value : Float)
  | inputSlot (slot : Nat)
  | localSlot (slot : Nat)
  /-- The next random number. -/
  | random
  | unary (f : UnaryFn) (a : Scalar)
  | binary (f : BinaryFn) (a b : Scalar)
  | ternary (f : TernaryFn) (a b c : Scalar)
  /-- Only the branch that the condition selects is evaluated. -/
  | select (condition a b : Scalar)
deriving Inhabited

namespace Scalar

/-- Draws no random number, so that evaluating twice gives the same value. -/
def isPure : Scalar → Bool
  | random => false
  | const _ | inputSlot _ | localSlot _ => true
  | unary _ a => a.isPure
  | binary _ a b => a.isPure && b.isPure
  | ternary _ a b c | select a b c => a.isPure && b.isPure && c.isPure

def readsLocals : Scalar → Bool
  | localSlot _ => true
  | const _ | inputSlot _ | random => false
  | unary _ a => a.readsLocals
  | binary _ a b => a.readsLocals || b.readsLocals
  | ternary _ a b c | select a b c => a.readsLocals || b.readsLocals || c.readsLocals

/-- Equal as trees; constants are compared by their bits, which tells the zeros apart and makes NaN
equal to itself. -/
def same : Scalar → Scalar → Bool
  | const x, const y => x.toBits == y.toBits
  | inputSlot i, inputSlot j => i == j
  | localSlot i, localSlot j => i == j
  | random, random => true
  | unary f a, unary g b => f == g && a.same b
  | binary f a b, binary g c d => f == g && a.same c && b.same d
  | ternary f a b c, ternary g d e i => f == g && a.same d && b.same e && c.same i
  | select a b c, select d e i => a.same d && b.same e && c.same i
  | _, _ => false

/-- Number of nodes. -/
def size : Scalar → Nat
  | const _ | inputSlot _ | localSlot _ | random => 1
  | unary _ a => a.size + 1
  | binary _ a b => a.size + b.size + 1
  | ternary _ a b c | select a b c => a.size + b.size + c.size + 1

/-- Number of instructions that compute the expression. A choice adds the jump over each branch. -/
def codeSize : Scalar → Nat
  | const _ | inputSlot _ | localSlot _ | random => 1
  | unary _ a => a.codeSize + 1
  | binary _ a b => a.codeSize + b.codeSize + 1
  | ternary _ a b c => a.codeSize + b.codeSize + c.codeSize + 1
  | select a b c => a.codeSize + b.codeSize + c.codeSize + 2

end Scalar

end Behavior
