import Behavior.Block

/-!
Evaluating what is constant ahead of time.
-/

namespace Behavior

namespace Scalar

/-- Fold operators whose operands are constants, and choices whose condition is one. Nothing that
draws random numbers is a constant, but a branch that is not taken goes with its draws. -/
def fold : Scalar → Scalar
  | unary f a =>
    match a.fold with
    | const x => const (f.apply x)
    | a => unary f a
  | binary f a b =>
    match a.fold, b.fold with
    | const x, const y => const (f.apply x y)
    | a, b => binary f a b
  | ternary f a b c =>
    match a.fold, b.fold, c.fold with
    | const x, const y, const z => const (f.apply x y z)
    | a, b, c => ternary f a b c
  | select condition a b =>
    match condition.fold with
    | const x => if truthy x then a.fold else b.fold
    | condition => select condition a.fold b.fold
  | e => e

end Scalar

def BlockGraph.fold (g : BlockGraph) : BlockGraph :=
  g.mapBlocks (·.mapValues Scalar.fold)

end Behavior
