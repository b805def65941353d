import Behavior.Model
import Behavior.Model.LoadError

/-!
The deepest operand stack that code can build up.

Every reachable offset is labelled with the one stack depth it is entered with. Calls, returns and
pauses need an empty stack, and a pause goes on at its default offset, so the labels of a callee do
not depend on its callers.
-/

namespace Behavior.StackDepth

/-- The deepest stack any model may use. -/
def limit : Nat := 1024

/-- An offset to visit, and the depth to enter it with. -/
abbrev Visit := Nat × Nat

/-- The visits that an instruction leads to, at most two. -/
inductive Next where
  | stop
  | goto (v : Visit)
  /-- `first` is visited before `second`. -/
  | fork (first second : Visit)

def Next.visits : Next → List Visit
  | stop => []
  | goto v => [v]
  | fork first second => [first, second]

theorem Next.length_visits_le (n : Next) : n.visits.length ≤ 2 := by
  cases n <;> simp [visits]

def target (code : Array Word) (offset dest : Nat) : Except StackError Nat :=
  if dest < code.size then .ok dest else .error (.badTarget offset dest)

/-- Fails unless the stack is empty. -/
def balanced (offset depth : Nat) : Except StackError Unit :=
  if depth = 0 then .ok () else .error (.unbalanced offset)

/-- The stack depth after an instruction that is entered with a given one. -/
def after (op : Opcode) (offset depth : Nat) : Except StackError Nat :=
  if depth < op.pops then .error (.underflow offset)
  else
    let depth := depth - op.pops + op.pushes
    if limit < depth then .error (.tooDeep limit) else .ok depth

/-- Where control goes after the instruction at `offset`, which leaves a stack of the given depth:
the next instruction first, then the branch target. -/
def next (code : Array Word) (points : Array ContinuationPoint) (op : Opcode)
    (operand offset depth : Nat) : Except StackError Next :=
  match op with
  | .jump => do return .goto (← target code offset operand, depth)
  | .jumpIfFalse | .jumpIfTrue => do
    let dest ← target code offset operand
    return .fork (offset + 1, depth) (dest, depth)
  | .call => do
    balanced offset depth
    let dest ← target code offset operand
    return .fork (offset + 1, 0) (dest, 0)
  | .ret => do
    balanced offset depth
    return .stop
  | .pause => do
    balanced offset depth
    match points[operand]? with
    | some p => return .goto (← target code offset p.defaultOffset.toNat, 0)
    | none => throw (.badTarget offset operand)
  | .halt => return .stop
  | _ => return .goto (offset + 1, depth)

/-- Depth after the instruction at an offset, and where control goes then. -/
def visit (code : Array Word) (points : Array ContinuationPoint) (offset depth : Nat) :
    Except StackError (Nat × Next) :=
  match code[offset]? with
  | none => .error (.fallsOffEnd offset)
  | some word =>
    match Word.opcode? word with
    | none => .error (.unknownOpcode offset)
    | some op => do
      let depth ← after op offset depth
      return (depth, ← next code points op (Word.operand word) offset depth)

/-- Labelling an offset outweighs two more visits. -/
theorem measure_lt {labels : Array (Option Nat)} {offset : Nat}
    (hl : labels[offset]? = some none) {depth : Nat} {n : Next} {v : Visit} {rest : List Visit} :
    2 * (labels.setIfInBounds offset (some depth)).count none + (n.visits ++ rest).length
      < 2 * labels.count none + (v :: rest).length := by
  obtain ⟨h, hl⟩ := Array.getElem?_eq_some_iff.1 hl
  have hc : 0 < labels.count none := Array.count_pos_iff.2 (hl ▸ Array.getElem_mem h)
  have hn := n.length_visits_le
  have hd : ¬(some depth == none) = true := Bool.false_ne_true
  rw [Array.setIfInBounds, dif_pos h, Array.count_set h, hl, if_pos BEq.rfl, if_neg hd,
    List.length_append, List.length_cons]
  omega

/-- Label offsets until no visit is left, the latest first; `deepest` is the greatest depth met.
Each visit either finds its label in place or takes away an unlabelled offset, adding two visits at
most. -/
def label (code : Array Word) (points : Array ContinuationPoint) (labels : Array (Option Nat))
    (deepest : Nat) (pending : List Visit) : Except StackError Nat :=
  match pending with
  | [] => .ok deepest
  | (offset, depth) :: rest =>
    match _hl : labels[offset]? with
    | none => .error (.fallsOffEnd offset)
    | some (some seen) =>
      if seen = depth then label code points labels deepest rest
      else .error (.mismatch offset)
    | some none =>
      match visit code points offset depth with
      | .error e => .error e
      | .ok (deep, n) =>
        label code points (labels.setIfInBounds offset (some depth)) (max deepest deep)
          (n.visits ++ rest)
termination_by 2 * labels.count none + pending.length
decreasing_by
  · exact Nat.add_lt_add_left (Nat.lt_succ_self _) _
  · exact measure_lt _hl

def analyze (code : Array Word) (points : Array ContinuationPoint) (entry : Nat) :
    Except StackError Nat :=
  label code points (Array.replicate code.size none) 0 [(entry, 0)]

end Behavior.StackDepth
