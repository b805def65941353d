import Behavior.Model
import Behavior.Model.LoadError
import Behavior.Reachability

/-!
The longest chain of nested calls that code can make.

Every call target begins a routine of its own; jumps and the default offsets of pauses stay in the
routine they are in. A routine that can call itself, directly or through others, is refused.
-/

namespace Behavior.CallDepth

/-- What the instruction at an offset does within its routine. -/
inductive Next where
  | stop
  | goto (offset : Nat)
  /-- `first` is visited before `second`. -/
  | fork (first second : Nat)
  | call (routine next : Nat)

def Next.visits : Next → List Nat
  | stop => []
  | goto offset => [offset]
  | fork first second => [first, second]
  | call _ next => [next]

theorem Next.length_visits_le (n : Next) : n.visits.length ≤ 2 := by
  cases n <;> simp [visits]

/-- Add a call target unless it is known. -/
def Next.record (n : Next) (calls : List Nat) : List Nat :=
  match n with
  | call routine _ => if calls.contains routine then calls else routine :: calls
  | _ => calls

theorem Next.length_record_le (n : Next) (calls : List Nat) :
    (n.record calls).length ≤ calls.length + 1 := by
  unfold record
  split
  · split <;> simp
  · exact Nat.le_succ _

def visit (code : Array Word) (points : Array ContinuationPoint) (offset : Nat) :
    Except StackError Next :=
  match code[offset]? with
  | none => .error (.fallsOffEnd offset)
  | some word =>
    let operand := Word.operand word
    match Word.opcode? word with
    | none => .error (.unknownOpcode offset)
    | some .jump => .ok (.goto operand)
    | some .jumpIfFalse | some .jumpIfTrue => .ok (.fork (offset + 1) operand)
    | some .call => .ok (.call operand (offset + 1))
    | some .pause =>
      match points[operand]? with
      | some p => .ok (.goto p.defaultOffset.toNat)
      | none => .ok .stop
    | some .ret | some .halt => .ok .stop
    | some _ => .ok (.goto (offset + 1))

/-- The offsets of a routine that have been seen, and the routines called there, the latest first.
No more are called than offsets have been seen. -/
structure Tally (size : Nat) where
  seen : Array Bool
  calls : List Nat
  length_le : calls.length + seen.count false ≤ size

namespace Tally

variable {size offset : Nat}

def start (size : Nat) : Tally size where
  seen := Array.replicate size false
  calls := []
  length_le := by simp

def visited (t : Tally size) (h : t.seen[offset]? = some false) (n : Next) : Tally size where
  seen := t.seen.setIfInBounds offset true
  calls := n.record t.calls
  length_le := by
    have hcount := Reachability.count_setIfInBounds_lt (b := true) h (by decide)
    have hrecord := n.length_record_le t.calls
    have hle := t.length_le
    omega

/-- Marking an offset outweighs two more visits. -/
theorem measure_visited (t : Tally size) (h : t.seen[offset]? = some false) (n : Next)
    (rest : List Nat) :
    2 * (t.visited h n).seen.count false + (n.visits ++ rest).length
      < 2 * t.seen.count false + (offset :: rest).length := by
  have hcount := Reachability.count_setIfInBounds_lt (b := true) h (by decide)
  have hn := n.length_visits_le
  simp only [visited, List.length_append, List.length_cons]
  omega

end Tally

/-- Visit the offsets of a routine. -/
def collect (code : Array Word) (points : Array ContinuationPoint) {size : Nat} (t : Tally size)
    (pending : List Nat) : Except StackError (Tally size) :=
  match pending with
  | [] => .ok t
  | offset :: rest =>
    match h : t.seen[offset]? with
    | none => .error (.fallsOffEnd offset)
    | some true => collect code points t rest
    | some false =>
      match visit code points offset with
      | .error e => .error e
      | .ok n => collect code points (t.visited h n) (n.visits ++ rest)
termination_by 2 * t.seen.count false + pending.length
decreasing_by
  · exact Nat.add_lt_add_left (Nat.lt_succ_self _) _
  · exact t.measure_visited h n rest

/-- The routines that a routine calls, each once, in the order in which they are found. There are no
more of them than offsets. -/
def callees (code : Array Word) (points : Array ContinuationPoint) (routine : Nat) :
    Except StackError { targets : List Nat // targets.length ≤ code.size } :=
  (collect code points (.start code.size) [routine]).map fun t =>
    ⟨t.calls.reverse, by
      rw [List.length_reverse]
      exact Nat.le_of_add_right_le t.length_le⟩

/-- The callees of the routines that have been found, by offset. -/
abbrev Callees := Array (Option (List Nat))

def Callees.of (found : Callees) (routine : Nat) : List Nat :=
  (found.getD routine none).getD []

/-- Find the routines that the pending ones can reach by calls. -/
def discover (code : Array Word) (points : Array ContinuationPoint) (found : Callees)
    (pending : List Nat) : Except StackError Callees :=
  match pending with
  | [] => .ok found
  | routine :: rest =>
    match _h : found[routine]? with
    | some (some _) => discover code points found rest
    | none => .error (.fallsOffEnd routine)
    | some none =>
      match callees code points routine with
      | .error e => .error e
      | .ok ⟨targets, _htargets⟩ =>
        discover code points (found.setIfInBounds routine (some targets)) (targets.reverse ++ rest)
termination_by (code.size + 1) * found.count none + pending.length
decreasing_by
  · exact Nat.add_lt_add_left (Nat.lt_succ_self _) _
  · have hcount := Reachability.count_setIfInBounds_lt _h (Option.some_ne_none targets)
    have hfewer := Nat.mul_le_mul_left (code.size + 1) hcount
    rw [Nat.mul_succ] at hfewer
    simp only [List.length_append, List.length_reverse, List.length_cons]
    omega

/-- Whether a routine is being called, or how deep its calls are. -/
inductive Mark where
  | active
  | done (depth : Nat)
deriving DecidableEq

abbrev Marks := Array (Option Mark)

def Marks.mark (marks : Marks) (routine : Nat) (mark : Mark) : Marks :=
  marks.setIfInBounds routine (some mark)

/-- How deep the calls of a routine are, if it is done with. -/
def Marks.depth? (marks : Marks) (routine : Nat) : Option Nat :=
  match marks[routine]? with
  | some (some (.done depth)) => some depth
  | _ => none

/-- How deep calls are that begin with a call of one of these routines. -/
def Marks.deepest (marks : Marks) (targets : List Nat) : Nat :=
  ((targets.filterMap marks.depth?).map (· + 1)).max?.getD 0

/-- The greatest number of callees of a routine. -/
def Callees.widest (found : Callees) : Nat :=
  (found.toList.map fun targets => (targets.getD []).length).max?.getD 0

theorem Callees.length_of_le (found : Callees) (routine : Nat) :
    (found.of routine).length ≤ found.widest := by
  unfold of
  rw [Array.getD_eq_getD_getElem?]
  cases h : found[routine]? with
  | none => exact Nat.zero_le _
  | some targets =>
    refine List.le_max?_getD_of_mem (List.mem_map.2 ⟨targets, ?_, rfl⟩)
    exact Array.mem_toList_iff.2 (Array.mem_of_getElem? h)

/-- Mark routines, callees first. The path has the routines being called, the latest first, each
with the callees that have not been looked at. A callee outside the code has been refused before. -/
def walk (found : Callees) (marks : Marks) (path : List (Nat × List Nat)) :
    Except StackError Marks :=
  match path with
  | [] => .ok marks
  | (routine, target :: targets) :: rest =>
    match _h : marks[target]? with
    | some (some .active) => .error (.recursiveCall target)
    | some none =>
      walk found (marks.mark target .active)
        ((target, found.of target) :: (routine, targets) :: rest)
    | _ => walk found marks ((routine, targets) :: rest)
  | (routine, []) :: rest =>
    walk found (marks.mark routine (.done (marks.deepest (found.of routine)))) rest
termination_by
  (found.widest + 2) * marks.count none + (path.flatMap Prod.snd).length + path.length
decreasing_by
  · have hcount := Reachability.count_setIfInBounds_lt _h (Option.some_ne_none Mark.active)
    have hfewer := Nat.mul_le_mul_left (found.widest + 2) hcount
    have htargets := found.length_of_le target
    rw [Nat.mul_succ] at hfewer
    simp only [Marks.mark, List.flatMap_cons, List.length_append, List.length_cons]
    omega
  · simp only [List.flatMap_cons, List.length_append, List.length_cons]
    omega
  · have hcount : (marks.mark routine (.done (marks.deepest (found.of routine)))).count none ≤
        marks.count none := Reachability.count_setIfInBounds_le (Option.some_ne_none _)
    have hfewer := Nat.mul_le_mul_left (found.widest + 2) hcount
    simp only [List.flatMap_cons, List.length_append, List.length_cons]
    omega

/-- The call depth of the entry, which has to fit its field. -/
def Marks.answer (marks : Marks) (entry : Nat) : Except StackError Nat :=
  match marks.depth? entry with
  | some depth => if depth ≤ 0xffff then .ok depth else .error .callsTooDeep
  | none => .ok 0

/-- The longest chain of nested calls from an entry offset. -/
def analyze (code : Array Word) (points : Array ContinuationPoint) (entry : Nat) :
    Except StackError Nat := do
  let unmarked : Marks := Array.replicate code.size none
  let found ← discover code points (Array.replicate code.size none) [entry]
  let marks ← walk found (unmarked.mark entry .active) [(entry, found.of entry)]
  marks.answer entry

-- all routines are found before calls are followed, so that the first one calls itself comes second
example : analyze #[Word.encode .call 0, Word.encode .call 9, Word.encode .halt 0] #[] 0 =
    .error (.fallsOffEnd 9) := by cbv

end Behavior.CallDepth
