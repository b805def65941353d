import Behavior.Model.CallDepth
import Behavior.Proofs.Exploration
import Behavior.Proofs.StackExactness
import Mathlib.Data.Nat.Find

/-!
The analysis of nested calls is exact. Which routine calls which is said by what control can do
without entering a callee. Code is recursive if a routine that can be reached by calls can get back
to itself by calls; otherwise chains of nested calls have a greatest length.

The analysis first finds the routines that can be reached by calls, and then follows calls depth
first. The routines being called lead to each other, so one that is met again lies on a cycle. A
routine is done with when its callees are, so the lengths of the longest chains that start in them
are known.

Code whose offsets have ranks that no step increases and every call lowers is not recursive, so it
passes the analysis.
-/

namespace Behavior.CallDepth

open Reachability (Exploring Marked)
open StackDepth (Holds Edge Reaches)

variable {code : Array Word} {points : Array ContinuationPoint}
  {entry offset routine callee operand d : Nat} {op : Opcode} {targets : List Nat}

/-! ## The call graph -/

/-- Control goes from one offset to another within a routine. Calls are stepped over. -/
inductive Moves (code : Array Word) (points : Array ContinuationPoint) : Nat → Nat → Prop
  | next {offset operand : Nat} {op : Opcode} (h : Holds code offset op operand)
      (hop : op.continues = true) : Moves code points offset (offset + 1)
  | jump {offset operand : Nat} {op : Opcode} (h : Holds code offset op operand)
      (hop : op.branches = true) (hcall : op ≠ .call) : Moves code points offset operand
  | resume {offset operand : Nat} {p : ContinuationPoint} (h : Holds code offset .pause operand)
      (hp : points[operand]? = some p) : Moves code points offset p.defaultOffset.toNat

/-- One routine calls another, somewhere it can get to without entering a callee. -/
def Calls (code : Array Word) (points : Array ContinuationPoint) (routine callee : Nat) : Prop :=
  ∃ offset, Relation.ReflTransGen (Moves code points) routine offset ∧
    Holds code offset .call callee

/-- A chain of nested calls of a given length starts in a routine. -/
inductive Nests (code : Array Word) (points : Array ContinuationPoint) : Nat → Nat → Prop
  | nil (routine : Nat) : Nests code points routine 0
  | call {routine callee n : Nat} (hcall : Calls code points routine callee)
      (hn : Nests code points callee n) : Nests code points routine (n + 1)

/-- A routine can be reached by calls, and can reach itself by calls. -/
def OnCycle (code : Array Word) (points : Array ContinuationPoint) (entry routine : Nat) : Prop :=
  Relation.ReflTransGen (Calls code points) entry routine ∧
    Relation.TransGen (Calls code points) routine routine

/-- The length of the longest chain of nested calls. -/
def Longest (code : Array Word) (points : Array ContinuationPoint) (routine d : Nat) : Prop :=
  IsGreatest {n | Nests code points routine n} d

theorem Moves.edge {dest : Nat} (h : Moves code points offset dest) :
    Edge code points offset dest := by
  cases h with
  | next h hop => exact .next h hop
  | jump h hop _ => exact .branch h hop
  | resume h hp => exact .resume h hp

theorem reaches_of_moves (h : Relation.ReflTransGen (Moves code points) routine offset) :
    Reaches code points routine offset :=
  Relation.ReflTransGen.mono (fun _ _ => Moves.edge) _ _ h

theorem Calls.reaches (h : Calls code points routine callee) :
    Reaches code points routine callee := by
  obtain ⟨offset, hoffset, hcall⟩ := h
  exact (reaches_of_moves hoffset).tail (.branch hcall rfl)

theorem reaches_of_calls (h : Relation.ReflTransGen (Calls code points) routine callee) :
    Reaches code points routine callee := by
  induction h with
  | refl => exact .refl
  | tail _ hcall ih => exact ih.trans hcall.reaches

theorem moves_iff {dest : Nat} (h : Holds code offset op operand) :
    Moves code points offset dest ↔
      op.continues = true ∧ dest = offset + 1 ∨
        (op.branches = true ∧ op ≠ .call) ∧ dest = operand ∨
        op = .pause ∧ ∃ p, points[operand]? = some p ∧ dest = p.defaultOffset.toNat := by
  constructor
  · rintro (⟨h', hc⟩ | ⟨h', hb, hcall⟩ | ⟨h', hp⟩) <;> obtain ⟨rfl, rfl⟩ := h.unique h'
    · exact .inl ⟨hc, rfl⟩
    · exact .inr (.inl ⟨⟨hb, hcall⟩, rfl⟩)
    · exact .inr (.inr ⟨rfl, _, hp, rfl⟩)
  · rintro (⟨hc, rfl⟩ | ⟨⟨hb, hcall⟩, rfl⟩ | ⟨rfl, p, hp, rfl⟩)
    · exact .next h hc
    · exact .jump h hb hcall
    · exact .resume h hp

/-- An instruction is visited as the call graph says. -/
theorem visit_of_holds (points : Array ContinuationPoint) (h : Holds code offset op operand) :
    ∃ n, visit code points offset = .ok n ∧
      (∀ dest, dest ∈ n.visits ↔ Moves code points offset dest) ∧
      ∀ callee, (∃ next, n = .call callee next) ↔ Holds code offset .call callee := by
  have hcallee (callee : Nat) : Holds code offset .call callee ↔ op = .call ∧ operand = callee := by
    constructor
    · exact fun h' => h.unique h'
    · rintro ⟨rfl, rfl⟩
      exact h
  simp only [moves_iff h, hcallee]
  obtain ⟨word, hword, hop, rfl⟩ := h
  unfold visit
  rw [hword]
  dsimp only
  rw [hop]
  cases op with
  | pause =>
    dsimp only
    cases hp : points[Word.operand word]? with
    | none | some p => exact ⟨_, rfl, by simp [Next.visits, Opcode.continues, Opcode.branches]⟩
  | _ => exact ⟨_, rfl, by simp [Next.visits, Opcode.continues, Opcode.branches]⟩

/-- Control stays in the code and meets only known opcodes, from an offset on. -/
def InOrder (code : Array Word) (points : Array ContinuationPoint) (offset : Nat) : Prop :=
  ∀ i, Reaches code points offset i → ∃ op operand, Holds code i op operand

theorem InOrder.of_calls (h : InOrder code points entry)
    (hcalls : Relation.ReflTransGen (Calls code points) entry routine) :
    InOrder code points routine :=
  fun i hi => h i ((reaches_of_calls hcalls).trans hi)

/-! ## Collecting calls -/

theorem Next.mem_record {n : Next} {calls : List Nat} :
    callee ∈ n.record calls ↔ callee ∈ calls ∨ ∃ next, n = .call callee next := by
  cases n with
  | call routine next =>
    have hcall : (∃ next', call routine next = .call callee next') ↔ callee = routine := by
      simp [eq_comm]
    rw [hcall]
    simp only [record, List.contains_iff_mem]
    split <;> grind
  | stop | goto | fork => simp [record]

/-- The invariant of the loop that collects the calls of a routine: the calls at the offsets that
have been seen are known. -/
structure Collecting (code : Array Word) (points : Array ContinuationPoint) (routine : Nat)
    (t : Tally code.size) (pending : List Nat) : Prop where
  size : t.seen.size = code.size
  explores : Exploring (Moves code points) (· = routine) (Marked t.seen) pending
  called : ∀ callee ∈ t.calls, Calls code points routine callee
  covered : ∀ offset callee, Marked t.seen offset → Holds code offset .call callee →
    callee ∈ t.calls

namespace Collecting

variable {t : Tally code.size} {rest : List Nat}

theorem start (code : Array Word) (points : Array ContinuationPoint) (routine : Nat) :
    Collecting code points routine (.start code.size) [routine] where
  size := Array.size_replicate
  explores := .start_of (Reachability.not_marked_replicate code.size) fun _ => List.mem_singleton
  called _ hc := absurd hc List.not_mem_nil
  covered offset _ ho := absurd ho (Reachability.not_marked_replicate code.size offset)

theorem moves (h : Collecting code points routine t (offset :: rest)) :
    Relation.ReflTransGen (Moves code points) routine offset := by
  obtain ⟨_, rfl, hoffset⟩ := h.explores.reached offset (.inr List.mem_cons_self)
  exact hoffset

theorem visited (h : Collecting code points routine t (offset :: rest))
    (hs : t.seen[offset]? = some false) {n : Next}
    (hvisits : ∀ dest, dest ∈ n.visits ↔ Moves code points offset dest)
    (hcallees : ∀ callee, (∃ next, n = .call callee next) ↔ Holds code offset .call callee) :
    Collecting code points routine (t.visited hs n) (n.visits ++ rest) where
  size := Array.size_setIfInBounds.trans h.size
  explores := h.explores.visit (fun _ => Reachability.marked_setIfInBounds hs) hvisits
  called callee hc := by
    rcases Next.mem_record.1 hc with hc | hc
    · exact h.called callee hc
    · exact ⟨offset, h.moves, (hcallees callee).1 hc⟩
  covered i callee hi hc := by
    refine Next.mem_record.2 ?_
    rcases (Reachability.marked_setIfInBounds hs).1 hi with rfl | hi
    · exact .inr ((hcallees callee).2 hc)
    · exact .inl (h.covered i callee hi hc)

/-- When nothing is pending, all calls are known. -/
theorem mem_iff (h : Collecting code points routine t []) (callee : Nat) :
    callee ∈ t.calls ↔ Calls code points routine callee := by
  refine ⟨h.called callee, ?_⟩
  rintro ⟨offset, hoffset, hcall⟩
  exact h.covered offset callee (h.explores.seen_iff.2 ⟨routine, rfl, hoffset⟩) hcall

end Collecting

theorem collect_exact (hcode : InOrder code points routine) {t : Tally code.size}
    {pending : List Nat} (h : Collecting code points routine t pending) :
    ∃ result, collect code points t pending = .ok result ∧
      ∀ callee, callee ∈ result.calls ↔ Calls code points routine callee := by
  fun_induction collect code points t pending with
  | case1 t => exact ⟨t, rfl, h.mem_iff⟩
  | case2 t offset rest hs =>
    obtain ⟨op, operand, hop⟩ := hcode _ (reaches_of_moves h.moves)
    exact absurd hop.lt_size (Nat.not_lt.2 (h.size ▸ Array.getElem?_eq_none_iff.1 hs))
  | case3 t offset rest hs ih => exact ih { h with explores := h.explores.drop hs }
  | case4 t offset rest hs e hv =>
    obtain ⟨op, operand, hop⟩ := hcode _ (reaches_of_moves h.moves)
    obtain ⟨n, hv', -⟩ := visit_of_holds points hop
    cases hv.symm.trans hv'
  | case5 t offset rest hs n hv ih =>
    obtain ⟨op, operand, hop⟩ := hcode _ (reaches_of_moves h.moves)
    obtain ⟨n', hv', hvisits, hcallees⟩ := visit_of_holds points hop
    cases hv.symm.trans hv'
    exact ih (h.visited hs hvisits hcallees)

/-- The callees that are collected are those of the call graph. -/
theorem callees_exact (h : InOrder code points routine) :
    ∃ targets, callees code points routine = .ok targets ∧
      ∀ callee, callee ∈ targets.1 ↔ Calls code points routine callee := by
  obtain ⟨result, hresult, hcalls⟩ := collect_exact h (.start code points routine)
  rw [callees, hresult]
  exact ⟨_, rfl, fun callee => List.mem_reverse.trans (hcalls callee)⟩

/-- The table has the callees of every routine that can be reached by calls. -/
def Callees.Complete (code : Array Word) (points : Array ContinuationPoint) (entry : Nat)
    (found : Callees) : Prop :=
  ∀ routine, Relation.ReflTransGen (Calls code points) entry routine →
    ∀ callee, callee ∈ found.of routine ↔ Calls code points routine callee

/-- The invariant of the loop that finds routines. -/
structure Discovering (code : Array Word) (points : Array ContinuationPoint) (entry : Nat)
    (found : Callees) (pending : List Nat) : Prop where
  size : found.size = code.size
  explores : Exploring (Calls code points) (· = entry)
    (fun routine => ∃ targets, found[routine]? = some (some targets)) pending
  right : ∀ routine targets, found[routine]? = some (some targets) →
    ∀ callee, callee ∈ targets ↔ Calls code points routine callee

theorem Discovering.start (code : Array Word) (points : Array ContinuationPoint) (entry : Nat) :
    Discovering code points entry (Array.replicate code.size none) [entry] := by
  have hnone (routine : Nat) (targets : List Nat) :
      (Array.replicate code.size none : Callees)[routine]? ≠ some (some targets) := by
    rw [Array.getElem?_replicate]
    split <;> simp
  exact ⟨Array.size_replicate,
    .start_of (fun i => not_exists.2 (hnone i)) fun _ => List.mem_singleton,
    fun routine targets h => absurd h (hnone routine targets)⟩

theorem Discovering.visited {found : Callees} {rest : List Nat}
    (h : Discovering code points entry found (routine :: rest)) (hlt : routine < found.size)
    (htargets : ∀ callee, callee ∈ targets ↔ Calls code points routine callee) :
    Discovering code points entry (found.setIfInBounds routine (some targets))
      (targets.reverse ++ rest) where
  size := Array.size_setIfInBounds.trans h.size
  explores := by
    refine h.explores.visit (fun i => ?_) fun i => List.mem_reverse.trans (htargets i)
    rw [Reachability.getElem?_set_of_lt hlt]
    split
    · next heq => exact iff_of_true ⟨targets, rfl⟩ (.inl heq)
    · next hne => exact (or_iff_right hne).symm
  right i targets' hi := by
    rw [Reachability.getElem?_set_of_lt hlt] at hi
    split at hi
    · next heq =>
      subst heq
      cases hi
      exact htargets
    · exact h.right i targets' hi

theorem discover_exact (hcode : InOrder code points entry) {found : Callees} {pending : List Nat}
    (h : Discovering code points entry found pending) :
    ∃ found', discover code points found pending = .ok found' ∧
      found'.Complete code points entry := by
  have hreached {found : Callees} {routine : Nat} {rest : List Nat}
      (h : Discovering code points entry found (routine :: rest)) :
      Relation.ReflTransGen (Calls code points) entry routine := by
    obtain ⟨_, rfl, hroutine⟩ := h.explores.reached routine (.inr List.mem_cons_self)
    exact hroutine
  fun_induction discover code points found pending with
  | case1 found =>
    refine ⟨found, rfl, fun routine hroutine => ?_⟩
    obtain ⟨targets, htargets⟩ := h.explores.seen_iff.2 ⟨entry, rfl, hroutine⟩
    rw [Callees.of, Array.getD_eq_getD_getElem?, htargets]
    exact h.right routine targets htargets
  | case2 found routine rest targets hs ih =>
    exact ih { h with explores := h.explores.drop ⟨targets, hs⟩ }
  | case3 found routine rest hs =>
    obtain ⟨op, operand, hop⟩ := hcode routine (reaches_of_calls (hreached h))
    exact absurd hop.lt_size (Nat.not_lt.2 (h.size ▸ Array.getElem?_eq_none_iff.1 hs))
  | case4 found routine rest hs e he =>
    obtain ⟨targets, htargets, -⟩ := callees_exact (hcode.of_calls (hreached h))
    cases he.symm.trans htargets
  | case5 found routine rest hs targets hle htargets ih =>
    obtain ⟨targets', htargets', hcalls⟩ := callees_exact (hcode.of_calls (hreached h))
    cases htargets.symm.trans htargets'
    exact ih (h.visited (Array.getElem?_eq_some_iff.1 hs).1 hcalls)

/-! ## Chains of calls -/

theorem Nests.of_calls {routine' n : Nat}
    (h : Relation.ReflTransGen (Calls code points) routine routine')
    (hn : Nests code points routine' n) : ∃ m, n ≤ m ∧ Nests code points routine m := by
  induction h using Relation.ReflTransGen.head_induction_on with
  | refl => exact ⟨n, Nat.le_refl _, hn⟩
  | head hcall _ ih =>
    obtain ⟨m, hle, hm⟩ := ih
    exact ⟨m + 1, Nat.le_succ_of_le hle, .call hcall hm⟩

/-- A cycle can be gone round as often as one likes. -/
theorem Nests.of_cycle (h : Relation.TransGen (Calls code points) routine routine) (n : Nat) :
    ∃ m, n ≤ m ∧ Nests code points routine m := by
  induction n with
  | zero => exact ⟨0, Nat.le_refl _, .nil routine⟩
  | succ n ih =>
    obtain ⟨m, hle, hm⟩ := ih
    obtain ⟨callee, hcall, hback⟩ := Relation.TransGen.head'_iff.1 h
    obtain ⟨k, hk, hcallee⟩ := hm.of_calls hback
    exact ⟨k + 1, by omega, .call hcall hcallee⟩

theorem not_onCycle_of_le (h : ∀ n, Nests code points entry n → n ≤ d) :
    ¬ OnCycle code points entry routine := by
  rintro ⟨hreach, hcycle⟩
  obtain ⟨n, hn, hnests⟩ := Nests.of_cycle hcycle (d + 1)
  obtain ⟨m, hm, hentry⟩ := hnests.of_calls hreach
  exact Nat.not_succ_le_self d (Nat.le_trans hn (Nat.le_trans hm (h m hentry)))

/-! ## Following calls -/

section Walk

variable {found : Callees} {marks marks' : Marks} {above above' : List Nat}
  {path rest : List (Nat × List Nat)}

theorem Marks.depth?_eq_some : marks.depth? routine = some d ↔
    marks[routine]? = some (some (.done d)) := by
  unfold Marks.depth?
  split
  · next depth h => simp [h]
  · next h => exact iff_of_false nofun (h d)

theorem Marks.getElem?_mark {mark : Mark} (h : routine < marks.size) (r : Nat) :
    (marks.mark routine mark)[r]? = if r = routine then some (some mark) else marks[r]? :=
  Reachability.getElem?_set_of_lt h r

theorem Marks.exists_mark {mark : Mark} (h : routine < marks.size) {r : Nat}
    (hr : ∃ mark, marks[r]? = some (some mark)) :
    ∃ mark', (marks.mark routine mark)[r]? = some (some mark') := by
  rw [getElem?_mark h]
  split
  · exact ⟨mark, rfl⟩
  · exact hr

/-- When all callees are done with, the longest chain is known. -/
theorem Marks.longest_deepest (hlongest : ∀ r d, marks.depth? r = some d → Longest code points r d)
    (htargets : ∀ callee, callee ∈ targets ↔ Calls code points routine callee)
    (hdone : ∀ callee, Calls code points routine callee → ∃ d, marks.depth? callee = some d) :
    Longest code points routine (marks.deepest targets) := by
  let depths := (targets.filterMap marks.depth?).map (· + 1)
  have hmem (m : Nat) : m ∈ depths ↔
      ∃ d, (∃ callee, Calls code points routine callee ∧ marks.depth? callee = some d) ∧
        d + 1 = m := by
    simp only [depths, List.mem_map, List.mem_filterMap, htargets]
  have hnests {n : Nat} (hn : Nests code points routine n) : n = 0 ∨ ∃ m ∈ depths, n ≤ m := by
    cases hn with
    | nil => exact .inl rfl
    | call hcall hn =>
      obtain ⟨d, hd⟩ := hdone _ hcall
      exact .inr ⟨d + 1, (hmem _).2 ⟨d, ⟨_, hcall, hd⟩, rfl⟩,
        Nat.succ_le_succ ((hlongest _ d hd).2 hn)⟩
  show IsGreatest _ (depths.max?.getD 0)
  cases hmax : depths.max? with
  | none =>
    rw [List.max?_eq_none_iff] at hmax
    refine ⟨.nil routine, fun n hn => ?_⟩
    rcases hnests hn with rfl | ⟨m, hm, -⟩
    · exact Nat.le_refl _
    · rw [hmax] at hm
      cases hm
  | some deepest =>
    obtain ⟨hdeepest, hle⟩ := List.max?_eq_some_iff.1 hmax
    constructor
    · obtain ⟨d, ⟨callee, hcall, hd⟩, rfl⟩ := (hmem _).1 hdeepest
      exact .call hcall (hlongest callee d hd).1
    · intro n hn
      rcases hnests hn with rfl | ⟨m, hm, hnm⟩
      · exact Nat.zero_le _
      · exact hnm.trans (hle m hm)

/-- Every callee of a routine on the path is still to be looked at, further up on the path, or done
with. -/
inductive Frames (code : Array Word) (points : Array ContinuationPoint) (marks : Marks) :
    List Nat → List (Nat × List Nat) → Prop
  | nil (above : List Nat) : Frames code points marks above []
  | cons {above targets : List Nat} {routine : Nat} {rest : List (Nat × List Nat)}
      (hcalls : ∀ callee ∈ targets, Calls code points routine callee)
      (hlooked : ∀ callee, Calls code points routine callee →
        callee ∈ targets ∨ callee ∈ above ∨ ∃ d, marks.depth? callee = some d)
      (hrest : Frames code points marks (routine :: above) rest) :
      Frames code points marks above ((routine, targets) :: rest)

theorem Frames.mono (h : Frames code points marks above path)
    (hmono : ∀ r, (r ∈ above ∨ ∃ d, marks.depth? r = some d) →
      r ∈ above' ∨ ∃ d, marks'.depth? r = some d) : Frames code points marks' above' path := by
  induction h generalizing above' with
  | nil => exact .nil above'
  | cons hcalls hlooked hrest ih =>
    refine .cons hcalls (fun callee hc => (hlooked callee hc).imp_right (hmono callee)) (ih ?_)
    rintro r (hr | hr)
    · rcases List.mem_cons.1 hr with rfl | hr
      · exact .inl List.mem_cons_self
      · exact (hmono r (.inl hr)).imp_left (List.mem_cons_of_mem _)
    · exact (hmono r (.inr hr)).imp_left (List.mem_cons_of_mem _)

/-- The invariant of the walk. The routines being called are different and lead to each other. -/
structure Walking (code : Array Word) (points : Array ContinuationPoint) (entry : Nat)
    (marks : Marks) (path : List (Nat × List Nat)) : Prop where
  size : marks.size = code.size
  active : ∀ r, marks[r]? = some (some .active) ↔ r ∈ path.map Prod.fst
  longest : ∀ r d, marks.depth? r = some d → Longest code points r d
  leads : (path.map Prod.fst).Pairwise fun r r' =>
    r ≠ r' ∧ Relation.TransGen (Calls code points) r' r
  reached : ∀ r ∈ path.map Prod.fst, Relation.ReflTransGen (Calls code points) entry r
  marked : ∃ mark, marks[entry]? = some (some mark)
  frames : Frames code points marks [] path

namespace Walking

theorem start (hfound : found.Complete code points entry) (hlt : entry < code.size) :
    Walking code points entry (Marks.mark (Array.replicate code.size none) entry .active)
      [(entry, found.of entry)] := by
  have hlt : entry < (Array.replicate code.size none : Marks).size :=
    hlt.trans_eq Array.size_replicate.symm
  have hnone (r : Nat) (mark : Mark) :
      (Array.replicate code.size none : Marks)[r]? ≠ some (some mark) := by
    rw [Array.getElem?_replicate]
    split <;> simp
  refine ⟨Array.size_setIfInBounds.trans Array.size_replicate, fun r => ?_, fun r d hd => ?_,
    List.pairwise_singleton _ _, List.forall_mem_singleton.2 .refl, ⟨.active, ?_⟩,
    .cons (fun callee => (hfound entry .refl callee).1)
      (fun callee hc => .inl ((hfound entry .refl callee).2 hc)) (.nil _)⟩
  · rw [Marks.getElem?_mark hlt]
    split
    · next heq => exact iff_of_true rfl (List.mem_singleton.2 heq)
    · next hne => exact iff_of_false (hnone r _) fun hr => hne (List.mem_singleton.1 hr)
  · rw [Marks.depth?_eq_some, Marks.getElem?_mark hlt] at hd
    split at hd
    · cases hd
    · exact absurd hd (hnone r _)
  · rw [Marks.getElem?_mark hlt, if_pos rfl]

theorem leads_on (h : Walking code points entry marks ((routine, targets) :: rest))
    (hcall : Calls code points routine callee) :
    ∀ r ∈ routine :: rest.map Prod.fst, Relation.TransGen (Calls code points) r callee := by
  intro r hr
  rcases List.mem_cons.1 hr with rfl | hr
  · exact .single hcall
  · exact ((List.pairwise_cons.1 h.leads).1 r hr).2.tail hcall

theorem onCycle (h : Walking code points entry marks ((routine, targets) :: rest))
    (hcall : Calls code points routine callee)
    (hactive : marks[callee]? = some (some .active)) : OnCycle code points entry callee :=
  have hmem := (h.active callee).1 hactive
  ⟨h.reached callee hmem, h.leads_on hcall callee hmem⟩

theorem skip (h : Walking code points entry marks ((routine, callee :: targets) :: rest))
    (hdone : marks.depth? callee = some d) :
    Walking code points entry marks ((routine, targets) :: rest) := by
  obtain ⟨hsize, hactive, hlongest, hleads, hreached, hmarked, hframes⟩ := h
  refine ⟨hsize, hactive, hlongest, hleads, hreached, hmarked, ?_⟩
  cases hframes with
  | cons hcalls hlooked hrest =>
    refine .cons (fun c hc => hcalls c (List.mem_cons_of_mem _ hc)) (fun c hc => ?_) hrest
    rcases hlooked c hc with hmem | hc
    · rcases List.mem_cons.1 hmem with rfl | hmem
      · exact .inr (.inr ⟨d, hdone⟩)
      · exact .inl hmem
    · exact .inr hc

theorem push (h : Walking code points entry marks ((routine, callee :: targets) :: rest))
    (hfound : found.Complete code points entry) (hnone : marks[callee]? = some none) :
    Walking code points entry (marks.mark callee .active)
      ((callee, found.of callee) :: (routine, targets) :: rest) := by
  have hlt := (Array.getElem?_eq_some_iff.1 hnone).1
  have hdepth (r : Nat) (d : Nat) :
      (marks.mark callee .active).depth? r = some d ↔ marks.depth? r = some d := by
    rw [Marks.depth?_eq_some, Marks.depth?_eq_some, Marks.getElem?_mark hlt]
    split
    · next heq =>
      subst heq
      rw [hnone]
      exact iff_of_false nofun nofun
    · rfl
  cases h.frames with
  | cons hcalls hlooked hrest =>
    have hcall : Calls code points routine callee := hcalls callee List.mem_cons_self
    have hreached : Relation.ReflTransGen (Calls code points) entry callee :=
      (h.reached routine List.mem_cons_self).tail hcall
    refine ⟨Array.size_setIfInBounds.trans h.size, fun r => ?_,
      fun r d hd => h.longest r d ((hdepth r d).1 hd), ?_,
      List.forall_mem_cons.2 ⟨hreached, h.reached⟩, Marks.exists_mark hlt h.marked, .cons
        (fun c => (hfound callee hreached c).1) (fun c hc => .inl ((hfound callee hreached c).2 hc))
        (.cons (fun c hc => hcalls c (List.mem_cons_of_mem _ hc)) (fun c hc => ?_)
          (hrest.mono fun r hr => ?_))⟩
    · rw [Marks.getElem?_mark hlt, List.map_cons, List.mem_cons]
      split
      · next heq => exact iff_of_true rfl (.inl heq)
      · next hne => exact (h.active r).trans (or_iff_right hne).symm
    · refine List.pairwise_cons.2 ⟨fun r hr => ⟨?_, h.leads_on hcall r hr⟩, h.leads⟩
      rintro rfl
      cases hnone.symm.trans ((h.active callee).2 hr)
    · simp only [hdepth]
      rcases hlooked c hc with hmem | hmem | hc
      · rcases List.mem_cons.1 hmem with rfl | hmem
        · exact .inr (.inl List.mem_cons_self)
        · exact .inl hmem
      · cases hmem
      · exact .inr (.inr hc)
    · simp only [hdepth]
      refine hr.imp_left fun hr => ?_
      rw [List.mem_singleton.1 hr]
      exact List.mem_cons_self

theorem pop (h : Walking code points entry marks ((routine, []) :: rest))
    (hlt : routine < code.size) (hlongest : Longest code points routine d) :
    Walking code points entry (marks.mark routine (.done d)) rest := by
  have hlt : routine < marks.size := hlt.trans_eq h.size.symm
  obtain ⟨hapart, hleads⟩ := List.pairwise_cons.1 h.leads
  cases h.frames with
  | cons hcalls hlooked hrest =>
    refine ⟨Array.size_setIfInBounds.trans h.size, fun r => ?_, fun r d' hd => ?_, hleads,
      (List.forall_mem_cons.1 h.reached).2, Marks.exists_mark hlt h.marked,
      hrest.mono fun r hr => .inr ?_⟩
    · rw [Marks.getElem?_mark hlt]
      split
      · next heq => exact iff_of_false nofun fun hr => (hapart r hr).1 heq.symm
      · next hne => exact (h.active r).trans (List.mem_cons.trans (or_iff_right hne))
    · rw [Marks.depth?_eq_some, Marks.getElem?_mark hlt] at hd
      split at hd
      · next heq =>
        subst heq
        cases hd
        exact hlongest
      · exact h.longest r d' (Marks.depth?_eq_some.2 hd)
    · simp only [Marks.depth?_eq_some, Marks.getElem?_mark hlt]
      split
      · exact ⟨d, rfl⟩
      · next hne =>
        obtain ⟨d', hd'⟩ := hr.resolve_left fun hr => hne (List.mem_singleton.1 hr)
        exact ⟨d', Marks.depth?_eq_some.1 hd'⟩

end Walking

/-- The walk finds the length of the longest chain, or a routine on a cycle. -/
theorem walk_finds (hcode : InOrder code points entry) (hfound : found.Complete code points entry)
    (h : Walking code points entry marks path) :
    (∃ routine, OnCycle code points entry routine ∧
        walk found marks path = .error (.recursiveCall routine)) ∨
      ∃ marks' d, walk found marks path = .ok marks' ∧ marks'.depth? entry = some d ∧
        Longest code points entry d := by
  have hlt {r : Nat} (hr : Relation.ReflTransGen (Calls code points) entry r) : r < code.size := by
    obtain ⟨op, operand, hop⟩ := hcode r (reaches_of_calls hr)
    exact hop.lt_size
  have hcall {marks : Marks} {routine callee : Nat} {targets : List Nat}
      {rest : List (Nat × List Nat)}
      (h : Walking code points entry marks ((routine, callee :: targets) :: rest)) :
      Calls code points routine callee := by
    cases h.frames with
    | cons hcalls => exact hcalls callee List.mem_cons_self
  fun_induction walk found marks path with
  | case1 marks =>
    obtain ⟨mark, hmark⟩ := h.marked
    cases mark with
    | active => cases (h.active entry).1 hmark
    | done d =>
      have hd := Marks.depth?_eq_some.2 hmark
      exact .inr ⟨marks, d, rfl, hd, h.longest entry d hd⟩
  | case2 marks routine target targets rest hactive =>
    exact .inl ⟨target, h.onCycle (hcall h) hactive, rfl⟩
  | case3 marks routine target targets rest hnone ih => exact ih (h.push hfound hnone)
  | case4 marks routine target targets rest hactive hnone ih =>
    have hreached := (h.reached routine List.mem_cons_self).tail (hcall h)
    cases hmark : marks[target]? with
    | none =>
      exact absurd (hlt hreached) (Nat.not_lt.2 (h.size ▸ Array.getElem?_eq_none_iff.1 hmark))
    | some mark =>
      cases mark with
      | none => exact (hnone hmark).elim
      | some mark =>
        cases mark with
        | active => exact (hactive hmark).elim
        | done d => exact ih (h.skip (Marks.depth?_eq_some.2 hmark))
  | case5 marks routine rest ih =>
    have hroutine := h.reached routine List.mem_cons_self
    refine ih (h.pop (hlt hroutine) (Marks.longest_deepest h.longest (hfound routine hroutine) ?_))
    intro callee hc
    cases h.frames with
    | cons _ hlooked =>
      exact ((hlooked callee hc).resolve_left List.not_mem_nil).resolve_left List.not_mem_nil

end Walk

theorem analyze_cases (hcode : InOrder code points entry) :
    (∃ routine, OnCycle code points entry routine ∧
        analyze code points entry = .error (.recursiveCall routine)) ∨
      ∃ d, Longest code points entry d ∧
        analyze code points entry = if d ≤ 0xffff then .ok d else .error .callsTooDeep := by
  obtain ⟨op, operand, hop⟩ := hcode entry .refl
  obtain ⟨found, hdiscover, hfound⟩ := discover_exact hcode (.start code points entry)
  rw [analyze, hdiscover]
  rcases walk_finds hcode hfound (.start hfound hop.lt_size) with
    ⟨routine, hcycle, hwalk⟩ | ⟨marks, d, hwalk, hd, hlongest⟩
  · refine .inl ⟨routine, hcycle, ?_⟩
    show walk found _ _ >>= _ = _
    rw [hwalk]
    rfl
  · refine .inr ⟨d, hlongest, ?_⟩
    show walk found _ _ >>= _ = _
    rw [hwalk]
    show marks.answer entry = _
    rw [Marks.answer, hd]

/-- If control stays in the code and meets only known opcodes, the analysis refuses code as
recursive just where a routine that can be reached by calls can reach itself, and names such a
routine. Other code has a longest chain of nested calls, whose length is the answer unless it is out
of range. -/
theorem analyze_longest (code : Array Word) (points : Array ContinuationPoint) (entry : Nat)
    (hcode : ∀ i, Reaches code points entry i → ∃ op operand, Holds code i op operand) :
    ((∃ routine, analyze code points entry = .error (.recursiveCall routine)) ↔
        ∃ routine, OnCycle code points entry routine) ∧
      (∀ routine, analyze code points entry = .error (.recursiveCall routine) →
        OnCycle code points entry routine) ∧
      ((¬ ∃ routine, OnCycle code points entry routine) →
        ∃ d, IsGreatest {n | Nests code points entry n} d ∧
          analyze code points entry = if d ≤ 0xffff then .ok d else .error .callsTooDeep) := by
  rcases analyze_cases hcode with ⟨routine, hcycle, hanalyze⟩ | ⟨d, hlongest, hanalyze⟩
  · refine ⟨iff_of_true ⟨routine, hanalyze⟩ ⟨routine, hcycle⟩, ?_,
      fun h => absurd ⟨routine, hcycle⟩ h⟩
    intro routine' h
    rw [hanalyze] at h
    cases h
    exact hcycle
  · have hnone (routine : Nat) : analyze code points entry ≠ .error (.recursiveCall routine) := by
      rw [hanalyze]
      split <;> nofun
    refine ⟨iff_of_false ?_ ?_, fun routine h => absurd h (hnone routine),
      fun _ => ⟨d, hlongest, hanalyze⟩⟩
    · rintro ⟨routine, h⟩
      exact hnone routine h
    · rintro ⟨routine, h⟩
      exact not_onCycle_of_le (fun n hn => hlongest.2 hn) h

/-- Code that calls a routine which returns. -/
def calling : Array Word :=
  #[Word.encode .call 2, Word.encode .halt 0, Word.encode .ret 0]

theorem holds_calling {i : Nat} (h : Holds calling i op operand) :
    i = 0 ∧ op = .call ∧ operand = 2 ∨ i = 1 ∧ op = .halt ∨ i = 2 ∧ op = .ret := by
  have hlt : i < 3 := h.lt_size
  obtain ⟨word, hword, hop, rfl⟩ := h
  obtain rfl | rfl | rfl : i = 0 ∨ i = 1 ∨ i = 2 := by omega
  all_goals cases hword
  · exact .inl ⟨rfl, (Option.some.inj hop).symm, by decide⟩
  · exact .inr (.inl ⟨rfl, (Option.some.inj hop).symm⟩)
  · exact .inr (.inr ⟨rfl, (Option.some.inj hop).symm⟩)

theorem moves_calling {i j : Nat} (h : Moves calling #[] i j) : j = 1 := by
  cases h with
  | next h hop =>
    rcases holds_calling h with ⟨rfl, -⟩ | ⟨-, rfl⟩ | ⟨-, rfl⟩
    · rfl
    · cases hop
    · cases hop
  | jump h hop hcall =>
    rcases holds_calling h with ⟨-, rfl, -⟩ | ⟨-, rfl⟩ | ⟨-, rfl⟩
    · exact absurd rfl hcall
    · cases hop
    · cases hop
  | resume h hp => cases hp

theorem calls_calling {r c : Nat} (h : Calls calling #[] r c) : r = 0 ∧ c = 2 := by
  obtain ⟨offset, hoffset, hcall⟩ := h
  rcases holds_calling hcall with ⟨rfl, -, rfl⟩ | ⟨-, h⟩ | ⟨-, h⟩
  · refine ⟨?_, rfl⟩
    cases hoffset with
    | refl => rfl
    | tail _ hmove => cases moves_calling hmove
  · cases h
  · cases h

theorem analyze_longest_calling : analyze calling #[] 0 = .ok 1 := by
  have hcall : Holds calling 0 .call 2 := ⟨_, rfl, by decide, by decide⟩
  have hreach : ∀ i, Reaches calling #[] 0 i → ∃ op operand, Holds calling i op operand := by
    intro i hi
    cases hi with
    | refl => exact ⟨_, _, hcall⟩
    | tail _ hedge =>
      cases hedge with
      | next h hop =>
        rcases holds_calling h with ⟨rfl, -⟩ | ⟨-, rfl⟩ | ⟨-, rfl⟩
        · exact ⟨.halt, 0, _, rfl, by decide, by decide⟩
        · cases hop
        · cases hop
      | branch h hop =>
        rcases holds_calling h with ⟨-, -, rfl⟩ | ⟨-, rfl⟩ | ⟨-, rfl⟩
        · exact ⟨.ret, 0, _, rfl, by decide, by decide⟩
        · cases hop
        · cases hop
      | resume h hp => cases hp
  obtain ⟨-, -, hlongest⟩ := analyze_longest calling #[] 0 hreach
  obtain ⟨d, ⟨hd, hmax⟩, hanalyze⟩ := hlongest (by
    rintro ⟨r, -, hcycle⟩
    obtain ⟨c, hc, -⟩ := Relation.TransGen.head'_iff.1 hcycle
    obtain ⟨c', -, hc'⟩ := Relation.TransGen.tail'_iff.1 hcycle
    cases (calls_calling hc).1.symm.trans (calls_calling hc').2)
  have hle : 1 ≤ d := hmax (.call ⟨0, .refl, hcall⟩ (.nil 2))
  have hge : d ≤ 1 := by
    cases hd with
    | nil => exact Nat.zero_le _
    | call hc hn =>
      cases hn with
      | nil => exact Nat.le_refl _
      | call hc' _ => cases (calls_calling hc).2.symm.trans (calls_calling hc').1
  obtain rfl : d = 1 := Nat.le_antisymm hge hle
  exact hanalyze

/-! ## Ranks of routines -/

/-- A ranking of routines: what a ranked routine calls has a lower rank. -/
def Ranked (code : Array Word) (points : Array ContinuationPoint) (rank : Nat → Option Nat) :
    Prop :=
  ∀ routine callee r, rank routine = some r → Calls code points routine callee →
    ∃ r', rank callee = some r' ∧ r' < r

/-- A successful analysis of code that is in order has a ranking behind it. The rank of a routine is
the length of the longest chain of calls that starts in it. -/
theorem analyze_ok (hcode : InOrder code points entry) (h : analyze code points entry = .ok d) :
    ∃ rank : Nat → Option Nat, Ranked code points rank ∧ rank entry = some d := by
  classical
  obtain ⟨hnests, hmax⟩ : Longest code points entry d := by
    rcases analyze_cases hcode with ⟨routine, -, he⟩ | ⟨d', hlongest, hd'⟩
    · cases h.symm.trans he
    · rw [h] at hd'
      split at hd'
      · cases hd'
        exact hlongest
      · cases hd'
  have hle {routine n : Nat} (hcalled : Relation.ReflTransGen (Calls code points) entry routine)
      (hn : Nests code points routine n) : n ≤ d := by
    obtain ⟨k, hk, hentry⟩ := hn.of_calls hcalled
    exact Nat.le_trans hk (hmax hentry)
  refine ⟨fun routine => if Relation.ReflTransGen (Calls code points) entry routine then
    some (Nat.findGreatest (Nests code points routine) d) else none, ?_, ?_⟩
  · intro routine callee r hr hcall
    obtain ⟨hcalled, ⟨⟩⟩ := Option.ite_none_right_eq_some.1 hr
    have hlongest : Nests code points callee (Nat.findGreatest (Nests code points callee) d) :=
      Nat.findGreatest_spec (Nat.zero_le d) (.nil callee)
    exact ⟨_, if_pos (hcalled.tail hcall),
      Nat.le_findGreatest (hle hcalled (.call hcall hlongest)) (.call hcall hlongest)⟩
  · exact (if_pos .refl).trans (congrArg some (Nat.findGreatest_eq hnests))

/-! ## Code whose offsets have ranks -/

/-- Every ranked offset has an instruction that leads to offsets of no higher rank and calls
routines of lower rank. -/
def Graded (code : Array Word) (points : Array ContinuationPoint) (rank : Nat → Option Nat) :
    Prop :=
  ∀ offset r, rank offset = some r → ∃ n, visit code points offset = .ok n ∧
    (∀ dest ∈ n.visits, ∃ r', rank dest = some r' ∧ r' ≤ r) ∧
    ∀ callee next, n = .call callee next → ∃ r', rank callee = some r' ∧ r' < r

theorem holds_of_visit {n : Next} (h : visit code points offset = .ok n) :
    ∃ op operand, Holds code offset op operand := by
  unfold visit at h
  split at h
  · cases h
  · next word hword =>
    dsimp only at h
    cases hop : Word.opcode? word with
    | none =>
      rw [hop] at h
      cases h
    | some op => exact ⟨op, _, word, hword, hop, rfl⟩

namespace Graded

variable {rank : Nat → Option Nat} (h : Graded code points rank) {offset r : Nat}

include h

/-- An instruction is visited as the call graph says, so ranks are as it says. -/
theorem step (hr : rank offset = some r) : (∃ op operand, Holds code offset op operand) ∧
    (∀ dest, Moves code points offset dest → ∃ r', rank dest = some r' ∧ r' ≤ r) ∧
    ∀ callee, Holds code offset .call callee → ∃ r', rank callee = some r' ∧ r' < r := by
  obtain ⟨n, hv, hvisits, hcalls⟩ := h offset r hr
  obtain ⟨op, operand, hop⟩ := holds_of_visit hv
  obtain ⟨n', hv', hmoves, hcallees⟩ := visit_of_holds points hop
  rw [hv] at hv'
  cases hv'
  refine ⟨⟨op, operand, hop⟩, fun dest hd => hvisits dest ((hmoves dest).2 hd), fun callee hc => ?_⟩
  obtain ⟨next, hn⟩ := (hcallees callee).2 hc
  exact hcalls callee next hn

theorem inOrder (hr : rank offset = some r) : InOrder code points offset := by
  intro i hi
  have hranked : ∃ r', rank i = some r' := by
    induction hi with
    | refl => exact ⟨r, hr⟩
    | tail _ hedge ih =>
      obtain ⟨r', hr'⟩ := ih
      obtain ⟨-, hmoves, hcalls⟩ := h.step hr'
      cases hedge with
      | next hop hc => exact (hmoves _ (.next hop hc)).imp fun _ => And.left
      | @branch _ op hop hb =>
        by_cases hcall : op = .call
        · exact (hcalls _ (hcall ▸ hop)).imp fun _ => And.left
        · exact (hmoves _ (.jump hop hb hcall)).imp fun _ => And.left
      | resume hop hp => exact (hmoves _ (.resume hop hp)).imp fun _ => And.left
  obtain ⟨r', hr'⟩ := hranked
  exact (h.step hr').1

theorem calls (hr : rank offset = some r) {callee : Nat} (hcall : Calls code points offset callee) :
    ∃ r', rank callee = some r' ∧ r' < r := by
  obtain ⟨i, hi, hcallee⟩ := hcall
  have hranked : ∃ r', rank i = some r' ∧ r' ≤ r := by
    clear hcallee
    induction hi with
    | refl => exact ⟨r, hr, Nat.le_refl _⟩
    | tail _ hmove ih =>
      obtain ⟨r', hr', hle⟩ := ih
      obtain ⟨r'', hr'', hle'⟩ := (h.step hr').2.1 _ hmove
      exact ⟨r'', hr'', Nat.le_trans hle' hle⟩
  obtain ⟨r', hr', hle⟩ := hranked
  obtain ⟨r'', hr'', hlt⟩ := (h.step hr').2.2 callee hcallee
  exact ⟨r'', hr'', Nat.lt_of_lt_of_le hlt hle⟩

/-- Ranks get lower with each call, so a chain of calls is no longer than a rank. -/
theorem nests_le {n : Nat} (hn : Nests code points offset n) (hr : rank offset = some r) :
    n ≤ r := by
  induction hn generalizing r with
  | nil => exact Nat.zero_le _
  | call hcall _ ih =>
    obtain ⟨r', hr', hlt⟩ := h.calls hr hcall
    exact Nat.lt_of_le_of_lt (ih hr') hlt

end Graded

/-- The analysis finds a depth of at most the rank of the entry. -/
theorem analyze_of_graded {rank : Nat → Option Nat} (h : Graded code points rank) {entry r : Nat}
    (hr : rank entry = some r) (hle : r ≤ 0xffff) :
    ∃ depth ≤ r, analyze code points entry = .ok depth := by
  rcases analyze_cases (h.inOrder hr) with ⟨routine, hcycle, -⟩ | ⟨d, hlongest, hanalyze⟩
  · exact absurd hcycle (not_onCycle_of_le fun n hn => h.nests_le hn hr)
  · have hd : d ≤ r := h.nests_le hlongest.1 hr
    rw [hanalyze, if_pos (Nat.le_trans hd hle)]
    exact ⟨d, hd, rfl⟩

end Behavior.CallDepth
