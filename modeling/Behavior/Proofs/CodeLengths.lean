import Behavior.Proofs.CodeLabels
import Behavior.Proofs.Shortcuts

/-!
Simpler graphs have no longer code. A constant is one word, and a jump is shorter than a branch.
With threaded jumps a block may need a jump that it did not need before, because the block after it,
which only jumped on, was passed; but then that block has lost its code, and the jump with it.
-/

namespace Behavior

variable {f : Scalar → Scalar}

/-! ## Constants and branches -/

theorem Scalar.codeSize_pos (e : Scalar) : 0 < e.codeSize := by
  cases e <;> simp only [codeSize] <;> omega

theorem Scalar.codeSize_fold (e : Scalar) : e.fold.codeSize ≤ e.codeSize := by
  induction e with
  | const x | inputSlot slot | localSlot slot | random => exact Nat.le_refl _
  | unary f a iha =>
    rw [fold]
    split
    · exact codeSize_pos _
    · exact Nat.succ_le_succ iha
  | binary f a b iha ihb =>
    rw [fold]
    split
    · exact codeSize_pos _
    · exact Nat.succ_le_succ (Nat.add_le_add iha ihb)
  | ternary f a b c iha ihb ihc =>
    rw [fold]
    split
    · exact codeSize_pos _
    · exact Nat.succ_le_succ (Nat.add_le_add (Nat.add_le_add iha ihb) ihc)
  | select c a b ihc iha ihb =>
    rw [fold]
    split
    · rw [codeSize]
      split <;> omega
    · simp only [codeSize]
      omega

theorem length_jumpLabels (i : Nat) (next : Option Nat) (block : Nat) :
    (jumpLabels i next block).length = jumpCost next block := by
  unfold jumpLabels jumpCost
  split <;> rfl

/-- The code of blocks is no longer if it is so for each of them. -/
theorem BlockGraph.length_labels_le {g g' : BlockGraph} (layout : List Nat)
    (h : ∀ i next, ((g'.block i).labels i next).length ≤ ((g.block i).labels i next).length) :
    (g'.labels layout).length ≤ (g.labels layout).length := by
  induction layout with
  | nil => exact Nat.le_refl _
  | cons i rest ih =>
    simp only [labels, List.length_append]
    exact Nat.add_le_add (h i _) ih

theorem Step.length_labels_mapValue (hf : ∀ e, (f e).codeSize ≤ e.codeSize) (i : Nat)
    (steps : List (Step × Span)) :
    ((steps.map fun s => (s.1.mapValue f, s.2)).flatMap (·.1.labels i)).length ≤
      (steps.flatMap (·.1.labels i)).length := by
  induction steps with
  | nil => exact Nat.le_refl _
  | cons head rest ih =>
    obtain ⟨step, span⟩ := head
    simp only [List.map_cons, List.flatMap_cons, List.length_append]
    refine Nat.add_le_add ?_ ih
    cases step with
    | setLocal slot value | setOutput slot value =>
      simp only [mapValue, labels, List.length_append, Scalar.length_labels]
      exact Nat.succ_le_succ (hf value)
    | call block => exact Nat.le_refl _

theorem Block.length_labels_mapValues (hf : ∀ e, (f e).codeSize ≤ e.codeSize) (i : Nat)
    (next : Option Nat) (b : Block) :
    ((b.mapValues f).labels i next).length ≤ (b.labels i next).length := by
  obtain ⟨steps, exit, span⟩ := b
  simp only [mapValues, labels, List.length_append]
  refine Nat.add_le_add (Step.length_labels_mapValue hf i steps) ?_
  cases exit with
  | branch condition thenBlock elseBlock =>
    simp only [Exit.mapValue, Exit.labels, List.length_append, Scalar.length_labels]
    exact Nat.add_le_add_right (hf condition) _
  | wait seconds block =>
    simp only [Exit.mapValue, Exit.labels, List.length_append, Scalar.length_labels]
    exact Nat.add_le_add_right (hf seconds) _
  | jump _ | ret | halt | pause _ _ => exact Nat.le_refl _

theorem Block.length_labels_settle (i : Nat) (next : Option Nat) (b : Block) :
    (b.settle.labels i next).length ≤ (b.labels i next).length := by
  obtain ⟨steps, exit, span⟩ := b
  simp only [settle, labels, List.length_append]
  refine Nat.add_le_add_left ?_ _
  unfold Exit.settle
  split
  · next x thenBlock elseBlock =>
    simp only [Exit.labels, length_jumpLabels, List.length_append, List.length_cons]
    exact Nat.le_trans (jumpCost_le_one ..) (by omega)
  · exact Nat.le_refl _

/-! ## Jumps -/

/-- Calls have one word wherever they lead. -/
theorem Step.length_labels_retarget (f : Nat → Nat) (i : Nat) (steps : List (Step × Span)) :
    ((steps.map fun s => (s.1.retarget f, s.2)).flatMap (·.1.labels i)).length =
      (steps.flatMap (·.1.labels i)).length := by
  induction steps with
  | nil => rfl
  | cons head rest ih =>
    obtain ⟨step, span⟩ := head
    simp only [List.map_cons, List.flatMap_cons, List.length_append, ih]
    cases step <;> rfl

namespace BlockGraph

variable {g : BlockGraph} {rank : Nat → Nat} {kept : Nat → Bool} {rest : List Nat} {i : Nat}

/-- What is left of a layout when jumps are threaded is no longer than it was, also with a jump to
one of its blocks in front of both, wherever the jump ends up. -/
structure Shrinks (g : BlockGraph) (kept : Nat → Bool) (layout : List Nat) : Prop where
  length_le : (g.threadJumps.labels (layout.filter kept)).length ≤ (g.labels layout).length
  jump_le : ∀ (fuel b : Nat), kept (follow g.blocks fuel b) →
    jumpCost (layout.filter kept).head? (follow g.blocks fuel b) +
        (g.threadJumps.labels (layout.filter kept)).length ≤
      jumpCost layout.head? b + (g.labels layout).length

/-- The exit of a block that keeps its code, in front of the rest of the layout. -/
theorem Shrinks.exit (h : g.Shrinks kept rest) {exit : Exit}
    (htargets : ∀ j ∈ exit.targets, kept (follow g.blocks g.blocks.size j))
    (hbranch : ∀ {condition : Scalar} {t e : Nat}, exit = .branch condition t e →
      rest.head? = some t) :
    let final := follow g.blocks g.blocks.size
    ((exit.retarget final).merge.labels i (rest.filter kept).head?).length +
        (g.threadJumps.labels (rest.filter kept)).length ≤
      (exit.labels i rest.head?).length + (g.labels rest).length := by
  intro final
  have hle := h.length_le
  have hjump {j : Nat} (hj : j ∈ exit.targets) :
      jumpCost (rest.filter kept).head? (final j) +
          (g.threadJumps.labels (rest.filter kept)).length ≤
        jumpCost rest.head? j + (g.labels rest).length :=
    h.jump_le g.blocks.size j (htargets j hj)
  cases exit with
  | jump j =>
    simp only [Exit.retarget, Exit.merge, Exit.labels, length_jumpLabels]
    exact hjump (List.mem_singleton_self j)
  | wait seconds j =>
    simp only [Exit.retarget, Exit.merge, Exit.labels, length_jumpLabels, List.length_append,
      List.length_cons]
    have := hjump (List.mem_singleton_self j)
    omega
  | ret | halt | pause _ _ => exact Nat.add_le_add_left hle _
  | branch c t e =>
    have hhead : rest.head? = some t := hbranch rfl
    have hfirst := hjump (j := t) List.mem_cons_self
    have hnext : jumpCost rest.head? t = 0 := if_pos hhead
    rw [hnext] at hfirst
    have hlength : (Exit.labels i rest.head? (.branch c t e)).length = c.codeSize + 1 := by
      simp only [Exit.labels, List.length_append, List.length_cons, Scalar.length_labels]
      split
      · rfl
      · rw [length_jumpLabels, hnext]
    rw [hlength]
    rcases Exit.merge_branch c (final t) (final e) with ⟨-, -, hmerge⟩ | hmerge
    · rw [Exit.retarget, hmerge, Exit.labels, length_jumpLabels]
      have := jumpCost_le_one (rest.filter kept).head? (final t)
      omega
    · rw [Exit.retarget, hmerge, Exit.labels, List.length_append, List.length_cons,
        Scalar.length_labels]
      split
      · simp only [List.length_nil]
        omega
      · rw [length_jumpLabels]
        omega

/-- A jump to another block than the next costs no less than a jump to where it ends up. -/
theorem jumpCost_le_of_ne {b : Nat} (hb : b ≠ i) (rest : List Nat) (next? : Option Nat)
    (target : Nat) : jumpCost next? target ≤ jumpCost (i :: rest).head? b := by
  have hone : jumpCost (i :: rest).head? b = 1 := if_neg fun h => hb (Option.some.inj h).symm
  rw [hone]
  exact jumpCost_le_one ..

/-- A block that keeps its code gets no longer. -/
theorem Shrinks.length_cons_kept (h : g.Shrinks kept rest) (hkeep : kept i)
    (hrests : g.Rests kept rest (g.block i)) :
    (g.threadJumps.labels ((i :: rest).filter kept)).length ≤ (g.labels (i :: rest)).length := by
  rw [List.filter_cons_of_pos hkeep, labels, labels, block_threadJumps]
  simp only [thread, Block.labels, List.length_append, Step.length_labels_retarget, Nat.add_assoc]
  refine Nat.add_le_add_left (h.exit (fun j hj => ?_) hrests.branch) _
  exact hrests.targets j (Block.mem_targets_of_exit hj)

theorem Shrinks.cons_kept (h : g.Shrinks kept rest) (hkeep : kept i) (hstays : g.Stays i)
    (hrests : g.Rests kept rest (g.block i)) :
    g.Shrinks kept (i :: rest) := by
  have hlength := h.length_cons_kept hkeep hrests
  refine ⟨hlength, fun fuel b _ => Nat.add_le_add ?_ hlength⟩
  by_cases hb : b = i
  · rw [hb, hstays.follow, List.filter_cons_of_pos hkeep]
    exact Nat.le_refl _
  · exact jumpCost_le_of_ne hb ..

/-- A block that loses its code pays for the jump of the block before it. -/
theorem Shrinks.cons_dropped (h : g.Shrinks kept rest) (hdrop : ¬ kept i) :
    g.Shrinks kept (i :: rest) := by
  have hfilter : (i :: rest).filter kept = rest.filter kept := List.filter_cons_of_neg hdrop
  have hlength : (g.threadJumps.labels ((i :: rest).filter kept)).length ≤
      (g.labels (i :: rest)).length := by
    rw [hfilter, labels, List.length_append]
    exact Nat.le_add_left_of_le h.length_le
  refine ⟨hlength, fun fuel b hfinal => ?_⟩
  by_cases hb : b = i
  · subst hb
    cases fuel with
    | zero => exact absurd hfinal hdrop
    | succ fuel =>
      rcases g.follow_succ fuel b with hsame | ⟨j, hpass, hnext⟩
      · rw [hsame] at hfinal
        exact absurd hfinal hdrop
      · rw [hnext] at hfinal ⊢
        have hjump := h.jump_le fuel j hfinal
        have hcost : ((g.block b).labels b rest.head?).length = jumpCost rest.head? j := by
          rw [Block.labels, hpass.1, hpass.2]
          exact length_jumpLabels ..
        rw [hfilter, labels, List.length_append, hcost]
        exact Nat.le_add_left_of_le hjump
  · exact Nat.add_le_add (jumpCost_le_of_ne hb ..) hlength

/-- Threading jumps makes no layout longer. The induction goes from the last block to the first. -/
theorem Onward.shrinks (hg : g.Onward rank) (hkept : g.Keeps kept)
    (hrest : ∃ k, k :: rest <:+ g.layout) : g.Shrinks kept rest := by
  induction rest with
  | nil => exact ⟨Nat.le_refl _, fun _ _ _ => Nat.le_refl _⟩
  | cons i rest ih =>
    obtain ⟨k, hk⟩ := hrest
    have hi : i :: rest <:+ g.layout := (List.suffix_cons k _).trans hk
    specialize ih ⟨i, hi⟩
    by_cases hkeep : kept i
    · exact ih.cons_kept hkeep (hkept.stays hkeep (hg.ne_entry hk List.mem_cons_self))
        (hkept.rests hg hi hkeep)
    · exact ih.cons_dropped hkeep

/-- Threading jumps and leaving out what cannot be reached makes no code longer. -/
theorem Onward.length_thread (hg : g.Onward rank) :
    (g.threadJumps.dropUnreachable.labels g.threadJumps.dropUnreachable.layout).length ≤
      (g.labels g.layout).length := by
  obtain ⟨kept, hentry, hkept, hlayout⟩ := hg.keeps
  obtain ⟨rest, hrest⟩ := List.head?_eq_some_iff.1 hg.first
  have hsuffix : entry :: rest <:+ g.layout := hrest ▸ List.suffix_refl _
  have hsame : ∀ layout, g.threadJumps.dropUnreachable.labels layout =
      g.threadJumps.labels layout := by
    intro layout
    induction layout with
    | nil => rfl
    | cons i rest ih =>
      rw [labels, labels, ih]
      rfl
  rw [hlayout, hsame, hrest]
  exact (hg.shrinks hkept ⟨entry, hsuffix⟩).length_cons_kept hentry
    (hkept.rests hg hsuffix hentry)

theorem length_fold (g : BlockGraph) :
    (g.fold.labels g.fold.layout).length ≤ (g.labels g.layout).length := by
  refine length_labels_le g.layout fun i next => ?_
  rw [g.block_fold]
  exact Block.length_labels_mapValues Scalar.codeSize_fold i next _

theorem length_settleBranches (g : BlockGraph) :
    (g.settleBranches.labels g.settleBranches.layout).length ≤ (g.labels g.layout).length := by
  refine length_labels_le g.layout fun i next => ?_
  rw [g.block_settleBranches]
  exact Block.length_labels_settle i next _

/-- The passes of the second level make no code longer. -/
theorem Onward.length_simplify (hg : g.Onward rank) :
    (g.simplify.labels g.simplify.layout).length ≤ (g.labels g.layout).length :=
  calc (g.simplify.labels g.simplify.layout).length
      ≤ (g.fold.settleBranches.labels g.fold.settleBranches.layout).length :=
        hg.fold.settleBranches.length_thread
    _ ≤ (g.fold.labels g.fold.layout).length := length_settleBranches _
    _ ≤ (g.labels g.layout).length := length_fold g

end BlockGraph

end Behavior
