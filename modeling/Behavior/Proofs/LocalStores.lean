import Behavior.Proofs.BlockOrder

/-!
Every store to a local. Statements store to the locals of the document; lowering adds a store for
each condition that it keeps, and sharing adds one for each value that it shares. These other stores
go to locals of their own, one after another, so nothing is ever stored on top of them.
-/

namespace Behavior

/-! ## Stores of a graph -/

/-- All stores to locals in a graph. A local is there once for each step that stores to it. -/
def BlockGraph.storedLocals (g : BlockGraph) : List Nat :=
  g.blocks.toList.flatMap Block.storedLocals

theorem storedLocals_map {f : Step → Step} (hf : ∀ st, (f st).local? = st.local?)
    (steps : List (Step × Span)) :
    storedLocals (steps.map fun (st, span) => (f st, span)) = storedLocals steps := by
  rw [storedLocals, List.filterMap_map]
  exact List.filterMap_congr fun st _ => hf st.1

theorem Block.storedLocals_mapValues (f : Scalar → Scalar) (b : Block) :
    (b.mapValues f).storedLocals = b.storedLocals := by
  refine storedLocals_map (fun st => ?_) b.steps
  cases st <;> rfl

namespace BlockGraph

variable {g : BlockGraph}

theorem storedLocals_mapBlocks {f : Block → Block} (hf : ∀ b, (f b).storedLocals = b.storedLocals)
    (g : BlockGraph) : (g.mapBlocks f).storedLocals = g.storedLocals := by
  rw [storedLocals, mapBlocks, Array.toList_map, List.flatMap_map]
  exact List.flatMap_congr fun b _ => hf b

theorem storedLocals_fold (g : BlockGraph) : g.fold.storedLocals = g.storedLocals :=
  storedLocals_mapBlocks (Block.storedLocals_mapValues _) g

theorem storedLocals_settleBranches (g : BlockGraph) :
    g.settleBranches.storedLocals = g.storedLocals := by
  unfold settleBranches
  refine storedLocals_mapBlocks (fun b => ?_) g
  rfl

theorem storedLocals_threadJumps (g : BlockGraph) :
    g.threadJumps.storedLocals = g.storedLocals := by
  unfold threadJumps
  refine storedLocals_mapBlocks (fun b => ?_) g
  refine storedLocals_map (fun st => ?_) b.steps
  cases st <;> rfl

/-- The passes of the second level leave all stores where they are. -/
theorem storedLocals_simplify (g : BlockGraph) : g.simplify.storedLocals = g.storedLocals := by
  show g.fold.settleBranches.threadJumps.storedLocals = _
  rw [storedLocals_threadJumps, storedLocals_settleBranches, storedLocals_fold]

/-- Locals have been handed out and stored to, each by one step. -/
structure Stores (g g' : BlockGraph) : Prop where
  localCount_le : g.localCount ≤ g'.localCount
  storedLocals : g'.storedLocals.Perm
    (g.storedLocals ++ List.range' g.localCount (g'.localCount - g.localCount))

theorem Stores.of_eq {g' : BlockGraph} (hlocals : g'.localCount = g.localCount)
    (hstores : g'.storedLocals = g.storedLocals) : Stores g g' := by
  refine ⟨Nat.le_of_eq hlocals.symm, ?_⟩
  rw [hlocals, hstores, Nat.sub_self, List.range'_zero, List.append_nil]

theorem storedLocals_shareAt {k : Nat} {value : Scalar}
    (hnext : (g.block k).nextShared? = some value) :
    (g.shareAt k g.localCount value).storedLocals.Perm (g.storedLocals ++ [g.localCount]) := by
  have hblock := getElem?_toList_blocks (lt_of_nextShared? hnext)
  have hshared : ((g.block k).shareValue g.localCount value).storedLocals =
      [g.localCount] ++ (g.block k).storedLocals :=
    congrArg (g.localCount :: ·) ((g.block k).storedLocals_mapValues _)
  rw [storedLocals, shareAt, Array.toList_setIfInBounds]
  exact perm_flatMap_set _ hblock (.of_eq hshared)

theorem Stores.shareAt {g' : BlockGraph} (h : Stores g g') {k : Nat} {value : Scalar}
    (hnext : (g'.block k).nextShared? = some value) :
    Stores g (g'.shareAt k g'.localCount value) := by
  refine ⟨Nat.le_succ_of_le h.localCount_le, ?_⟩
  have hcount : (g'.shareAt k g'.localCount value).localCount - g.localCount =
      g'.localCount - g.localCount + 1 := Nat.succ_sub h.localCount_le
  rw [hcount, List.range'_1_concat, Nat.add_sub_cancel' h.localCount_le, ← List.append_assoc]
  exact (storedLocals_shareAt hnext).trans (h.storedLocals.append_right _)

/-- The passes of a level store to new locals only, once to each. -/
theorem storedLocals_optimize (level : UInt8) (g : BlockGraph) : Stores g (g.optimize level) := by
  rcases optimize_cases level g with h | h | h | ⟨-, h⟩
  · rw [h]
    exact .of_eq rfl rfl
  · rw [h]
    exact .of_eq rfl g.storedLocals_fold
  · rw [h]
    exact .of_eq rfl g.storedLocals_simplify
  · rw [h]
    exact share_induction (fun hstores hnext => hstores.shareAt hnext)
      (.of_eq rfl g.storedLocals_simplify)

end BlockGraph

/-- The blocks of a document store to the locals that its statements name, and once to each local
that lowering has added. -/
theorem Typed.Checked.storedLocals_toBlocks {registry : Registry} {d : Document} {p : Program}
    {names : Names} {graph : FlowGraph} (h : Checked registry d p names graph) :
    p.localCount ≤ p.toBlocks.localCount ∧ p.toBlocks.storedLocals.Perm
      (p.storedLocals ++ List.range' p.localCount (p.toBlocks.localCount - p.localCount)) := by
  obtain ⟨hsteps, flow, k, -, hbuilds⟩ := h.builds
  refine ⟨hbuilds.localCount_le, ?_⟩
  have hstores := hbuilds.stores
  rw [Lower.State.storedLocals, hsteps] at hstores
  rwa [show storedLocals [] = [] from rfl, List.append_nil] at hstores

end Behavior
