import Behavior.Proofs.Compiled
import Behavior.Proofs.Construction
import Behavior.Proofs.Faithful

/-!
Blocks in order. Whatever the blocks with code lead to has code as well, and blocks have ranks: no
block leads to one of a higher rank, and calls go to lower ones. The rank of a block is the call
depth of the flow it belongs to.
-/

namespace Behavior

variable {e : Exit} {t : Nat}

/-! ## What a block leads to -/

theorem Exit.mem_targets_of_settle (h : t ∈ e.settle.targets) :
    t ∈ e.targets := by
  unfold Exit.settle at h
  split at h
  · next x thenBlock elseBlock =>
    cases List.mem_singleton.1 h
    split
    · exact List.mem_cons_self
    · exact List.mem_cons_of_mem _ (List.mem_singleton_self _)
  · exact h

theorem Exit.mem_targets_of_merge (h : t ∈ e.merge.targets) :
    t ∈ e.targets := by
  unfold Exit.merge at h
  split at h
  · split at h
    · cases List.mem_singleton.1 h
      exact List.mem_cons_self
    · exact h
  · exact h

theorem Exit.mem_targets_merge (h : t ∈ e.targets) :
    t ∈ e.merge.targets := by
  cases e with
  | branch condition thenBlock elseBlock =>
    rw [Exit.merge]
    split
    · next hmerge =>
      rcases List.mem_cons.1 h with rfl | h
      · exact List.mem_singleton_self _
      · rw [List.mem_singleton.1 h, ← hmerge.1]
        exact List.mem_singleton_self _
    · exact h
  | _ => exact h

theorem Exit.mem_targets_retarget (h : t ∈ e.targets) (f : Nat → Nat) :
    f t ∈ (e.retarget f).targets := by
  cases e <;> exact List.mem_map_of_mem h

theorem Exit.mem_targets_of_retarget {f : Nat → Nat} (h : t ∈ (e.retarget f).targets) :
    ∃ t' ∈ e.targets, t = f t' := by
  cases e with
  | jump block => exact ⟨block, List.mem_singleton_self _, List.mem_singleton.1 h⟩
  | branch condition thenBlock elseBlock =>
    rcases List.mem_cons.1 h with rfl | h
    · exact ⟨thenBlock, List.mem_cons_self, rfl⟩
    · exact ⟨elseBlock, List.mem_cons_of_mem _ (List.mem_singleton_self _), List.mem_singleton.1 h⟩
  | ret | halt => cases h
  | wait seconds next => exact ⟨next, List.mem_singleton_self _, List.mem_singleton.1 h⟩
  | pause point defaultBlock =>
    exact ⟨defaultBlock, List.mem_singleton_self _, List.mem_singleton.1 h⟩

namespace Block.Leads

variable {calls exits : Nat → Prop} {b : Block}

theorem mapValues (h : b.Leads calls exits) (f : Scalar → Scalar) :
    (b.mapValues f).Leads calls exits := by
  constructor
  · intro st hst c hc
    obtain ⟨⟨s, span⟩, hmem, rfl⟩ := List.mem_map.1 hst
    cases s with
    | call block => exact h.steps _ hmem c hc
    | setLocal slot value | setOutput slot value => cases hc
  · intro t ht
    refine h.exit t ?_
    change t ∈ (b.exit.mapValue f).targets at ht
    cases hexit : b.exit <;> rw [hexit] at ht <;> exact ht

theorem settle (h : b.Leads calls exits) :
    b.settle.Leads calls exits :=
  ⟨h.steps, fun t ht => h.exit t (Exit.mem_targets_of_settle ht)⟩

theorem shareValue (h : b.Leads calls exits) (slot : Nat) (value : Scalar) :
    (b.shareValue slot value).Leads calls exits := by
  have hrest := h.mapValues (Scalar.replace value slot)
  refine ⟨?_, hrest.exit⟩
  intro st hst c hc
  rcases List.mem_cons.1 hst with rfl | hst
  · cases hc
  · exact hrest.steps st hst c hc

theorem shareWithin (h : b.Leads calls exits) (fuel slot : Nat) :
    (b.shareWithin fuel slot).2.Leads calls exits := by
  induction fuel generalizing b slot with
  | zero => exact h
  | succ fuel ih =>
    rw [Block.shareWithin]
    split
    · exact ih (h.shareValue ..) _
    · exact h

end Block.Leads

/-! ## Order -/

namespace BlockGraph

variable {g : BlockGraph} {rank : Nat → Nat} {i j : Nat}

/-- Blocks with code lead only to such blocks, to none of a higher rank, and call ones of lower
ranks. -/
structure Ordered (g : BlockGraph) (rank : Nat → Nat) : Prop where
  entry : BlockGraph.entry ∈ g.layout
  inside : ∀ i ∈ g.layout, i < g.blocks.size
  leads : ∀ i ∈ g.layout, (g.block i).Leads (fun c => c ∈ g.layout ∧ rank c < rank i)
    (fun t => t ∈ g.layout ∧ rank t ≤ rank i)

theorem lt_size_of_mapBlocks {f : Block → Block} (h : g.Ordered rank) :
    ∀ i ∈ (g.mapBlocks f).layout, i < (g.mapBlocks f).blocks.size := by
  intro i hi
  rw [mapBlocks, Array.size_map]
  exact h.inside i hi

/-- Changing blocks one by one keeps the order if no block gets other targets. -/
theorem Ordered.mapBlocks {f : Block → Block} (h : g.Ordered rank) (hempty : f {} = {})
    (hf : ∀ {calls exits : Nat → Prop} {b : Block}, b.Leads calls exits → (f b).Leads calls exits) :
    (g.mapBlocks f).Ordered rank := by
  refine ⟨h.entry, lt_size_of_mapBlocks h, ?_⟩
  intro i hi
  rw [g.block_mapBlocks hempty]
  exact hf (h.leads i hi)

theorem Ordered.of_passes (h : g.Ordered rank) (hi : i ∈ g.layout) (hpass : g.Passes i j) :
    j ∈ g.layout ∧ rank j ≤ rank i := by
  refine (h.leads i hi).exit j ?_
  rw [hpass.2]
  exact List.mem_singleton_self j

/-- Following jumps stays among the blocks with code and does not go up. -/
theorem Ordered.follow (h : g.Ordered rank) (fuel : Nat) {target : Nat} (ht : target ∈ g.layout) :
    follow g.blocks fuel target ∈ g.layout ∧
      rank (BlockGraph.follow g.blocks fuel target) ≤ rank target := by
  induction fuel generalizing target with
  | zero => exact ⟨ht, Nat.le_refl _⟩
  | succ fuel ih =>
    rcases g.follow_succ fuel target with hstays | ⟨next, hpass, hnext⟩
    · rw [hstays]
      exact ⟨ht, Nat.le_refl _⟩
    · obtain ⟨hmem, hle⟩ := h.of_passes ht hpass
      obtain ⟨hmem', hle'⟩ := ih hmem
      rw [hnext]
      exact ⟨hmem', Nat.le_trans hle' hle⟩

theorem Ordered.threadJumps (h : g.Ordered rank) : g.threadJumps.Ordered rank := by
  refine ⟨h.entry, lt_size_of_mapBlocks h, ?_⟩
  intro i hi
  rw [g.block_threadJumps]
  have hleads := h.leads i hi
  constructor
  · intro st hst c hc
    obtain ⟨⟨s, span⟩, hmem, rfl⟩ := List.mem_map.1 hst
    cases s with
    | call block =>
      cases hc
      obtain ⟨hblock, hlt⟩ := hleads.steps _ hmem block rfl
      obtain ⟨hfinal, hle⟩ := h.follow g.blocks.size hblock
      exact ⟨hfinal, Nat.lt_of_le_of_lt hle hlt⟩
    | setLocal slot value | setOutput slot value => cases hc
  · intro t ht
    obtain ⟨t', ht', rfl⟩ := Exit.mem_targets_of_retarget (Exit.mem_targets_of_merge ht)
    obtain ⟨hblock, hle⟩ := hleads.exit t' ht'
    obtain ⟨hfinal, hle'⟩ := h.follow g.blocks.size hblock
    exact ⟨hfinal, Nat.le_trans hle' hle⟩

theorem layout_dropUnreachable (g : BlockGraph) :
    g.dropUnreachable.layout = g.layout.filter fun block =>
      (Reachability.reachable g.blocks.size (fun i => (g.block i).targets)
        [BlockGraph.entry]).getD block false := by
  let kept (next : Nat → List Nat) : List Nat := g.layout.filter fun block =>
    (Reachability.reachable g.blocks.size next [BlockGraph.entry]).getD block false
  refine congrArg kept (funext fun i => ?_)
  rw [block, Array.getD_eq_getD_getElem?]
  cases g.blocks[i]? <;> rfl

/-- A way goes on from where it leads. -/
theorem Leads.snoc {k : Nat} (h : g.Leads i j) (hk : k ∈ (g.block j).targets) :
    g.Leads i k := by
  induction h with
  | refl i => exact .step hk (.refl k)
  | step hmem _ ih => exact .step hmem (ih hk)

theorem Ordered.mem_of_target (h : g.Ordered rank) (hi : i ∈ g.layout)
    (hj : j ∈ (g.block i).targets) : j ∈ g.layout := by
  rcases List.mem_append.1 hj with hj | hj
  · obtain ⟨st, hst, hc⟩ := List.mem_filterMap.1 hj
    exact ((h.leads i hi).steps st hst j hc).1
  · exact ((h.leads i hi).exit j hj).1

/-- The blocks that keep their code are those that can be reached. -/
theorem Ordered.mem_dropUnreachable (h : g.Ordered rank) :
    i ∈ g.dropUnreachable.layout ↔ g.Leads BlockGraph.entry i := by
  let next (i : Nat) : List Nat := (g.block i).targets
  let reached := Reachability.reachable g.blocks.size next [BlockGraph.entry]
  have hmem : i ∈ g.dropUnreachable.layout ↔ i ∈ g.layout ∧ Reachability.Marked reached i := by
    rw [layout_dropUnreachable, List.mem_filter, Reachability.Marked, Array.getD_eq_getD_getElem?]
    show i ∈ g.layout ∧ reached[i]?.getD false = true ↔ _
    cases reached[i]? <;> simp
  rw [hmem, Reachability.marked_reachable]
  clear hmem
  constructor
  · rintro ⟨-, s, ⟨hs, -⟩, hway⟩
    cases List.mem_singleton.1 hs
    induction hway with
    | refl => exact .refl _
    | tail _ hk ih => exact ih.snoc hk.1
  · -- along a way everything is in the layout
    have hway {j : Nat} (hj : g.Leads j i) (hlayout : j ∈ g.layout) : i ∈ g.layout ∧
        Relation.ReflTransGen (Reachability.Within g.blocks.size next) j i := by
      induction hj with
      | refl j => exact ⟨hlayout, .refl⟩
      | step hk _ ih =>
        have hlayout' := h.mem_of_target hlayout hk
        exact (ih hlayout').imp_right (.head ⟨hk, h.inside _ hlayout'⟩)
    exact fun hleads => (hway hleads h.entry).imp_right fun hi =>
      ⟨_, ⟨List.mem_singleton_self _, h.inside _ h.entry⟩, hi⟩

/-- There is also an order in which nothing that cannot be reached comes before the entry. -/
theorem Ordered.reaching (h : g.Ordered rank) : ∃ rank' : Nat → Nat, g.Ordered rank' ∧
    rank' BlockGraph.entry = rank BlockGraph.entry ∧
    ∀ i, rank' i ≤ rank BlockGraph.entry → g.Leads BlockGraph.entry i := by
  classical
  let rank' (i : Nat) : Nat :=
    if g.Leads BlockGraph.entry i then rank i else rank BlockGraph.entry + 1 + rank i
  have hreached {i : Nat} (hi : g.Leads BlockGraph.entry i) : rank' i = rank i := if_pos hi
  have hmissed {i : Nat} (hi : ¬ g.Leads BlockGraph.entry i) :
      rank' i = rank BlockGraph.entry + 1 + rank i := if_neg hi
  have hle (i : Nat) : rank' i ≤ rank BlockGraph.entry + 1 + rank i := by
    by_cases hi : g.Leads BlockGraph.entry i
    · rw [hreached hi]
      exact Nat.le_add_left ..
    · exact Nat.le_of_eq (hmissed hi)
  refine ⟨rank', ⟨h.entry, h.inside, fun i hi => ?_⟩, hreached (.refl _), fun i hi => ?_⟩
  · by_cases hleads : g.Leads BlockGraph.entry i
    · refine ⟨fun st hst c hc => ?_, fun t ht => ?_⟩
      · obtain ⟨hmem, hlt⟩ := (h.leads i hi).steps st hst c hc
        have hc := hleads.snoc (List.mem_append_left _ (List.mem_filterMap.2 ⟨st, hst, hc⟩))
        rw [hreached hleads, hreached hc]
        exact ⟨hmem, hlt⟩
      · obtain ⟨hmem, hle⟩ := (h.leads i hi).exit t ht
        rw [hreached hleads, hreached (hleads.snoc (Block.mem_targets_of_exit ht))]
        exact ⟨hmem, hle⟩
    · rw [hmissed hleads]
      refine (h.leads i hi).mono (fun c hc => ⟨hc.1, ?_⟩) fun t ht => ⟨ht.1, ?_⟩
      · exact Nat.lt_of_le_of_lt (hle c) (Nat.add_lt_add_left hc.2 _)
      · exact Nat.le_trans (hle t) (Nat.add_le_add_left ht.2 _)
  · by_contra hleads
    rw [hmissed hleads] at hi
    omega

/-- What reachable blocks lead to is reachable, so it keeps its code. -/
theorem Ordered.dropUnreachable (h : g.Ordered rank) : g.dropUnreachable.Ordered rank := by
  have hsub {i : Nat} (hi : i ∈ g.dropUnreachable.layout) : i ∈ g.layout := by
    rw [layout_dropUnreachable] at hi
    exact (List.mem_filter.1 hi).1
  have hstays {i t : Nat} (hi : i ∈ g.dropUnreachable.layout) (ht : t ∈ (g.block i).targets) :
      t ∈ g.dropUnreachable.layout :=
    h.mem_dropUnreachable.2 ((h.mem_dropUnreachable.1 hi).snoc ht)
  refine ⟨h.mem_dropUnreachable.2 (.refl _), fun i hi => h.inside i (hsub hi), fun i hi => ?_⟩
  have hleads := h.leads i (hsub hi)
  constructor
  · intro st hst c hc
    refine ⟨hstays hi (List.mem_append_left _ ?_), (hleads.steps st hst c hc).2⟩
    exact List.mem_filterMap.2 ⟨st, hst, hc⟩
  · intro t ht
    exact ⟨hstays hi (Block.mem_targets_of_exit ht), (hleads.exit t ht).2⟩

theorem Ordered.withBlock (h : g.Ordered rank) (k : Nat) (b : Nat × Block)
    (hb : ∀ {calls exits : Nat → Prop}, (g.block k).Leads calls exits → b.2.Leads calls exits) :
    (g.withBlock k b).Ordered rank := by
  refine ⟨h.entry, ?_, ?_⟩
  · intro i hi
    rw [BlockGraph.withBlock, Array.size_setIfInBounds]
    exact h.inside i hi
  · intro i hi
    have hleads := h.leads i hi
    rw [block, BlockGraph.withBlock, Array.getD_eq_getD_getElem?, Array.getElem?_setIfInBounds]
    split
    · next hk =>
      subst hk
      rw [if_pos (h.inside k hi)]
      exact hb hleads
    · rw [← Array.getD_eq_getD_getElem?]
      exact hleads

theorem Ordered.share (h : g.Ordered rank) : g.share.Ordered rank := by
  have hfold : ∀ (layout : List Nat) (g : BlockGraph), g.Ordered rank →
      (layout.foldl (fun g k => g.withBlock k ((g.block k).share g.localCount)) g).Ordered
        rank := by
    intro layout
    induction layout with
    | nil => exact fun g hg => hg
    | cons k rest ih =>
      exact fun g hg => ih _ (hg.withBlock k _ fun hleads => hleads.shareWithin _ _)
  exact hfold g.layout g h

theorem Ordered.fold (h : g.Ordered rank) : g.fold.Ordered rank :=
  h.mapBlocks rfl fun hb => hb.mapValues _

theorem Ordered.simplify (h : g.Ordered rank) : g.simplify.Ordered rank :=
  (h.fold.mapBlocks (f := Block.settle) rfl fun hb => hb.settle).threadJumps.dropUnreachable

/-- Improving a graph leaves its blocks in order. -/
theorem Ordered.optimize (h : g.Ordered rank) (level : UInt8) :
    (g.optimize level).Ordered rank := by
  rcases optimize_cases level g with heq | heq | heq | ⟨-, heq⟩
  · rw [heq]
    exact h
  · rw [heq]
    exact h.fold
  · rw [heq]
    exact h.simplify
  · rw [heq]
    exact h.simplify.share

end BlockGraph

/-! ## Documents -/

namespace Typed

variable {registry : Registry} {d : Document} {p : Program} {names : Names} {graph : FlowGraph}
  {T : Tables}

mutual

theorem StmtElaborates.named {outer : List Scope} {p p' : Place} {stmt : Behavior.Stmt} {t : Stmt}
    (h : StmtElaborates names T outer p stmt t p') :
    ∀ x ∈ t.passages, ∃ name, names.flows.lookup name = some x.1 := by
  cases h with
  | branch hcondition hthen helse => exact List.forall_mem_append.2 ⟨hthen.named, helse.named⟩
  | loop hcount hfits hbody => exact hbody.named
  | call hflow | goto hflow | continuation htimeout hpoint hflow =>
    exact List.forall_mem_singleton.2 ⟨_, hflow⟩
  | _ => exact fun _ hx => absurd hx List.not_mem_nil

theorem StmtsElaborate.named {outer : List Scope} {p p' : Place} {stmts : List Behavior.Stmt}
    {ts : List Stmt} (h : StmtsElaborate names T outer p stmts ts p') :
    ∀ x ∈ Stmt.allPassages ts, ∃ name, names.flows.lookup name = some x.1 := by
  cases h with
  | nil => exact fun _ hx => absurd hx List.not_mem_nil
  | cons hhead htail => exact List.forall_mem_append.2 ⟨hhead.named, htail.named⟩

end

theorem FlowsElaborate.named {m k : Nat} {flows : List Behavior.Flow} {ts : List Flow}
    (h : FlowsElaborate names T m flows ts k) {t : Flow} (ht : t ∈ ts) :
    ∀ x ∈ Stmt.allPassages t.body, ∃ name, names.flows.lookup name = some x.1 := by
  induction h with
  | nil => cases ht
  | cons hhead htail ih =>
    rcases List.mem_cons.1 ht with rfl | ht
    · exact hhead.named
    · exact ih ht

theorem Checked.passes (h : Checked registry d p names graph) {k : Nat} {t : Flow}
    (ht : p.flows[k]? = some t) {x : Nat × Passage} (hx : x ∈ Stmt.allPassages t.body) :
    p.Passes k x := by
  obtain ⟨name, hname⟩ := h.flows.named (List.mem_of_getElem? ht) x hx
  rw [h.numbers] at hname
  obtain ⟨j, _, hj, hflow, -⟩ := find?_of_lookup hname
  refine ⟨?_, t, ht, hx⟩
  rw [h.flows.length_eq, hj, Nat.zero_add]
  exact (List.getElem?_eq_some_iff.1 hflow).1

/-- Lowering a checked document. -/
theorem Checked.builds (h : Checked registry d p names graph) :
    let t := Lower.after (Lower.lowerFlows 0 p.flows) (Lower.State.start p)
    t.steps = [] ∧ ∃ flow k, (∀ i < p.flows.length, flow i = i) ∧
      Lower.Builds p flow k [] [] [] [] t.layout p.storedLocals t := by
  refine Lower.builds_toBlocks h.nonempty fun f hf x hx => ?_
  obtain ⟨k, hk⟩ := List.getElem?_of_mem hf
  exact (h.passes hk hx).1

end Typed

theorem Lower.Builds.ordered {p : Typed.Program} {flow rank : Nat → Nat} {k : Nat}
    (h : let t := after (lowerFlows 0 p.flows) (State.start p)
      Builds p flow k [] [] [] [] t.layout p.storedLocals t)
    (hne : p.flows ≠ []) (hflow : ∀ i < p.flows.length, flow i = i)
    (hcalls : ∀ k c, p.Passes k (c, .call) → rank c < rank k)
    (hjumps : ∀ k t, p.Passes k (t, .jump) → rank t ≤ rank k) :
    p.toBlocks.Ordered (rank ∘ flow) := by
  have hmem (i : Nat) : i ∈ p.toBlocks.layout ↔ i < p.toBlocks.blocks.size :=
    List.mem_reverse.trans (h.blocks.mem_iff.trans List.mem_range)
  have hlt {i : Nat} (hi : i < p.flows.length) : i < p.toBlocks.blocks.size :=
    Nat.lt_of_lt_of_le hi h.flows_le
  refine ⟨(hmem 0).2 (hlt (List.length_pos_iff.2 hne)), fun i hi => (hmem i).1 hi, fun i hi => ?_⟩
  refine (h.leads i (List.mem_reverse.1 hi)).mono (fun c hc => ⟨(hmem c).2 (hlt hc.1), ?_⟩)
    fun t ht => ⟨(hmem t).2 ht.1, ?_⟩
  · show rank (flow c) < rank (flow i)
    rw [hflow c hc.1]
    exact hcalls _ c hc
  · show rank (flow t) ≤ rank (flow i)
    rcases ht.2 with heq | hpasses
    · rw [heq]
    · rw [hflow t hpasses.1]
      exact hjumps _ t hpasses

/-- The blocks of a checked document are in order, and the rank of the first one is the call depth
of the document. -/
theorem Typed.Checked.ordered {registry : Registry} {d : Document} {p : Program} {names : Names}
    {graph : FlowGraph} (h : Checked registry d p names graph) :
    ∃ rank : Nat → Nat, rank BlockGraph.entry = p.callDepth ∧ p.toBlocks.Ordered rank := by
  obtain ⟨-, flow, k, hflow, hbuilds⟩ := h.builds
  have hdepth {k : Nat} {x : Nat × Passage} : p.Passes k x →
      graph.depth x.1 + (if x.2 = .call then 1 else 0) ≤ graph.depth k :=
    fun ⟨_, _, ht, hx⟩ => FlowGraph.depth_le_depth h.recursive (h.edges.mem_edges ht hx)
  refine ⟨graph.depth ∘ flow, ?_, hbuilds.ordered h.nonempty hflow (fun _ _ => hdepth)
    fun _ _ => hdepth⟩
  rw [h.callDepth]
  exact congrArg graph.depth (hflow 0 (List.length_pos_iff.2 h.nonempty))

end Behavior
