import Behavior.Proofs.BlockOrder

/-!
Blocks lead on. A document is laid out in the order in which it is written, so a block jumps to one
that comes after it, except where a loop goes back to its header and where a flow leaves for another
one. The header asks whether the loop runs again, which no pass settles, and flows lead only to
flows of lower rank. So a chain of jumps comes to an end. The first block of a branch comes right
after the branch.
-/

namespace Behavior

/-- The blocks of a graph are in order and lead on, to blocks of lower rank if not to later ones.
The layout starts with the entry. -/
structure BlockGraph.Onward (g : BlockGraph) (rank : Nat → Nat) : Prop extends g.Ordered rank where
  nodup : g.layout.Nodup
  first : g.layout.head? = some BlockGraph.entry
  onward : ∀ {i : Nat} {ahead : List Nat}, i :: ahead <:+ g.layout →
    (g.block i).exit.Onward (fun j => (g.block j).Counts) (fun j => rank j < rank i) ahead

/-- The blocks of a checked document lead on. -/
theorem Typed.Checked.onward {registry : Registry} {d : Document} {p : Program} {names : Names}
    {graph : FlowGraph} (h : Checked registry d p names graph) :
    ∃ rank, p.toBlocks.Onward rank := by
  obtain ⟨-, flow, k, hflow, hbuilds⟩ := h.builds
  have hlower {k j : Nat} {passage : Passage} :
      p.Passes k (j, passage) → graph.rank j < graph.rank k := by
    rintro ⟨_, t, ht, hx⟩
    obtain ⟨name, hname⟩ := h.flows.named (List.mem_of_getElem? ht) _ hx
    have hlt := h.rank_lt ht hx hname
    exact hlt
  let t := Lower.after (Lower.lowerFlows 0 p.flows) (Lower.State.start p)
  have hlayout : p.toBlocks.layout = t.layout.reverse := rfl
  have hnodup : t.layout.Nodup := hbuilds.blocks.nodup_iff.2 List.nodup_range
  have hfirst : t.layout.getLast? = some BlockGraph.entry := hbuilds.first
  refine ⟨graph.rank ∘ flow, hbuilds.ordered h.nonempty hflow (fun _ _ => hlower)
    fun _ _ hpasses => Nat.le_of_lt (hlower hpasses), ?_, ?_, ?_⟩
  · rwa [hlayout, List.nodup_reverse]
  · rwa [hlayout, List.head?_reverse]
  · intro i ahead hsuffix
    rw [hlayout, ← List.append_nil (List.reverse _)] at hsuffix
    rcases (hbuilds.onward [] (List.Subset.refl _)).of_suffix hsuffix with hnil | honward
    · exact absurd (List.suffix_nil.1 hnil) nofun
    · refine honward.mono (fun j hj => hj.2) fun j hj => ?_
      show graph.rank (flow j) < graph.rank (flow i)
      rw [hflow j hj.1]
      exact hlower hj

/-! ## Constants that are known -/

namespace BlockGraph

variable {g : BlockGraph} {rank : Nat → Nat} {i j : Nat}

/-- Changing blocks one by one keeps them leading on if no exit leads elsewhere. -/
theorem Onward.mapBlocks {f : Block → Block} (h : g.Onward rank) (hempty : f {} = {})
    (hleads : ∀ {calls exits : Nat → Prop} {b : Block}, b.Leads calls exits →
      (f b).Leads calls exits)
    (hcounts : ∀ {b : Block}, b.Counts → (f b).Counts)
    (honward : ∀ {counts away : Nat → Prop} {ahead : List Nat} {b : Block},
      b.exit.Onward counts away ahead → (f b).exit.Onward counts away ahead) :
    (g.mapBlocks f).Onward rank := by
  refine ⟨h.toOrdered.mapBlocks hempty hleads, h.nodup, h.first, fun {i ahead} hsuffix => ?_⟩
  rw [g.block_mapBlocks hempty]
  refine honward ((h.onward hsuffix).mono (fun j hj => ?_) fun _ hj => hj)
  rw [g.block_mapBlocks hempty]
  exact hcounts hj

theorem Onward.fold (h : g.Onward rank) : g.fold.Onward rank := by
  refine h.mapBlocks rfl (fun hb => hb.mapValues _) ?_ ?_
  · rintro b ⟨counter, i, j, hexit⟩
    refine ⟨counter, i, j, ?_⟩
    show b.exit.mapValue Scalar.fold = _
    rw [hexit]
    rfl
  · intro counts away ahead b hb
    show (b.exit.mapValue Scalar.fold).Onward counts away ahead
    cases hexit : b.exit <;> rw [hexit] at hb <;> exact hb

theorem Onward.settleBranches (h : g.Onward rank) : g.settleBranches.Onward rank := by
  refine h.mapBlocks (f := Block.settle) rfl (fun hb => hb.settle) ?_ ?_
  · rintro b ⟨counter, i, j, hexit⟩
    refine ⟨counter, i, j, ?_⟩
    show b.exit.settle = _
    rw [hexit]
    rfl
  · intro counts away ahead b hb
    show b.exit.settle.Onward counts away ahead
    unfold Exit.settle
    split
    · next x thenBlock elseBlock hexit =>
      rw [hexit] at hb
      obtain ⟨hthen, helse⟩ := hb
      refine .inl ?_
      split
      · exact List.mem_of_mem_head? hthen
      · exact List.mem_of_mem_tail helse
    · exact hb

/-! ## Chains of jumps -/

theorem follow_of_passes (h : g.Passes i j) (hi : i < g.blocks.size) (hne : j ≠ i) (fuel : Nat) :
    follow g.blocks (fuel + 1) i = follow g.blocks fuel j := by
  obtain ⟨hsteps, hexit⟩ := h
  have hblock : g.blocks[i]? = some ⟨[], .jump j, (g.block i).exitSpan⟩ := by
    rw [block, Array.getD_eq_getD_getElem?, Array.getElem?_eq_getElem hi] at *
    rw [← hsteps, ← hexit]
    rfl
  rw [follow, hblock]
  exact if_neg hne

/-- A block that does more than jump. -/
def Stays (g : BlockGraph) (i : Nat) : Prop :=
  ∀ j, ¬ g.Passes i j

theorem Stays.follow (h : g.Stays i) (fuel : Nat) : follow g.blocks fuel i = i := by
  cases fuel with
  | zero => rfl
  | succ fuel =>
    rcases g.follow_succ fuel i with hsame | ⟨j, hpass, -⟩
    · exact hsame
    · exact absurd hpass (h j)

theorem stays_of_counts (h : (g.block i).Counts) : g.Stays i := by
  rintro j ⟨-, hjump⟩
  obtain ⟨counter, thenBlock, elseBlock, hbranch⟩ := h
  rw [hbranch] at hjump
  cases hjump

/-- Of lower rank, or later in the layout. -/
def Below (g : BlockGraph) (rank : Nat → Nat) (j i : Nat) : Prop :=
  rank j < rank i ∨ rank j = rank i ∧ g.layout.idxOf i < g.layout.idxOf j

/-- Blocks that only jump lead below, unless they lead back to the header of a loop. -/
theorem Onward.below_of_passes (h : g.Onward rank) (hi : i ∈ g.layout) (hpass : g.Passes i j) :
    (g.block j).Counts ∨ g.Below rank j i := by
  obtain ⟨before, ahead, hlayout⟩ := List.append_of_mem hi
  have honward := h.onward ⟨before, hlayout.symm⟩
  rw [hpass.2] at honward
  rcases honward with hmem | hcounts | hlower
  · -- what is ahead comes later, since nothing is repeated
    have hnodup := h.nodup
    rw [hlayout, List.nodup_append] at hnodup
    obtain ⟨-, hcons, hapart⟩ := hnodup
    have hi' : i ∉ before := fun hmem => hapart i hmem i List.mem_cons_self rfl
    have hj' : j ∉ before := fun hbefore =>
      hapart j hbefore j (List.mem_cons_of_mem _ hmem) rfl
    have hne : i ≠ j := fun heq => (List.nodup_cons.1 hcons).1 (heq ▸ hmem)
    have hlater : g.layout.idxOf i < g.layout.idxOf j := by
      rw [hlayout, List.idxOf_append_of_notMem hi', List.idxOf_append_of_notMem hj',
        List.idxOf_cons_self, List.idxOf_cons_ne _ hne]
      omega
    have hle := (h.of_passes hi hpass).2
    exact .inr ((Nat.lt_or_eq_of_le hle).imp_right fun heq => ⟨heq, hlater⟩)
  · exact .inl hcounts
  · exact .inr (.inl hlower)

instance (g : BlockGraph) (rank : Nat → Nat) (j i : Nat) : Decidable (g.Below rank j i) :=
  inferInstanceAs (Decidable (_ ∨ _))

/-- How many blocks with code are below a block. -/
def below (g : BlockGraph) (rank : Nat → Nat) (i : Nat) : Nat :=
  (g.layout.toFinset.filter fun j => g.Below rank j i).card

theorem below_lt_below (hj : j ∈ g.layout) (h : g.Below rank j i) :
    g.below rank j < g.below rank i := by
  refine Finset.card_lt_card (Finset.ssubset_iff_of_subset ?_ |>.2 ⟨j, ?_, ?_⟩)
  · intro k hk
    obtain ⟨hmem, hbelow⟩ := Finset.mem_filter.1 hk
    refine Finset.mem_filter.2 ⟨hmem, ?_⟩
    unfold Below at *
    omega
  · exact Finset.mem_filter.2 ⟨List.mem_toFinset.2 hj, h⟩
  · intro hself
    have hirrefl := (Finset.mem_filter.1 hself).2
    unfold Below at hirrefl
    omega

theorem Onward.below_lt_size (h : g.Onward rank) (hi : i ∈ g.layout) :
    g.below rank i < g.blocks.size := by
  have hinside : g.layout.toFinset ⊆ Finset.range g.blocks.size := fun j hj =>
    Finset.mem_range.2 (h.inside j (List.mem_toFinset.1 hj))
  calc g.below rank i < g.layout.toFinset.card := by
        refine Finset.card_lt_card (Finset.filter_ssubset.2 ⟨i, List.mem_toFinset.2 hi, ?_⟩)
        unfold Below
        omega
    _ ≤ (Finset.range g.blocks.size).card := Finset.card_le_card hinside
    _ = g.blocks.size := Finset.card_range _

/-- Following jumps ends at a block that does more than jump. -/
theorem Onward.follow_stays (h : g.Onward rank) (hi : i ∈ g.layout) :
    g.Stays (follow g.blocks g.blocks.size i) := by
  suffices hfuel : ∀ fuel i, i ∈ g.layout → g.below rank i < fuel →
      g.Stays (follow g.blocks fuel i) from hfuel _ i hi (h.below_lt_size hi)
  intro fuel
  induction fuel with
  | zero => exact fun i _ hlt => absurd hlt (Nat.not_lt_zero _)
  | succ fuel ih =>
    intro i hi hlt
    by_cases hstays : g.Stays i
    · rw [hstays.follow]
      exact hstays
    · obtain ⟨j, hpass⟩ := not_forall_not.1 hstays
      have hj := (h.of_passes hi hpass).1
      have hne : j ≠ i := by
        rintro rfl
        rcases h.below_of_passes hi hpass with hcounts | hbelow
        · exact stays_of_counts hcounts _ hpass
        · unfold Below at hbelow
          omega
      rw [follow_of_passes hpass (h.inside i hi) hne]
      rcases h.below_of_passes hi hpass with hcounts | hbelow
      · have hstays := stays_of_counts hcounts
        rw [hstays.follow]
        exact hstays
      · exact ih j hj (by have := below_lt_below hj hbelow; omega)

end BlockGraph

end Behavior
