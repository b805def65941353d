import Behavior.Proofs.Instructions
import Behavior.Proofs.Onward

/-!
Simpler graphs take no more instructions. A constant costs less than what it was computed from, and
a jump less than a branch. A walk with threaded jumps skips the blocks that only jump. Such blocks
lose their code, so a jump that went on to the block after it through some of them still costs
nothing.
-/

namespace Behavior

variable {j i k : Nat}

/-! ## Constants -/

theorem Scalar.cost_fold (inputs : Array Float) (locals : Nat → Float) (e : Scalar) (r : Tape) :
    e.fold.cost inputs locals r ≤ e.cost inputs locals r := by
  induction e generalizing r with
  | const x | inputSlot slot | localSlot slot | random => exact Nat.le_refl _
  | unary f a iha =>
    rw [fold]
    split
    · exact cost_pos ..
    · exact Nat.succ_le_succ (iha r)
  | binary f a b iha ihb =>
    rw [fold]
    split
    · exact cost_pos ..
    · simp only [cost, eval_fold]
      exact Nat.succ_le_succ (Nat.add_le_add (iha _) (ihb _))
  | ternary f a b c iha ihb ihc =>
    rw [fold]
    split
    · exact cost_pos ..
    · simp only [cost, eval_fold]
      exact Nat.succ_le_succ (Nat.add_le_add (Nat.add_le_add (iha _) (ihb _)) (ihc _))
  | select c a b ihc iha ihb =>
    rw [fold]
    split
    · next x hc =>
      -- the condition is gone, and so are the jumps
      have hx : c.eval inputs locals r = (x, r) := by rw [← eval_fold, hc]; rfl
      simp only [cost, hx]
      split
      · exact Nat.le_trans (iha r) (by omega)
      · exact Nat.le_trans (ihb r) (by omega)
    · simp only [cost, eval_fold]
      have hc := ihc r
      have ha := iha (c.eval inputs locals r).2
      have hb := ihb (c.eval inputs locals r).2
      split <;> omega

namespace Walk

variable {g : BlockGraph} {inputs : Array Float} {n : Nat} {entered : List Nat} {site : Site}
  {w : Walk}

theorem Spends.fold (h : Spends g inputs n entered site w) :
    ∃ n' ≤ n, Spends g.fold inputs n' entered site (w.map (·.mapValues Scalar.fold)) := by
  have hlayout : g.fold.layout = g.layout := rfl
  refine h.map hlayout (step_mapValues g.block_fold (Scalar.eval_fold _)) ?_ ?_
  · rintro ⟨⟨steps, exit, span⟩, calls, locals, outputs, tape⟩
    cases steps with
    | nil =>
      cases exit with
      | branch c t e =>
        show Turn.enter (if truthy (c.fold.eval inputs locals tape).1 then t else e) = .enter _
        rw [Scalar.eval_fold]
      | _ => rfl
    | cons head rest =>
      obtain ⟨s, stepSpan⟩ := head
      cases s <;> rfl
  · rintro ⟨⟨steps, exit, span⟩, calls, locals, outputs, tape⟩ next
    cases steps with
    | nil =>
      cases exit with
      | branch c t e =>
        show Exit.cost inputs locals tape next (.branch c.fold t e) ≤
          Exit.cost inputs locals tape next (.branch c t e)
        simp only [Exit.cost, Scalar.eval_fold]
        exact Nat.add_le_add_right (Nat.succ_le_succ (c.cost_fold ..)) _
      | wait seconds b => exact Nat.succ_le_succ (seconds.cost_fold ..)
      | _ => exact Nat.le_refl _
    | cons head rest =>
      obtain ⟨s, stepSpan⟩ := head
      cases s with
      | setLocal slot e | setOutput slot e => exact Nat.succ_le_succ (e.cost_fold ..)
      | call b => exact Nat.le_refl _

/-! ## Branches on constants -/

theorem Spends.settleBranches (h : Spends g inputs n entered site w) :
    ∃ n' ≤ n, Spends g.settleBranches inputs n' entered site (w.map Block.settle) := by
  have hlayout : g.settleBranches.layout = g.layout := rfl
  refine h.map hlayout (step_settle g inputs) ?_ ?_
  · rintro ⟨⟨steps, exit, span⟩, calls, locals, outputs, tape⟩
    cases steps with
    | nil =>
      cases exit with
      | branch c t e => cases c <;> rfl
      | _ => rfl
    | cons head rest =>
      obtain ⟨s, stepSpan⟩ := head
      cases s <;> rfl
  · rintro ⟨⟨steps, exit, span⟩, calls, locals, outputs, tape⟩ next
    cases steps with
    | nil =>
      cases exit with
      | branch c t e =>
        cases c with
        | const x => exact Nat.le_trans (jumpCost_le_one ..) (by simp only [cost, Exit.cost]; omega)
        | _ => exact Nat.le_refl _
      | _ => exact Nat.le_refl _
    | cons head rest => exact Nat.le_refl _

end Walk

/-! ## Chains of jumps -/

namespace BlockGraph

variable {g : BlockGraph} {rank : Nat → Nat} {kept : Nat → Bool}

/-- Blocks that may keep their code when jumps are threaded: where their targets end up keeps its
code, and none of them but the entry only jumps. -/
structure Keeps (g : BlockGraph) (kept : Nat → Bool) : Prop where
  stays : ∀ {i : Nat}, kept i → i ≠ entry → g.Stays i
  targets : ∀ {i j : Nat}, i ∈ g.layout → kept i → j ∈ (g.block i).targets →
    kept (follow g.blocks g.blocks.size j)

theorem mem_targets_thread {b : Block} :
    j ∈ (g.thread b).targets ↔ ∃ i ∈ b.targets, j = follow g.blocks g.blocks.size i := by
  constructor
  · intro hj
    rcases List.mem_append.1 hj with hj | hj
    · obtain ⟨st, hst, hc⟩ := List.mem_filterMap.1 hj
      obtain ⟨⟨s, span⟩, hs, rfl⟩ := List.mem_map.1 hst
      cases s with
      | call c =>
        cases hc
        exact ⟨c, Block.mem_targets_of_call hs, rfl⟩
      | setLocal slot value | setOutput slot value => cases hc
    · obtain ⟨i, hi, rfl⟩ := Exit.mem_targets_of_retarget (Exit.mem_targets_of_merge hj)
      exact ⟨i, Block.mem_targets_of_exit hi, rfl⟩
  · rintro ⟨i, hi, rfl⟩
    rcases List.mem_append.1 hi with hi | hi
    · obtain ⟨⟨s, span⟩, hs, hc⟩ := List.mem_filterMap.1 hi
      cases s with
      | call c =>
        cases hc
        exact Block.mem_targets_of_call (List.mem_map.2 ⟨_, hs, rfl⟩)
      | setLocal slot value | setOutput slot value => cases hc
    · exact Block.mem_targets_of_exit (Exit.mem_targets_merge (Exit.mem_targets_retarget hi _))

/-- With threaded jumps, blocks lead to blocks that do more than jump. -/
theorem Onward.stays_of_leads (h : g.Onward rank) {a : Nat} (hleads : g.threadJumps.Leads a i)
    (ha : a ∈ g.layout) : i = a ∨ g.Stays i := by
  induction hleads with
  | refl a => exact .inl rfl
  | @step a j i hj _ ih =>
    rcases ih (h.threadJumps.mem_of_target ha hj) with rfl | hstays
    · rw [g.block_threadJumps] at hj
      obtain ⟨k, hk, rfl⟩ := mem_targets_thread.1 hj
      exact .inr (h.follow_stays (h.mem_of_target ha hk))
    · exact .inr hstays

/-- Blocks that can be reached may keep their code. -/
theorem Onward.keeps (h : g.Onward rank) : ∃ kept : Nat → Bool, kept entry ∧ g.Keeps kept ∧
    g.threadJumps.dropUnreachable.layout = g.layout.filter kept := by
  have hmem {i : Nat} : i ∈ g.threadJumps.dropUnreachable.layout ↔
      g.threadJumps.Leads entry i := h.threadJumps.mem_dropUnreachable
  refine ⟨fun i => decide (i ∈ g.threadJumps.dropUnreachable.layout),
    decide_eq_true (hmem.2 (.refl _)), ⟨?_, ?_⟩, ?_⟩
  · intro i hi hne
    exact (h.stays_of_leads (hmem.1 (of_decide_eq_true hi)) h.entry).resolve_left hne
  · intro i j _ hi hj
    refine decide_eq_true (hmem.2 ((hmem.1 (of_decide_eq_true hi)).snoc ?_))
    rw [g.block_threadJumps]
    exact mem_targets_thread.2 ⟨j, hj, rfl⟩
  · rw [layout_dropUnreachable]
    refine List.filter_congr fun i hi => ?_
    rw [Bool.eq_iff_iff, decide_eq_true_iff, List.mem_filter]
    exact (and_iff_right hi).symm

/-- Nothing but the first block is the entry. -/
theorem Onward.ne_entry (h : g.Onward rank) {b : Nat} {rest : List Nat}
    (hk : k :: rest <:+ g.layout) (hb : b ∈ rest) : b ≠ entry := by
  obtain ⟨before, hlayout⟩ := hk
  have hnodup := h.nodup
  have hfirst := h.first
  rw [← hlayout] at hnodup hfirst
  rintro rfl
  cases before with
  | nil =>
    cases hfirst
    exact (List.nodup_cons.1 hnodup).1 hb
  | cons first before =>
    cases hfirst
    exact (List.nodup_cons.1 hnodup).1 (List.mem_append_right _ (List.mem_cons_of_mem _ hb))

end BlockGraph

/-- Leaving out blocks brings a block that stays no further away. -/
theorem jumpCost_filter {kept : Nat → Bool} {b : Nat} (hb : kept b) (rest : List Nat) :
    jumpCost (rest.filter kept).head? b ≤ jumpCost rest.head? b := by
  cases rest with
  | nil => exact Nat.le_refl _
  | cons next rest =>
    by_cases hnext : next = b
    · subst hnext
      rw [List.filter_cons_of_pos hb]
      exact Nat.le_refl _
    · have hcost : jumpCost (next :: rest).head? b = 1 :=
        if_neg fun h => hnext (Option.some.inj h)
      rw [hcost]
      exact jumpCost_le_one ..

namespace Walk

variable {g : BlockGraph} {rank : Nat → Nat} {kept : Nat → Bool} {inputs : Array Float} {n : Nat}
  {entered : List Nat} {site : Site} {w : Walk}

/-- A step costs an instruction or enters a block. -/
theorem length_lt (inputs : Array Float) (next : Option Nat) (w : Walk) (n : Nat)
    (entered : List Nat) : n + entered.length <
      w.cost inputs next + n + ((w.turn inputs).entered ++ entered).length := by
  have hpos : 0 < w.cost inputs next + (w.turn inputs).entered.length := by
    obtain ⟨⟨steps, exit, span⟩, calls, locals, outputs, tape⟩ := w
    cases steps with
    | nil =>
      cases exit with
      | jump b | branch c t e => exact Nat.succ_pos _
      | ret | halt | wait seconds b | pause point b => exact Nat.add_pos_left (Nat.succ_pos _) _
    | cons head rest =>
      obtain ⟨s, stepSpan⟩ := head
      cases s <;> exact Nat.add_pos_left (Nat.succ_pos _) _
  rw [List.length_append]
  omega

/-- A walk through a block that only jumps. -/
theorem Spends.of_passes (hpass : g.Passes i j)
    (h : Spends g inputs n entered site { w with block := g.block i }) :
    ∃ m rest site', j :: site'.ahead <:+ g.layout ∧ site'.outer = site.outer ∧
      Spends g inputs m rest site' { w with block := g.block j } ∧
      n = jumpCost site.ahead.head? j + m ∧ entered = j :: rest := by
  have hcost : { w with block := g.block i }.cost inputs site.ahead.head? =
      jumpCost site.ahead.head? j := by
    simp only [cost, hpass.1, hpass.2, Exit.cost]
  have hturn : { w with block := g.block i }.turn inputs = .enter j := by
    simp only [turn, hpass.1, hpass.2]
  have hstep : { w with block := g.block i }.step g inputs =
      .next { w with block := g.block j } := hpass.step
  cases h with
  | halt hs | pass hs _ =>
    rw [hstep] at hs
    cases hs
  | step hs hturns h =>
    rw [hstep] at hs
    cases hs
    rw [hturn] at hturns
    rw [hturn, hcost]
    exact ⟨_, _, _, hturns.1, hturns.2, h, rfl, rfl⟩

/-- A walk from the block `final` on takes at most `n` instructions. With a jump to it, it takes at
most as many as with a jump to `b`, wherever the jump is. -/
def Shortens (g : BlockGraph) (kept : Nat → Bool) (inputs : Array Float) (n length : Nat)
    (outer : List (List Nat)) (w : Walk) (b final : Nat) : Prop :=
  ∃ n' ahead entered, n' ≤ n ∧ entered.length ≤ length ∧ final :: ahead <:+ g.layout ∧
    Spends g inputs n' entered ⟨ahead, outer⟩ { w with block := g.block final } ∧
    ∀ {k rest}, k :: rest <:+ g.layout →
      jumpCost (rest.filter kept).head? final + n' ≤ jumpCost rest.head? b + n

/-- A walk that enters a block can go on where jumps to it end up. -/
theorem Spends.follow (hg : g.Onward rank) (hkept : g.Keeps kept) (fuel : Nat) {b : Nat}
    (hb : b :: site.ahead <:+ g.layout) (hfinal : kept (BlockGraph.follow g.blocks fuel b))
    (h : Spends g inputs n entered site { w with block := g.block b }) :
    Shortens g kept inputs n entered.length site.outer w b
      (BlockGraph.follow g.blocks fuel b) := by
  -- nothing changes if the block is not passed
  have hself {n : Nat} {entered : List Nat} {site : Site} {b : Nat}
      (hb : b :: site.ahead <:+ g.layout) (hfinal : kept b)
      (h : Spends g inputs n entered site { w with block := g.block b }) :
      Shortens g kept inputs n entered.length site.outer w b b :=
    ⟨n, site.ahead, entered, Nat.le_refl _, Nat.le_refl _, hb, h,
      fun _ => Nat.add_le_add_right (jumpCost_filter hfinal _) _⟩
  induction fuel generalizing n entered site b with
  | zero => exact hself hb hfinal h
  | succ fuel ih =>
    rcases g.follow_succ fuel b with hstays | ⟨next, hpass, hnext⟩
    · rw [hstays] at hfinal ⊢
      exact hself hb hfinal h
    · rw [hnext] at hfinal ⊢
      obtain ⟨m, after, site', hahead, houter, hafter, rfl, rfl⟩ := h.of_passes hpass
      obtain ⟨n', ahead, entered', hle, hlength, hsuffix, hspends, hcost⟩ :=
        ih hahead hfinal hafter
      refine ⟨n', ahead, entered', Nat.le_add_left_of_le hle, Nat.le_succ_of_le hlength, hsuffix,
        houter ▸ hspends, fun {k rest} hrest => ?_⟩
      by_cases hhead : rest.head? = some b
      · -- the block was next, and loses its code
        obtain ⟨rest, rfl⟩ := List.head?_eq_some_iff.1 hhead
        have hne := hg.ne_entry hrest List.mem_cons_self
        obtain rfl := eq_of_suffix_of_nodup hg.nodup ((List.suffix_cons k _).trans hrest) hb
        have hdropped : ¬ kept b := fun hb => hkept.stays hb hne next hpass
        rw [List.filter_cons_of_neg hdropped]
        exact Nat.le_add_left_of_le (hcost hb)
      · have hone : jumpCost rest.head? b = 1 := if_neg hhead
        have := jumpCost_le_one (rest.filter kept).head? (BlockGraph.follow g.blocks fuel next)
        omega

end Walk

namespace BlockGraph

variable {g : BlockGraph} {rank : Nat → Nat} {kept : Nat → Bool} {ahead : List Nat} {b : Block}

/-- What is left of a block that keeps its code, with others ahead in the layout. -/
structure Rests (g : BlockGraph) (kept : Nat → Bool) (ahead : List Nat) (b : Block) : Prop where
  placed : ∃ k, k :: ahead <:+ g.layout
  targets : ∀ j ∈ b.targets, kept (follow g.blocks g.blocks.size j)
  branch : ∀ {condition : Scalar} {i j : Nat}, b.exit = .branch condition i j →
    ahead.head? = some i

theorem Keeps.rests (hkept : g.Keeps kept) (hg : g.Onward rank) (hi : i :: ahead <:+ g.layout)
    (hk : kept i) : g.Rests kept ahead (g.block i) := by
  have hmem : i ∈ g.layout := hi.subset List.mem_cons_self
  refine ⟨⟨i, hi⟩, fun j hj => hkept.targets hmem hk hj, ?_⟩
  intro condition t e hexit
  have honward := hg.onward hi
  rw [hexit] at honward
  exact honward.1

theorem Rests.tail (h : g.Rests kept ahead b) {s : Step × Span} {rest : List (Step × Span)}
    (hb : b.steps = s :: rest) : g.Rests kept ahead { b with steps := rest } := by
  refine ⟨h.placed, fun j hj => h.targets j ?_, h.branch⟩
  rcases List.mem_append.1 hj with hj | hj
  · obtain ⟨st, hst, hc⟩ := List.mem_filterMap.1 hj
    exact List.mem_append_left _
      (List.mem_filterMap.2 ⟨st, hb ▸ List.mem_cons_of_mem _ hst, hc⟩)
  · exact List.mem_append_right _ hj

theorem Rests.jump (h : g.Rests kept ahead b) (hj : j ∈ b.targets) :
    g.Rests kept ahead { exit := .jump j } := by
  refine ⟨h.placed, fun i hi => ?_, nofun⟩
  cases List.mem_singleton.1 hi
  exact h.targets j hj

end BlockGraph

/-- The site when some blocks have lost their code. -/
def Site.filter (kept : Nat → Bool) (site : Site) : Site :=
  ⟨site.ahead.filter kept, site.outer.map (·.filter kept)⟩

/-- A branch that is merged leads to one block and has no need of its condition. -/
theorem Exit.merge_branch (c : Scalar) (i j : Nat) :
    i = j ∧ c.isPure ∧ (Exit.branch c i j).merge = .jump i ∨
      (Exit.branch c i j).merge = .branch c i j := by
  rw [Exit.merge]
  split
  · next h => exact .inl ⟨h.1, h.2, rfl⟩
  · exact .inr rfl

namespace Walk

variable {g : BlockGraph} {rank : Nat → Nat} {kept : Nat → Bool} {inputs : Array Float} {n : Nat}
  {entered : List Nat} {site : Site} {w : Walk}
variable {outputs : Array Float} {ahead : List Nat}

/-- With threaded jumps, and without the blocks that are not kept, the walk takes at most `n`
instructions. -/
def Threads (g : BlockGraph) (kept : Nat → Bool) (inputs : Array Float) (n : Nat) (site : Site)
    (w : Walk) : Prop :=
  ∃ n' ≤ n, ∃ entered, Spends g.threadJumps.dropUnreachable inputs n' entered (site.filter kept)
    (w.map g.thread)

theorem Threads.step {site' : Site} {v : Walk} {m : Nat}
    (h : Spends g.threadJumps.dropUnreachable inputs m entered site' v)
    (hs : (w.map g.thread).step g.threadJumps.dropUnreachable inputs = .next v)
    (hturns : (site.filter kept).Turns g.threadJumps.dropUnreachable.layout
      ((w.map g.thread).turn inputs) site')
    (hle : (w.map g.thread).cost inputs (site.filter kept).ahead.head? + m ≤ n) :
    Threads g kept inputs n site w :=
  ⟨_, hle, _, .step hs hturns h⟩

/-- Everything that is left to be done is left of blocks that keep their code. -/
def Kept (g : BlockGraph) (kept : Nat → Bool) (site : Site) (w : Walk) : Prop :=
  List.Forall₂ (g.Rests kept) (site.ahead :: site.outer) (w.block :: w.calls)

/-- With threaded jumps, a walk that enters the block `b` goes on where jumps to it end up. -/
def Lands (g : BlockGraph) (kept : Nat → Bool) (inputs : Array Float) (n : Nat)
    (outer : List (List Nat)) (w : Walk) (b : Nat) : Prop :=
  let final := BlockGraph.follow g.blocks g.blocks.size b
  let g' := g.threadJumps.dropUnreachable
  ∃ n' ahead entered, n' ≤ n ∧ final :: ahead <:+ g'.layout ∧
    Spends g' inputs n' entered ⟨ahead, outer.map (·.filter kept)⟩
      { w with block := g'.block final, calls := w.calls.map g.thread } ∧
    ∀ {k rest}, k :: rest <:+ g.layout →
      jumpCost (rest.filter kept).head? final + n' ≤ jumpCost rest.head? b + n

theorem Spends.lands {bound b : Nat}
    (h : Spends g inputs n entered site { w with block := g.block b })
    (hlt : n + entered.length < bound) (hg : g.Onward rank) (hkept : g.Keeps kept)
    (hlayout : g.threadJumps.dropUnreachable.layout = g.layout.filter kept)
    (ih : ∀ {n entered site w}, Spends g inputs n entered site w → n + entered.length < bound →
      Kept g kept site w → Threads g kept inputs n site w)
    (hb : b :: site.ahead <:+ g.layout)
    (hfinal : kept (BlockGraph.follow g.blocks g.blocks.size b))
    (houter : List.Forall₂ (g.Rests kept) site.outer w.calls) :
    Lands g kept inputs n site.outer w b := by
  obtain ⟨m, ahead, after, hle, hlength, hsuffix, hspends, hcost⟩ :=
    h.follow hg hkept g.blocks.size hb hfinal
  obtain ⟨n', hle', entered', hthread⟩ := ih hspends (by omega)
    (.cons (hkept.rests hg hsuffix hfinal) houter)
  refine ⟨n', ahead.filter kept, entered', Nat.le_trans hle' hle, ?_, ?_, fun hrest =>
    Nat.le_trans (Nat.add_le_add_left hle' _) (hcost hrest)⟩
  · rw [hlayout, ← List.filter_cons_of_pos hfinal]
    exact hsuffix.filter kept
  · rw [show g.threadJumps.dropUnreachable.block _ = g.thread (g.block _) from
      g.block_mapBlocks rfl _]
    exact hthread

/-- A branch to one of two blocks, of which the first comes next. -/
theorem Lands.branch {c : Scalar} {t e : Nat} {outer outer' : List (List Nat)} {block : Block}
    {calls : List Block} {locals : Nat → Float} {tape : Tape} {span : Span}
    (hk : k :: ahead <:+ g.layout) (hhead : ahead.head? = some t) (houter : outer' = outer)
    (h : Lands g kept inputs n outer'
      ⟨block, calls, locals, outputs, (c.eval inputs locals tape).2⟩
      (if truthy (c.eval inputs locals tape).1 then t else e)) :
    Threads g kept inputs (c.cost inputs locals tape + 1 + n) ⟨ahead, outer⟩
      ⟨⟨[], .branch c t e, span⟩, calls, locals, outputs, tape⟩ := by
  subst houter
  obtain ⟨n', ahead', entered, hle, hsuffix, hspends, hjump⟩ := h
  let final := BlockGraph.follow g.blocks g.blocks.size
  have hmap {exit : Exit} (hmerge : (Exit.branch c (final t) (final e)).merge = exit) :
      Walk.map g.thread ⟨⟨[], .branch c t e, span⟩, calls, locals, outputs, tape⟩ =
        ⟨⟨[], exit, span⟩, calls.map g.thread, locals, outputs, tape⟩ := by
    subst hmerge
    rfl
  have hfinal := apply_ite final (truthy (c.eval inputs locals tape).1) t e
  dsimp only [final] at hfinal
  rw [hfinal] at hsuffix hspends
  rcases Exit.merge_branch c (final t) (final e) with ⟨hsame, hpure, hmerge⟩ | hmerge
  · -- the condition is not needed, and draws nothing
    obtain ⟨y, hy⟩ := Scalar.eval_of_isPure hpure inputs locals
    dsimp only [final] at hsame
    rw [← hsame, ite_self] at hsuffix hspends
    rw [hy] at hspends
    refine .step hspends ?_ ?_ ?_
    · rw [hmap hmerge]
      rfl
    · rw [hmap hmerge]
      exact ⟨hsuffix, rfl⟩
    · rw [hmap hmerge]
      have hone := jumpCost_le_one (ahead.filter kept).head? (final t)
      have hpos := c.cost_pos inputs locals tape
      show jumpCost (ahead.filter kept).head? (final t) + n' ≤ _
      omega
  · refine .step hspends ?_ ?_ ?_
    · rw [hmap hmerge]
      rfl
    · rw [hmap hmerge]
      exact ⟨hsuffix, rfl⟩
    · rw [hmap hmerge]
      show c.cost inputs locals tape + 1 + (if truthy (c.eval inputs locals tape).1 ∧
        (ahead.filter kept).head? ≠ some (final e) then jumpCost (ahead.filter kept).head? (final t)
        else 0) + n' ≤ _
      split
      · next htaken =>
        have hnext : jumpCost ahead.head? t = 0 := if_pos hhead
        have hcost : jumpCost (ahead.filter kept).head? (final t) + n' ≤ 0 + n := by
          have hcost := hjump hk
          rwa [if_pos htaken.1, hnext] at hcost
        omega
      · omega

theorem Spends.thread (hg : g.Onward rank) (hkept : g.Keeps kept)
    (hlayout : g.threadJumps.dropUnreachable.layout = g.layout.filter kept)
    (hw : w.Kept g kept site) (h : Spends g inputs n entered site w) :
    Threads g kept inputs n site w := by
  -- a step that costs nothing enters a block
  induction hlength : n + entered.length using Nat.strongRecOn generalizing n entered site w with
  | ind length ih =>
    subst hlength
    replace ih {n' entered' site' w'} (h : Spends g inputs n' entered' site' w')
        (hlt : n' + entered'.length < n + entered.length) (hw : Kept g kept site' w') :
        Threads g kept inputs n' site' w' := ih _ hlt hw h rfl
    obtain ⟨⟨steps, exit, span⟩, calls, locals, outputs, tape⟩ := w
    obtain ⟨ahead, outer⟩ := site
    obtain ⟨hrests, hcalls⟩ := List.forall₂_cons.1 hw
    cases h with
    | halt hs =>
      rcases step_thread g inputs ⟨⟨steps, exit, span⟩, calls, locals, outputs, tape⟩ with
        ⟨signal, v, hs', hthread⟩ | ⟨v, hs', -⟩ | ⟨i, _, _, _, _, hs', -⟩
      · rw [hs] at hs'
        cases hs'
        exact ⟨1, Nat.le_refl 1, [], .halt hthread⟩
      · rw [hs] at hs'
        cases hs'
      · rw [hs] at hs'
        cases hs'
    | pass hs h =>
      cases steps with
      | nil =>
        cases exit with
        | wait seconds next =>
          cases hs
          have hnext := hrests.jump (Block.mem_targets_of_exit (List.mem_singleton_self next))
          obtain ⟨n', hle, entered', hthread⟩ := ih h (by
            simp only [cost, Exit.cost]
            omega) (.cons hnext hcalls)
          have hpass := Spends.pass (g := g.threadJumps.dropUnreachable)
            (w := Walk.map g.thread ⟨⟨[], .wait seconds next, span⟩, calls, locals, outputs, tape⟩)
            rfl hthread
          exact ⟨_, Nat.add_le_add_left hle _, entered', hpass⟩
        | ret => cases calls <;> cases hs
        | _ => cases hs
      | cons head rest =>
        obtain ⟨st, stepSpan⟩ := head
        cases st <;> cases hs
    | @step _ _ _ _ m after hs hturns h =>
      have hlt := length_lt inputs ahead.head?
        ⟨⟨steps, exit, span⟩, calls, locals, outputs, tape⟩ m after
      cases steps with
      | nil =>
        cases exit with
        | jump b =>
          cases hs
          obtain ⟨hahead, houter⟩ := hturns
          obtain ⟨n', ahead', entered', hle, hsuffix, hspends, hjump⟩ :=
            h.lands (w := ⟨g.block b, calls, locals, outputs, tape⟩) hlt hg hkept hlayout ih hahead
              (hrests.targets b (Block.mem_targets_of_exit (List.mem_singleton_self b)))
              (houter ▸ hcalls)
          obtain ⟨k, hk⟩ := hrests.placed
          rw [houter] at hspends
          exact .step hspends rfl ⟨hsuffix, rfl⟩ (hjump hk)
        | branch c t e =>
          cases hs
          obtain ⟨hahead, houter⟩ := hturns
          let x := c.eval inputs locals tape
          let b := if truthy x.1 then t else e
          have hb : b ∈ (Exit.branch c t e).targets := by
            unfold b
            split
            · exact List.mem_cons_self
            · exact List.mem_cons_of_mem _ (List.mem_singleton_self e)
          have hlands := h.lands (w := ⟨g.block b, calls, locals, outputs, x.2⟩) (b := b) hlt hg
            hkept hlayout ih hahead (hrests.targets b (Block.mem_targets_of_exit hb))
            (houter ▸ hcalls)
          obtain ⟨k, hk⟩ := hrests.placed
          obtain ⟨n', hle, hthread⟩ := hlands.branch hk (hrests.branch rfl) houter
          exact ⟨n', Nat.le_trans hle (Nat.add_le_add_right (Nat.le_add_right _ _) _), hthread⟩
        | ret =>
          cases calls with
          | nil => cases hs
          | cons back rest =>
            cases hs
            cases outer with
            | nil => cases hturns
            | cons first outer =>
              cases hturns
              obtain ⟨n', hle, entered', hthread⟩ := ih h hlt hcalls
              exact .step hthread rfl rfl (Nat.add_le_add_left hle _)
        | halt | wait seconds next | pause point defaultBlock => cases hs
      | cons head rest =>
        obtain ⟨st, stepSpan⟩ := head
        cases st with
        | setLocal slot value | setOutput slot value =>
          cases hs
          cases hturns
          obtain ⟨n', hle, entered', hthread⟩ := ih h hlt (.cons (hrests.tail rfl) hcalls)
          exact .step hthread rfl rfl (Nat.add_le_add_left hle _)
        | call b =>
          cases hs
          obtain ⟨hahead, houter⟩ := hturns
          obtain ⟨n', ahead', entered', hle, hsuffix, hspends, -⟩ :=
            h.lands (w := ⟨g.block b, ⟨rest, exit, span⟩ :: calls, locals, outputs, tape⟩) hlt hg
              hkept hlayout ih hahead (hrests.targets b (Block.mem_targets_of_call List.mem_cons_self))
              (houter ▸ List.Forall₂.cons (hrests.tail rfl) hcalls)
          rw [houter] at hspends
          exact .step hspends rfl ⟨hsuffix, rfl⟩ (Nat.add_le_add_left hle _)

/-- A walk through a simplified graph takes no more instructions. -/
theorem Spends.simplify (hg : g.Onward rank) {random : Random}
    (hahead : BlockGraph.entry :: ahead <:+ g.layout)
    (h : Spends g inputs n entered ⟨ahead, []⟩ (.start g outputs random)) :
    ∃ n' ahead' entered', n' ≤ n ∧ BlockGraph.entry :: ahead' <:+ g.simplify.layout ∧
      Spends g.simplify inputs n' entered' ⟨ahead', []⟩ (.start g.simplify outputs random) := by
  obtain ⟨n₁, hle₁, h₁⟩ := h.fold
  obtain ⟨n₂, hle₂, h₂⟩ := h₁.settleBranches
  have hsettled := hg.fold.settleBranches
  obtain ⟨kept, hentry, hkept, hlayout⟩ := hsettled.keeps
  have hstart : Walk.map Block.settle ((Walk.start g outputs random).map
      (·.mapValues Scalar.fold)) = .start g.fold.settleBranches outputs random := by
    simp only [Walk.start, Walk.map, g.fold.block_settleBranches, g.block_fold,
      List.map_nil]
  rw [hstart] at h₂
  obtain ⟨n₃, hle₃, entered₃, h₃⟩ := h₂.thread hsettled hkept hlayout
    (.cons (hkept.rests hsettled hahead hentry) .nil)
  refine ⟨n₃, ahead.filter kept, entered₃, by omega, ?_, ?_⟩
  · show BlockGraph.entry :: ahead.filter kept <:+
      g.fold.settleBranches.threadJumps.dropUnreachable.layout
    rw [hlayout, ← List.filter_cons_of_pos hentry]
    exact hahead.filter kept
  · have hblock : g.simplify.block BlockGraph.entry = g.fold.settleBranches.thread
        (g.fold.settleBranches.block BlockGraph.entry) := BlockGraph.block_threadJumps _ _
    rw [Walk.start, hblock]
    exact h₃

end Walk

end Behavior
