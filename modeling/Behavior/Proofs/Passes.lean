import Behavior.Block.Fold
import Behavior.Block.Jumps
import Behavior.Proofs.Extent

/-!
Passes over block graphs that keep what walks do. Evaluating constants ahead of time and settling
branches change each block for itself, so walks correspond step by step. Threading jumps lets a walk
pass over empty blocks, so the walk through the shorter graph takes fewer steps. Dropping blocks from
the layout changes no walk at all. None of these passes mentions a slot that was not mentioned
before.
-/

namespace Behavior

variable {f : Scalar → Scalar} {x : Extent}
variable {inputs : Array Float} {w w' : Walk} {skipWaits : Bool} {signal : Signal} {e : Scalar}
  {n : Nat}

/-! ## Carrying walks over -/

/-- Walks through `g` can be followed through `g'`: related walks have the same outputs and the same
tape, and a run of one has a run of the other beside it that ends with the same signal. They can
go on after a stop with other outputs, and if `changes` holds also with other inputs. -/
structure Carries (changes : Prop) (g g' : BlockGraph) (rel : Array Float → Walk → Walk → Prop) :
    Prop where
  start : ∀ inputs outputs random,
    rel inputs (.start g outputs random) (.start g' outputs random)
  same : ∀ {inputs w v}, rel inputs w v → v.outputs = w.outputs ∧ v.tape = w.tape
  run : ∀ {inputs skipWaits n w w' v signal}, rel inputs w v →
    Walk.Runs g inputs skipWaits n w signal w' →
    ∃ n' v', Walk.Runs g' inputs skipWaits n' v signal v' ∧ rel inputs w' v' ∧
      ∀ inputs' outputs', inputs' = inputs ∨ changes ∧ signal ≠ .halt →
        rel inputs' { w' with outputs := outputs' } { v' with outputs := outputs' }

/-- The random numbers that are left are the same. -/
theorem Carries.observed {changes : Prop} {g g' : BlockGraph}
    {rel : Array Float → Walk → Walk → Prop} (h : Carries changes g g' rel) {v : Walk}
    (hv : rel inputs w v) : v.outputs = w.outputs ∧ v.random = w.random :=
  ⟨(h.same hv).1, congrArg Tape.random (h.same hv).2⟩

/-- Walks through one graph can be followed through another. -/
def Carried (changes : Prop) (g g' : BlockGraph) : Prop :=
  ∃ rel, Carries changes g g' rel

namespace Carried

variable {changes : Prop} {g g' g'' : BlockGraph}

theorem ofMap (f : Block → Block) (hblock : ∀ i, g'.block i = f (g.block i))
    (hrun : ∀ {inputs : Array Float} {skipWaits : Bool} {n : Nat} {w w' : Walk} {signal : Signal},
      Walk.Runs g inputs skipWaits n w signal w' →
      ∃ n', Walk.Runs g' inputs skipWaits n' (w.map f) signal (w'.map f)) :
    Carried changes g g' := by
  refine ⟨fun _ w v => v = w.map f, ?_, ?_, ?_⟩
  · intro inputs outputs random
    simp only [Walk.start, Walk.map, hblock, List.map_nil]
  · rintro inputs w _ rfl
    exact ⟨rfl, rfl⟩
  · rintro inputs skipWaits n w w' _ signal rfl h
    obtain ⟨n', h'⟩ := hrun h
    exact ⟨n', w'.map f, h', rfl, fun _ _ _ => rfl⟩

theorem refl (g : BlockGraph) : Carried changes g g := by
  refine ⟨fun _ w v => v = w, fun _ _ _ => rfl, ?_, ?_⟩
  · rintro inputs w _ rfl
    exact ⟨rfl, rfl⟩
  · rintro inputs skipWaits n w w' _ signal rfl h
    exact ⟨n, w', h, rfl, fun _ _ _ => rfl⟩

theorem trans (h : Carried changes g g') (h' : Carried changes g' g'') :
    Carried changes g g'' := by
  obtain ⟨rel, hrel⟩ := h
  obtain ⟨rel', hrel'⟩ := h'
  refine ⟨fun inputs w u => ∃ v, rel inputs w v ∧ rel' inputs v u, ?_, ?_, ?_⟩
  · intro inputs outputs random
    exact ⟨_, hrel.start .., hrel'.start ..⟩
  · rintro inputs w u ⟨v, hv, hu⟩
    obtain ⟨ho, ht⟩ := hrel.same hv
    obtain ⟨ho', ht'⟩ := hrel'.same hu
    exact ⟨ho'.trans ho, ht'.trans ht⟩
  · rintro inputs skipWaits n w w' u signal ⟨v, hv, hu⟩ hruns
    obtain ⟨n', v', hruns', hv', hresume⟩ := hrel.run hv hruns
    obtain ⟨n'', u', hruns'', hu', hresume'⟩ := hrel'.run hu hruns'
    refine ⟨n'', u', hruns'', ⟨v', hv', hu'⟩, ?_⟩
    intro inputs' outputs' hinputs
    exact ⟨_, hresume inputs' outputs' hinputs, hresume' inputs' outputs' hinputs⟩

/-- Only the blocks of a graph matter. -/
theorem ofBlocks (h : g'.blocks = g.blocks) : Carried changes g g' := by
  have hstep : ∀ (inputs : Array Float) (w : Walk), w.step g' inputs = w.step g inputs := by
    intro inputs w
    simp only [Walk.step, Walk.leave, BlockGraph.block, h]
  have hblock : ∀ i, g'.block i = id (g.block i) := fun i => by simp only [BlockGraph.block, h, id]
  refine ofMap id hblock ?_
  intro inputs skipWaits n w w' signal hruns
  have hmap : ∀ w : Walk, w.map id = w := fun w => by simp only [Walk.map, id, List.map_id]
  refine ⟨n, hruns.map fun w => ?_⟩
  rw [hmap, hstep]
  cases w.step g inputs <;> simp only [Walk.Reaction.map, hmap]

end Carried

theorem BlockGraph.block_mapBlocks (g : BlockGraph) {f : Block → Block} (hf : f {} = {}) (i : Nat) :
    (g.mapBlocks f).block i = f (g.block i) := by
  simp only [block, mapBlocks, Array.getD_eq_getD_getElem?, Array.getElem?_map]
  cases g.blocks[i]? with
  | none => exact hf.symm
  | some b => rfl

/-! ## Constants -/

theorem BlockGraph.block_fold (g : BlockGraph) (i : Nat) :
    g.fold.block i = (g.block i).mapValues Scalar.fold :=
  g.block_mapBlocks rfl i

/-- Folding keeps values and draws. -/
theorem Scalar.eval_fold (inputs : Array Float) (locals : Nat → Float) (e : Scalar) (r : Tape) :
    e.fold.eval inputs locals r = e.eval inputs locals r := by
  induction e generalizing r with
  | const x => rfl
  | inputSlot slot => rfl
  | localSlot slot => rfl
  | random => rfl
  | unary f a iha =>
    rw [fold]
    split
    · next x ha => simp only [eval, ← iha, ha]
    · simp only [eval, iha]
  | binary f a b iha ihb =>
    rw [fold]
    split
    · next x y ha hb => simp only [eval, ← iha, ← ihb, ha, hb]
    · simp only [eval, iha, ihb]
  | ternary f a b c iha ihb ihc =>
    rw [fold]
    split
    · next x y z ha hb hc => simp only [eval, ← iha, ← ihb, ← ihc, ha, hb, hc]
    · simp only [eval, iha, ihb, ihc]
  | select c a b ihc iha ihb =>
    rw [fold]
    split
    · next x hc =>
      simp only [eval, ← ihc, hc]
      split
      · exact iha r
      · exact ihb r
    · simp only [eval, ihc, iha, ihb]

/-- Expressions may be changed if their values and draws stay. -/
theorem Walk.step_mapValues {g g' : BlockGraph} (hblock : ∀ i, g'.block i = (g.block i).mapValues f)
    (hf : ∀ locals e r, (f e).eval inputs locals r = e.eval inputs locals r) (w : Walk) :
    (w.map (·.mapValues f)).step g' inputs = (w.step g inputs).map (·.mapValues f) := by
  obtain ⟨⟨steps, exit, span⟩, calls, locals, outputs, tape⟩ := w
  cases steps with
  | nil =>
    cases exit with
    | jump b => simp only [step, leave, map, Block.mapValues, Exit.mapValue, hblock, Reaction.map,
        List.map_nil]
    | branch c t e =>
      simp only [step, leave, map, Block.mapValues, Exit.mapValue, hblock, hf, Reaction.map,
        List.map_nil]
    | ret =>
      cases calls with
      | nil | cons back rest => rfl
    | halt => rfl
    | wait seconds next =>
      simp only [step, leave, map, Block.mapValues, Exit.mapValue, hf, Reaction.map, List.map_nil]
    | pause point defaultBlock => rfl
  | cons head rest =>
    obtain ⟨s, stepSpan⟩ := head
    cases s with
    | setLocal slot value | setOutput slot value =>
      simp only [step, map, Block.mapValues, Step.mapValue, hf, Reaction.map, List.map_cons]
    | call b =>
      simp only [step, map, Block.mapValues, Step.mapValue, hblock, Reaction.map, List.map_cons]

theorem carried_fold (changes : Prop) (g : BlockGraph) : Carried changes g g.fold := by
  refine .ofMap _ g.block_fold fun hruns => ⟨_, hruns.map ?_⟩
  exact Walk.step_mapValues g.block_fold (Scalar.eval_fold _)

/-! ## Branches on constants -/

/-- The block with its branch settled if the condition is a constant. -/
def Block.settle (b : Block) : Block :=
  { b with exit := b.exit.settle }

theorem BlockGraph.block_settleBranches (g : BlockGraph) (i : Nat) :
    g.settleBranches.block i = (g.block i).settle :=
  g.block_mapBlocks rfl i

theorem Walk.step_settle (g : BlockGraph) (inputs : Array Float) (w : Walk) :
    (w.map Block.settle).step g.settleBranches inputs = (w.step g inputs).map Block.settle := by
  obtain ⟨⟨steps, exit, span⟩, calls, locals, outputs, tape⟩ := w
  -- Both walks are in corresponding blocks after a step if they were before.
  have hnext : ∀ i calls locals outputs tape,
      Walk.Reaction.next ⟨g.settleBranches.block i, calls, locals, outputs, tape⟩ =
        .next ⟨(g.block i).settle, calls, locals, outputs, tape⟩ := by
    intro i calls locals outputs tape
    rw [g.block_settleBranches]
  cases steps with
  | nil =>
    cases exit with
    | jump b => exact hnext ..
    | branch c t e => cases c <;> exact hnext ..
    | ret =>
      cases calls with
      | nil | cons back rest => rfl
    | halt => rfl
    | wait seconds next => rfl
    | pause point defaultBlock => rfl
  | cons head rest =>
    obtain ⟨s, stepSpan⟩ := head
    cases s with
    | setLocal slot value => rfl
    | setOutput slot value => rfl
    | call b => exact hnext ..

theorem carried_settleBranches (changes : Prop) (g : BlockGraph) :
    Carried changes g g.settleBranches :=
  .ofMap Block.settle g.block_settleBranches fun hruns => ⟨_, hruns.map (Walk.step_settle g _)⟩

/-! ## Chains of empty blocks -/

/-- An expression that draws nothing has one value. -/
theorem Scalar.eval_of_isPure (h : e.isPure) (inputs : Array Float) (locals : Nat → Float) :
    ∃ x, ∀ r, e.eval inputs locals r = (x, r) := by
  induction e with
  | const x => exact ⟨x, fun _ => rfl⟩
  | inputSlot slot | localSlot slot => exact ⟨_, fun _ => rfl⟩
  | random => cases h
  | unary f a iha =>
    obtain ⟨x, hx⟩ := iha h
    exact ⟨f.apply x, fun r => by simp only [eval, hx]⟩
  | binary f a b iha ihb =>
    simp only [isPure, Bool.and_eq_true] at h
    obtain ⟨x, hx⟩ := iha h.1
    obtain ⟨y, hy⟩ := ihb h.2
    exact ⟨f.apply x y, fun r => by simp only [eval, hx, hy]⟩
  | ternary f a b c iha ihb ihc =>
    simp only [isPure, Bool.and_eq_true] at h
    obtain ⟨x, hx⟩ := iha h.1.1
    obtain ⟨y, hy⟩ := ihb h.1.2
    obtain ⟨z, hz⟩ := ihc h.2
    exact ⟨f.apply x y z, fun r => by simp only [eval, hx, hy, hz]⟩
  | select c a b ihc iha ihb =>
    simp only [isPure, Bool.and_eq_true] at h
    obtain ⟨x, hx⟩ := ihc h.1.1
    obtain ⟨y, hy⟩ := iha h.1.2
    obtain ⟨z, hz⟩ := ihb h.2
    refine ⟨if truthy x then y else z, fun r => ?_⟩
    simp only [eval, hx, hy, hz]
    split <;> rfl

namespace BlockGraph

variable {g : BlockGraph}

/-- An empty block that jumps to another one. -/
def Passes (g : BlockGraph) (i j : Nat) : Prop :=
  (g.block i).steps = [] ∧ (g.block i).exit = .jump j

theorem Passes.step {i j : Nat} (h : g.Passes i j) :
    { w with block := g.block i }.step g inputs = .next { w with block := g.block j } := by
  simp only [Walk.step, Walk.leave, h.1, h.2]

/-- Following jumps either stays or goes on behind a block that only jumps. -/
theorem follow_succ (g : BlockGraph) (fuel i : Nat) : follow g.blocks (fuel + 1) i = i ∨
    ∃ j, g.Passes i j ∧ follow g.blocks (fuel + 1) i = follow g.blocks fuel j := by
  rw [follow]
  split
  · next next span hblock =>
    have hpass : g.Passes i next := by
      rw [Passes, block, Array.getD_eq_getD_getElem?, hblock]
      exact ⟨rfl, rfl⟩
    split
    · exact .inl rfl
    · exact .inr ⟨next, hpass, rfl⟩
  · exact .inl rfl

/-- A run that enters a block comes past the block where jumps to it end up. -/
theorem runs_follow (fuel : Nat) {target : Nat}
    (h : Walk.Runs g inputs skipWaits n { w with block := g.block target } signal w') :
    ∃ n' ≤ n, Walk.Runs g inputs skipWaits n'
      { w with block := g.block (follow g.blocks fuel target) } signal w' := by
  induction fuel generalizing n target with
  | zero => exact ⟨n, Nat.le_refl n, h⟩
  | succ fuel ih =>
    rcases g.follow_succ fuel target with hstays | ⟨next, hpass, hnext⟩
    · rw [hstays]
      exact ⟨n, Nat.le_refl n, h⟩
    · obtain ⟨k, rfl, h'⟩ := h.of_next hpass.step
      obtain ⟨n', hle, h'⟩ := ih h'
      rw [hnext]
      exact ⟨n', Nat.le_succ_of_le hle, h'⟩

/-- A block with its jumps and calls led to where they end up. -/
def thread (g : BlockGraph) (b : Block) : Block :=
  let final := follow g.blocks g.blocks.size
  { b with
    steps := b.steps.map fun (step, span) => (step.retarget final, span)
    exit := (b.exit.retarget final).merge }

theorem block_threadJumps (g : BlockGraph) (i : Nat) :
    g.threadJumps.block i = g.thread (g.block i) :=
  g.block_mapBlocks rfl i

end BlockGraph

namespace Walk

/-- A step either goes on or stops alike in both graphs, or enters a block, in the graph with
threaded jumps the one where jumps to it end up. -/
theorem step_thread (g : BlockGraph) (inputs : Array Float) (w : Walk) :
    (∃ signal v, w.step g inputs = .stop signal v ∧
      (w.map g.thread).step g.threadJumps inputs = .stop signal (v.map g.thread)) ∨
    (∃ v, w.step g inputs = .next v ∧
      (w.map g.thread).step g.threadJumps inputs = .next (v.map g.thread)) ∨
    ∃ i calls locals outputs tape,
      w.step g inputs = .next ⟨g.block i, calls, locals, outputs, tape⟩ ∧
      (w.map g.thread).step g.threadJumps inputs =
        .next ⟨g.threadJumps.block (BlockGraph.follow g.blocks g.blocks.size i),
          calls.map g.thread, locals, outputs, tape⟩ := by
  obtain ⟨⟨steps, exit, span⟩, calls, locals, outputs, tape⟩ := w
  cases steps with
  | nil =>
    cases exit with
    | jump b => exact .inr (.inr ⟨b, calls, locals, outputs, tape, rfl, rfl⟩)
    | branch c t e =>
      refine .inr (.inr ⟨_, calls, locals, outputs, _, rfl, ?_⟩)
      simp only [step, leave, map, BlockGraph.thread, List.map_nil, Exit.retarget, Exit.merge]
      split
      · next b hexit =>
        split at hexit
        · next hmerge =>
          -- Either way leads to one block, and no draw is lost with the condition.
          obtain ⟨x, hx⟩ := Scalar.eval_of_isPure hmerge.2 inputs locals
          cases hexit
          simp only [hx]
          split
          · rfl
          · rw [hmerge.1]
        · cases hexit
      · next c' t' e' hexit =>
        split at hexit
        · cases hexit
        · cases hexit
          simp only [apply_ite (BlockGraph.follow g.blocks g.blocks.size)]
      all_goals
        next hexit => split at hexit <;> cases hexit
    | ret =>
      cases calls with
      | nil => exact .inl ⟨_, _, rfl, rfl⟩
      | cons back rest => exact .inr (.inl ⟨_, rfl, rfl⟩)
    | halt | wait seconds next | pause point defaultBlock => exact .inl ⟨_, _, rfl, rfl⟩
  | cons head rest =>
    obtain ⟨s, stepSpan⟩ := head
    cases s with
    | setLocal slot value | setOutput slot value => exact .inr (.inl ⟨_, rfl, rfl⟩)
    | call b => exact .inr (.inr ⟨b, _, locals, outputs, tape, rfl, rfl⟩)

/-- The induction is on the length of the run, of which empty blocks take a part. -/
theorem Runs.thread {g : BlockGraph} (h : Runs g inputs skipWaits n w signal w') :
    ∃ n', Runs g.threadJumps inputs skipWaits n' (w.map g.thread) signal (w'.map g.thread) := by
  induction n using Nat.strongRecOn generalizing w with
  | ind n ih =>
    rcases step_thread g inputs w with ⟨signal', v, hs, hs'⟩ | ⟨v, hs, hs'⟩ |
      ⟨i, calls, locals, outputs, tape, hs, hs'⟩
    · rcases h.of_stop hs with ⟨rfl, rfl, rfl, hwait⟩ | ⟨x, k, hskip, rfl, rfl, h'⟩
      · exact ⟨1, .stop hs' hwait⟩
      · obtain ⟨n', hruns⟩ := ih k (Nat.lt_succ_self k) h'
        exact ⟨n' + 1, .pass hskip hs' hruns⟩
    · obtain ⟨k, rfl, h'⟩ := h.of_next hs
      obtain ⟨n', hruns⟩ := ih k (Nat.lt_succ_self k) h'
      exact ⟨n' + 1, .step hs' hruns⟩
    · obtain ⟨k, rfl, h'⟩ := h.of_next hs
      obtain ⟨k', hle, h'⟩ := BlockGraph.runs_follow g.blocks.size
        (w := ⟨g.block i, calls, locals, outputs, tape⟩) h'
      obtain ⟨n', hruns⟩ := ih k' (Nat.lt_succ_of_le hle) h'
      refine ⟨n' + 1, .step hs' ?_⟩
      rw [g.block_threadJumps]
      exact hruns

end Walk

theorem carried_threadJumps (changes : Prop) (g : BlockGraph) :
    Carried changes g g.threadJumps :=
  .ofMap g.thread g.block_threadJumps fun hruns => hruns.thread

/-! ## Blocks without code -/

theorem carried_dropUnreachable (changes : Prop) (g : BlockGraph) :
    Carried changes g g.dropUnreachable :=
  .ofBlocks rfl

/-! ## Slots -/

theorem Scalar.Within.fold (h : e.Within x) : e.fold.Within x := by
  induction e with
  | const v => trivial
  | inputSlot slot | localSlot slot => exact h
  | random => trivial
  | unary f a iha =>
    rw [Scalar.fold]
    split
    · trivial
    · exact iha h
  | binary f a b iha ihb =>
    rw [Scalar.fold]
    split
    · trivial
    · exact ⟨iha h.1, ihb h.2⟩
  | ternary f a b c iha ihb ihc =>
    rw [Scalar.fold]
    split
    · trivial
    · exact ⟨iha h.1, ihb h.2.1, ihc h.2.2⟩
  | select c a b ihc iha ihb =>
    rw [Scalar.fold]
    split
    · split
      · exact iha h.2.1
      · exact ihb h.2.2
    · exact ⟨ihc h.1, iha h.2.1, ihb h.2.2⟩

/-- Expressions may be changed if they stay within the extent. -/
theorem Block.Within.mapValues {y : Extent} {b : Block} (h : b.Within x) (hxy : x.Le y)
    (hf : ∀ e : Scalar, e.Within x → (f e).Within y) :
    (b.mapValues f).Within y := by
  constructor
  · intro s hs
    obtain ⟨⟨s, span⟩, hmem, rfl⟩ := List.mem_map.1 hs
    have hwithin := h.steps _ hmem
    cases s with
    | setLocal slot value =>
      exact ⟨Nat.lt_of_lt_of_le hwithin.1 hxy.locals, hf value hwithin.2⟩
    | setOutput slot value =>
      exact ⟨Nat.lt_of_lt_of_le hwithin.1 hxy.outputs, hf value hwithin.2⟩
    | call block => trivial
  · have hwithin := h.exit
    show (b.exit.mapValue f).Within y
    cases hexit : b.exit with
    | branch c t e =>
      rw [hexit] at hwithin
      exact hf c hwithin
    | wait seconds next =>
      rw [hexit] at hwithin
      exact hf seconds hwithin
    | jump block | ret | halt | pause point defaultBlock => trivial

theorem Exit.Within.merge {e : Exit} (h : e.Within x) : e.merge.Within x := by
  cases e with
  | branch c t e =>
    rw [Exit.merge]
    split
    · trivial
    · exact h
  | _ => exact h

namespace BlockGraph.Within

variable {x : Extent} {g : BlockGraph}

theorem fold (h : g.Within x) : g.fold.Within x := by
  intro i
  rw [g.block_fold]
  exact (h i).mapValues ⟨Nat.le_refl _, Nat.le_refl _, Nat.le_refl _⟩ fun _ he => he.fold

theorem settleBranches (h : g.Within x) : g.settleBranches.Within x := by
  intro i
  rw [g.block_settleBranches]
  refine ⟨(h i).steps, ?_⟩
  have hexit := (h i).exit
  show (g.block i).exit.settle.Within x
  unfold Exit.settle
  split
  · trivial
  · exact hexit

theorem threadJumps (h : g.Within x) : g.threadJumps.Within x := by
  intro i
  rw [g.block_threadJumps]
  constructor
  · intro s hs
    obtain ⟨⟨s, span⟩, hmem, rfl⟩ := List.mem_map.1 hs
    have hwithin := (h i).steps _ hmem
    cases s with
    | setLocal slot value | setOutput slot value => exact hwithin
    | call block => trivial
  · have hexit := (h i).exit
    refine Exit.Within.merge ?_
    cases he : (g.block i).exit with
    | branch c t e | wait seconds next =>
      rw [he] at hexit
      exact hexit
    | jump block | ret | halt | pause point defaultBlock => trivial

theorem dropUnreachable (h : g.Within x) : g.dropUnreachable.Within x :=
  h

end BlockGraph.Within

end Behavior
