import Behavior.Compile
import Behavior.Proofs.Assembled
import Behavior.Proofs.Passes
import Behavior.Proofs.Slots

/-!
What a compiled document is made of: the flows it was checked to be, the blocks these were lowered
to, the same blocks after the passes of its level, and code for those. A run of the model is a walk
through its blocks, and the passes keep walks, so models of different levels do the same.
-/

namespace Behavior

variable {p : Typed.Program} {o : CompileOptions} {m : Model} {registry : Registry} {d : Document}
variable {e : Evaluator} {outputs inputs : Array Float} {id : ModelId}

namespace BlockGraph

/-- The passes of the second level. -/
def simplify (g : BlockGraph) : BlockGraph :=
  g.fold.settleBranches.threadJumps.dropUnreachable

theorem optimize_cases (level : UInt8) (g : BlockGraph) :
    g.optimize level = g ∨ g.optimize level = g.fold ∨ g.optimize level = g.simplify ∨
      3 ≤ level ∧ g.optimize level = g.simplify.share := by
  by_cases h1 : 1 ≤ level
  · by_cases h2 : 2 ≤ level
    · by_cases h3 : 3 ≤ level
      · simp only [optimize, if_pos h1, if_pos h2, if_pos h3]
        exact .inr (.inr (.inr ⟨h3, rfl⟩))
      · simp only [optimize, if_pos h1, if_pos h2, if_neg h3]
        exact .inr (.inr (.inl rfl))
    · have h3 : ¬ 3 ≤ level := fun h => h2 (UInt8.le_trans (by decide) h)
      simp only [optimize, if_pos h1, if_neg h2, if_neg h3]
      exact .inr (.inl trivial)
  · have h2 : ¬ 2 ≤ level := fun h => h1 (UInt8.le_trans (by decide) h)
    have h3 : ¬ 3 ≤ level := fun h => h1 (UInt8.le_trans (by decide) h)
    simp only [optimize, if_neg h1, if_neg h2, if_neg h3]
    exact .inl trivial

variable {x : Extent} {g : BlockGraph}

theorem carried_simplify (changes : Prop) (g : BlockGraph) : Carried changes g g.simplify :=
  (carried_fold changes g).trans <| (carried_settleBranches changes _).trans <|
    (carried_threadJumps changes _).trans (carried_dropUnreachable changes _)

theorem Within.simplify (hg : g.Within (extent x g)) : g.simplify.Within (extent x g.simplify) :=
  hg.fold.settleBranches.threadJumps.dropUnreachable

/-- The passes of a level keep what walks do. If inputs may change between runs, the third level
needs blocks that share values only among themselves. -/
theorem optimize_improves (changes : Prop) (level : UInt8) (hg : g.Within (extent x g))
    (hquiet : changes → 3 ≤ level → g.simplify.SharesQuietly) :
    Carried changes g (g.optimize level) ∧
      (g.optimize level).Within (extent x (g.optimize level)) := by
  rcases optimize_cases level g with h | h | h | ⟨hlevel, h⟩
  · rw [h]
    exact ⟨.refl g, hg⟩
  · rw [h]
    exact ⟨carried_fold changes g, hg.fold⟩
  · rw [h]
    exact ⟨carried_simplify changes g, hg.simplify⟩
  · rw [h]
    have hshare : Improves changes x g.simplify g.simplify.share :=
      share_improves hg.simplify fun hc => hquiet hc hlevel
    exact ⟨(carried_simplify changes g).trans hshare.carried, hshare.within⟩

end BlockGraph

/-! ## Compiled models -/

/-- A model has code for the blocks of a document at a level. -/
structure Compiled (p : Typed.Program) (level : UInt8) (m : Model) : Prop where
  check : m.check = .ok ()
  schema : m.schema = p.schema
  strings : m.strings = p.strings
  locals_le : (p.toBlocks.optimize level).localCount ≤ 0xffff
  localCount : m.localCount.toNat = (p.toBlocks.optimize level).localCount
  assembled : Nonempty (Assembled m (p.toBlocks.optimize level) p.points)

/-- The model that has the code of a document. -/
def Typed.Program.assembled (p : Typed.Program) (o : CompileOptions) (id : ModelId) (g : BlockGraph)
    (a : Assembly) (maxStack : Nat) : Model where
  id
  version := Model.formatVersion
  flags := o.flags (!a.points.isEmpty) p.extends?.isSome
  maxStack := maxStack.toUInt16
  maxCallDepth := p.callDepth.toUInt16
  localCount := g.localCount.toUInt16
  entry := a.entry.toUInt32
  schema := p.schema
  points := a.points
  constants := a.constants
  strings := p.strings
  code := a.code
  extends? := p.extends?
  debug? := if o.debugInfo then some a.debug else none

/-- A document that has a model has one with the code of its blocks. -/
theorem Typed.Program.toModel_eq (h : p.toModel o id = .ok m) :
    let g := p.toBlocks.optimize o.level
    g.localCount ≤ 0xffff ∧ ∃ a depth, Assembly.ofBlocks g p.points p.strings.size = .ok a ∧
      m = p.assembled o id g a depth ∧ m.check = .ok () := by
  unfold Typed.Program.toModel at h
  dsimp only at h
  split at h
  · cases h
  · next hlocals =>
    refine ⟨Nat.le_of_not_lt hlocals, ?_⟩
    obtain ⟨a, ha, h⟩ := bind_eq_ok.1 h
    split at h
    · next depth hdepth =>
      obtain ⟨_, hpure, h⟩ := bind_eq_ok.1 h
      cases hpure
      split at h
      · next hcheck =>
        have heq := Except.ok.inj h
        exact ⟨a, depth, ha, heq.symm, heq ▸ hcheck⟩
      · cases h
    · cases h

theorem Typed.Program.toModel_ok (h : p.toModel o id = .ok m) : Compiled p o.level m := by
  obtain ⟨hlocals, a, depth, ha, rfl, hcheck⟩ := Typed.Program.toModel_eq h
  exact ⟨hcheck, rfl, rfl, hlocals, Nat.mod_eq_of_lt (Nat.lt_succ_of_le hlocals),
    Assembly.ofBlocks_assembled ha rfl rfl rfl rfl⟩

theorem compile_ok (h : compile registry o d = .ok m) :
    ∃ p, Typed.check registry d = .ok p ∧ Compiled p o.clamp.level m := by
  obtain ⟨p, hp, h⟩ := bind_eq_ok.1 h
  refine ⟨p, hp, ?_⟩
  split at h
  · next m' hm =>
    cases h
    exact Typed.Program.toModel_ok hm
  · cases h

theorem compile_of_toModel (hp : Typed.check registry d = .ok p)
    (hm : (p.toModel o.clamp (o.clamp.id?.getD (.ofName d.name))).toOption = some m) :
    compile registry o d = .ok m := by
  refine bind_eq_ok.2 ⟨p, hp, ?_⟩
  cases h : p.toModel o.clamp (o.clamp.id?.getD (.ofName d.name)) with
  | error e =>
    rw [h] at hm
    cases hm
  | ok n =>
    rw [h] at hm
    cases hm
    rfl

theorem suits_of_compile (h : compile registry o d = .ok m) : Typed.Suits registry m.schema := by
  obtain ⟨p, hp, hcompiled⟩ := compile_ok h
  obtain ⟨names, graph, hchecked⟩ := Typed.check_ok hp
  rw [hcompiled.schema, ← hchecked.registry]
  exact hchecked.suits

theorem nodup_strings_of_compile (h : compile registry o d = .ok m) : m.strings.toList.Nodup := by
  obtain ⟨p, hp, hcompiled⟩ := compile_ok h
  obtain ⟨names, graph, hchecked⟩ := Typed.check_ok hp
  rw [hcompiled.strings]
  exact hchecked.distinct

/-! ## Evaluations -/

namespace Evaluator

/-- The machine at the start of an evaluation. -/
def start (e : Evaluator) : Machine where
  toFrame := Frame.start e.model e.random
  outputs := Array.replicate e.model.outputSize 0.0

/-- What an evaluation leaves behind, given how its run has ended. -/
def ofOutcome (e : Evaluator) : Machine.Outcome → Evaluation
  | .faulted f s => ⟨some f, s.outputs, { e with random := s.random }⟩
  | .stopped (.pause _) s _ =>
    ⟨some (.unexpectedPause (s.ip - 1)), s.outputs, { e with random := s.random }⟩
  | .stopped _ s _ => ⟨none, s.outputs, { e with random := s.random }⟩

theorem evaluate_eq (h : e.model.checkVectors inputs outputs = .ok ()) :
    e.evaluate inputs outputs = e.ofOutcome (e.start.run e.model inputs e.limit true e.limit) := by
  rw [evaluate, h]
  rfl

/-- An evaluation changes nothing but the random numbers. -/
theorem evaluate_keeps (e : Evaluator) (inputs outputs : Array Float) :
    ∃ random, (e.evaluate inputs outputs).evaluator = { e with random } := by
  cases hsizes : e.model.checkVectors inputs outputs with
  | error f =>
    refine ⟨e.random, ?_⟩
    rw [evaluate, hsizes]
  | ok _ =>
    rw [evaluate_eq hsizes]
    rcases e.start.run e.model inputs e.limit true e.limit with ⟨_ | _ | _, s, _⟩ | ⟨_, s⟩ <;>
      exact ⟨s.random, rfl⟩

/-- Of the vector for the outputs only the size matters. -/
theorem evaluate_of_sizes (e : Evaluator) {inputs outputs outputs' : Array Float}
    (hi : inputs.size = e.model.inputSize) (ho : outputs.size = e.model.outputSize)
    (ho' : outputs'.size = e.model.outputSize) :
    e.evaluate inputs outputs = e.evaluate inputs outputs' := by
  rw [evaluate_eq (checkVectors_eq_ok.2 ⟨hi, ho⟩), evaluate_eq (checkVectors_eq_ok.2 ⟨hi, ho'⟩)]

/-- An evaluation without fault has run to a stop. -/
theorem evaluate_ok (h : (e.evaluate inputs outputs).fault? = none) :
    inputs.size = e.model.inputSize ∧ ∃ signal s rest,
      e.start.run e.model inputs e.limit true e.limit = .stopped signal s rest ∧
      (∀ i, signal ≠ .pause i) ∧
      e.evaluate inputs outputs = ⟨none, s.outputs, { e with random := s.random }⟩ := by
  cases hsizes : e.model.checkVectors inputs outputs with
  | error fault =>
    rw [evaluate, hsizes] at h
    cases h
  | ok _ =>
    refine ⟨(checkVectors_eq_ok.1 hsizes).1, ?_⟩
    rw [evaluate_eq hsizes] at h ⊢
    cases hrun : e.start.run e.model inputs e.limit true e.limit with
    | faulted fault s =>
      rw [hrun] at h
      cases h
    | stopped signal s rest =>
      rw [hrun] at h
      cases signal with
      | pause i => cases h
      | halt => exact ⟨.halt, s, rest, rfl, fun _ h => Signal.noConfusion h, rfl⟩
      | wait seconds => exact ⟨.wait seconds, s, rest, rfl, fun _ h => Signal.noConfusion h, rfl⟩

end Evaluator

namespace Compiled

variable {registry : Registry} {d : Document} {p : Typed.Program} {level : UInt8} {m : Model}
  {names : Typed.Names} {graph : FlowGraph}

/-- The slots that blocks of a compiled document mention. -/
def extent (p : Typed.Program) (level : UInt8) : Extent :=
  (p.toBlocks.optimize level).extent (Typed.extent p.localCount)

theorem encodable (h : Compiled p level m) : (extent p level).Encodable where
  inputs := show 0x10002 ≤ Word.maxOperand by decide
  outputs := show 0x10002 ≤ Word.maxOperand by decide
  locals := Nat.le_trans h.locals_le (by decide)

theorem within (hp : Typed.Checked registry d p names graph) :
    (p.toBlocks.optimize level).Within (extent p level) :=
  (BlockGraph.optimize_improves False level hp.within fun h => h.elim).2

/-- An evaluation without fault is a walk to the end, which draws the same numbers. -/
theorem evaluate_tape (hp : Typed.Checked registry d p names graph) (h : Compiled p level m)
    (he : e.model = m) (hok : (e.evaluate inputs outputs).fault? = none) :
    ∃ k w, Walk.Runs (p.toBlocks.optimize level) inputs true k
        (.start (p.toBlocks.optimize level) (Array.replicate m.outputSize 0.0) e.random) .halt w ∧
      w.outputs = (e.evaluate inputs outputs).outputs ∧
      w.tape = ⟨(e.evaluate inputs outputs).evaluator.random, e.draws inputs⟩ := by
  subst he
  obtain ⟨A⟩ := h.assembled
  obtain ⟨f⟩ := Model.fitness_of_check h.check
  obtain ⟨hinputs, signal', s, rest, hrun, hpause, heq⟩ := Evaluator.evaluate_ok hok
  have hsafe : e.start.Safe f := ⟨Frame.Safe.start f e.random, Array.size_replicate ..⟩
  obtain ⟨ahead, -, hfollows⟩ := Assembled.Follows.start A (within hp)
    (Array.replicate e.model.outputSize 0.0) e.random
  obtain ⟨k, site, signal, w, hruns, hstopped, hdrawn⟩ :=
    hfollows.run h.encodable (within hp) hinputs hsafe hrun
  rw [heq]
  cases signal with
  | halt =>
    cases signal' with
    | halt =>
      obtain ⟨houtputs, hrandom⟩ := hstopped
      exact ⟨k, w, hruns, houtputs, congr (congrArg Tape.mk hrandom) hdrawn⟩
    | wait seconds | pause i => exact hstopped.elim
  | wait seconds => exact absurd rfl (hruns.ne_wait seconds)
  | pause point =>
    cases signal' with
    | halt | wait seconds => exact hstopped.elim
    | pause i => exact absurd rfl (hpause i)

/-- An evaluation without fault is a walk to the end. -/
theorem evaluate_ok (hp : Typed.Checked registry d p names graph) (h : Compiled p level m)
    (he : e.model = m) (hok : (e.evaluate inputs outputs).fault? = none) :
    ∃ k w, Walk.Runs (p.toBlocks.optimize level) inputs true k
        (.start (p.toBlocks.optimize level) (Array.replicate m.outputSize 0.0) e.random) .halt w ∧
      w.outputs = (e.evaluate inputs outputs).outputs ∧
      w.random = (e.evaluate inputs outputs).evaluator.random := by
  obtain ⟨k, w, hruns, houtputs, htape⟩ := h.evaluate_tape hp he hok
  exact ⟨k, w, hruns, houtputs, congrArg Tape.random htape⟩

end Compiled

namespace Evaluator

/-- Evaluating a document compiled as it is written and evaluating it compiled at any other level
writes the same outputs and draws the same random numbers, if both evaluations end without fault. The
limits of the two may differ. -/
theorem evaluate_of_levels {registry : Registry} {d : Document}
    {plain improved : CompileOptions} (hplain : plain.level = 0) {m m' : Model}
    (hm : compile registry plain d = .ok m) (hm' : compile registry improved d = .ok m')
    {settings settings' : RunSettings} {e e' : Evaluator} (he : Evaluator.new m settings = .ok e)
    (he' : Evaluator.new m' settings' = .ok e') (seed : UInt64) {inputs outputs outputs' : Array Float}
    (hok : ((e.reseed seed).evaluate inputs outputs).fault? = none)
    (hok' : ((e'.reseed seed).evaluate inputs outputs').fault? = none) :
    ((e.reseed seed).evaluate inputs outputs).outputs =
        ((e'.reseed seed).evaluate inputs outputs').outputs ∧
      ((e.reseed seed).evaluate inputs outputs).evaluator.random =
        ((e'.reseed seed).evaluate inputs outputs').evaluator.random := by
  obtain ⟨p, hp, hcompiled⟩ := compile_ok hm
  obtain ⟨p', hp', hcompiled'⟩ := compile_ok hm'
  cases hp.symm.trans hp'
  obtain ⟨names, graph, hchecked⟩ := Typed.check_ok hp
  obtain ⟨-, rfl⟩ := new_ok he
  obtain ⟨-, rfl⟩ := new_ok he'
  have hlevel : plain.clamp.level = 0 := by
    rw [CompileOptions.clamp, hplain]
    rfl
  rw [hlevel] at hcompiled
  obtain ⟨k, w, hruns, houtputs, hrandom⟩ := hcompiled.evaluate_ok hchecked rfl hok
  obtain ⟨k', w', hruns', houtputs', hrandom'⟩ := hcompiled'.evaluate_ok hchecked rfl hok'
  have hsize : m'.outputSize = m.outputSize := by
    rw [Model.outputSize, Model.outputSize, hcompiled.schema, hcompiled'.schema]
  obtain ⟨rel, hrel⟩ :=
    (p.toBlocks.optimize_improves False improved.clamp.level hchecked.within
      fun h => h.elim).1
  obtain ⟨n, v, hruns₂, hv, -⟩ := hrel.run (hrel.start inputs _ _) hruns
  rw [hsize] at hruns'
  obtain ⟨-, rfl⟩ := hruns₂.unique hruns'
  obtain ⟨hsame, hsame'⟩ := hrel.observed hv
  exact ⟨houtputs.symm.trans (hsame.symm.trans houtputs'),
    hrandom.symm.trans (hsame'.symm.trans hrandom')⟩

/-- Two outputs from one product, with a random number and a call between them. -/
def scaling : Document where
  name := "scaling"
  flows := [
    ⟨"main", [.assign {} "sum" (.binary {} .add product (.call {} "random" [])), .call {} "rest",
      .assign {} "product" product], {}⟩,
    ⟨"rest", [.branch {} (.binary {} .lt (.var {} "a") (.var {} "b")) [.wait {} (.var {} "a")]
      [.halt {}]], {}⟩]
where
  product : Expr := .binary {} .mul (.var {} "a") (.var {} "b")

def scalingRegistry : Registry where
  declared := [("a", ⟨.number, .input⟩), ("b", ⟨.number, .input⟩), ("sum", ⟨.number, .output⟩),
    ("product", ⟨.number, .output⟩)]

def scalingModel (localCount : UInt16) (code : Array Word) : Model where
  id := ⟨1⟩
  version := Model.formatVersion
  flags := {}
  maxStack := 2
  maxCallDepth := 1
  localCount := localCount
  entry := 0
  schema := {
    inputs := [⟨"a", .number, 0⟩, ⟨"b", .number, 1⟩]
    outputs := [⟨"sum", .number, 0⟩, ⟨"product", .number, 1⟩] }
  points := #[]
  constants := #[]
  strings := #["a", "b", "sum", "product"]
  code := code
  extends? := none
  debug? := none

/-- The product is computed twice. -/
def plainScaling : Model :=
  scalingModel 0 #[Word.encode .loadInput 0, Word.encode .loadInput 1, Word.encode (.binary .mul) 0,
    Word.encode .random 0, Word.encode (.binary .add) 0, Word.encode .storeOutput 0,
    Word.encode .call 12, Word.encode .loadInput 0, Word.encode .loadInput 1,
    Word.encode (.binary .mul) 0, Word.encode .storeOutput 1, Word.encode .ret 0,
    Word.encode .loadInput 0, Word.encode .loadInput 1, Word.encode (.binary .lt) 0,
    Word.encode .jumpIfFalse 19, Word.encode .loadInput 0, Word.encode .wait 0,
    Word.encode .jump 20, Word.encode .halt 0, Word.encode .ret 0]

/-- The product is computed once and kept. -/
def sharedScaling : Model :=
  scalingModel 1 #[Word.encode .loadInput 0, Word.encode .loadInput 1, Word.encode (.binary .mul) 0,
    Word.encode .storeLocal 0, Word.encode .loadLocal 0, Word.encode .random 0,
    Word.encode (.binary .add) 0, Word.encode .storeOutput 0, Word.encode .call 12,
    Word.encode .loadLocal 0, Word.encode .storeOutput 1, Word.encode .ret 0,
    Word.encode .loadInput 0, Word.encode .loadInput 1, Word.encode (.binary .lt) 0,
    Word.encode .jumpIfFalse 19, Word.encode .loadInput 0, Word.encode .wait 0,
    Word.encode .jump 20, Word.encode .halt 0, Word.encode .ret 0]

theorem evaluate_of_levels_scaling :
    let plain : Evaluator := ⟨plainScaling, 100000, ⟨0⟩⟩
    let shared : Evaluator := ⟨sharedScaling, 100000, ⟨0⟩⟩
    compile scalingRegistry { level := 0, id? := some ⟨1⟩ } scaling = .ok plainScaling ∧
      compile scalingRegistry { level := 3, id? := some ⟨1⟩ } scaling = .ok sharedScaling ∧
      new plainScaling {} = .ok plain ∧ new sharedScaling {} = .ok shared ∧
      ((plain.reseed 7).evaluate #[2.0, 3.0] #[0.0, 0.0]).fault? = none ∧
      ((shared.reseed 7).evaluate #[2.0, 3.0] #[0.0, 0.0]).fault? = none ∧
      ((plain.reseed 7).evaluate #[2.0, 3.0] #[0.0, 0.0]).outputs =
        ((shared.reseed 7).evaluate #[2.0, 3.0] #[0.0, 0.0]).outputs ∧
      ((plain.reseed 7).evaluate #[2.0, 3.0] #[0.0, 0.0]).evaluator.random =
        ((shared.reseed 7).evaluate #[2.0, 3.0] #[0.0, 0.0]).evaluator.random := by
  intro plain shared
  have hplain : compile scalingRegistry { level := 0, id? := some ⟨1⟩ } scaling =
      .ok plainScaling := by cbv
  have hshared : compile scalingRegistry { level := 3, id? := some ⟨1⟩ } scaling =
      .ok sharedScaling := by cbv
  have hnew : new plainScaling {} = .ok plain := by cbv
  have hnew' : new sharedScaling {} = .ok shared := by cbv
  have hok : ((plain.reseed 7).evaluate #[2.0, 3.0] #[0.0, 0.0]).fault? = none := by
    decide +kernel
  have hok' : ((shared.reseed 7).evaluate #[2.0, 3.0] #[0.0, 0.0]).fault? = none := by
    decide +kernel
  exact ⟨hplain, hshared, hnew, hnew', hok, hok',
    evaluate_of_levels rfl hplain hshared hnew hnew' 7 hok hok'⟩

end Evaluator

end Behavior
