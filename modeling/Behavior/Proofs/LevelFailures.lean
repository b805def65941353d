import Behavior.Proofs.CodeLengths
import Behavior.Proofs.StackNeeds
import Behavior.Proofs.Termination

/-!
What fails at a level although nothing fails without passes. The first two levels turn no success
into a failure: they use the same locals and no deeper stack, and neither make code longer nor take
more instructions. The third level keeps repeated values in locals of their own, which it computes
ahead of time, whether they are needed or not. It may run out of locals, out of room for code, or
out of instructions, and out of nothing else.
-/

namespace Behavior

variable {m : Model} {g : BlockGraph} {registry : Registry} {d : Document} {o : CompileOptions}
variable {id : ModelId} {m' : Model} {n : Nat} {entered ahead : List Nat}

/-! ## Pauses -/

def Exit.pauses : Exit → Bool
  | .pause _ _ => true
  | _ => false

namespace Exit

theorem pauses_mapValue (e : Exit) (f : Scalar → Scalar) : (e.mapValue f).pauses = e.pauses := by
  cases e <;> rfl

theorem pauses_retarget (e : Exit) (f : Nat → Nat) : (e.retarget f).pauses = e.pauses := by
  cases e <;> rfl

theorem pauses_settle (e : Exit) : e.settle.pauses = e.pauses := by
  unfold settle
  split <;> rfl

theorem pauses_merge (e : Exit) : e.merge.pauses = e.pauses := by
  unfold merge
  split
  · split <;> rfl
  · rfl

end Exit

namespace BlockGraph

variable {g g' : BlockGraph}

/-- No block that has code pauses. -/
def Pauseless (g : BlockGraph) : Prop :=
  ∀ i ∈ g.layout, (g.block i).exit.pauses = false

theorem Pauseless.of_blocks (h : g.Pauseless) (hlayout : g'.layout ⊆ g.layout)
    (hexit : ∀ i, (g'.block i).exit.pauses = (g.block i).exit.pauses) : g'.Pauseless :=
  fun i hi => (hexit i).trans (h i (hlayout hi))

theorem Pauseless.fold (h : g.Pauseless) : g.fold.Pauseless := by
  refine h.of_blocks (List.Subset.refl _) fun i => ?_
  rw [g.block_fold]
  exact Exit.pauses_mapValue ..

theorem Pauseless.simplify (h : g.Pauseless) : g.simplify.Pauseless := by
  have hsettled : g.fold.settleBranches.Pauseless := by
    refine h.fold.of_blocks (List.Subset.refl _) fun i => ?_
    rw [block_settleBranches]
    exact Exit.pauses_settle _
  refine hsettled.of_blocks ?_ fun i => ?_
  · rw [BlockGraph.simplify, layout_dropUnreachable]
    exact List.filter_subset_self _
  · show (g.fold.settleBranches.threadJumps.block i).exit.pauses = _
    rw [block_threadJumps]
    exact (Exit.pauses_merge _).trans (Exit.pauses_retarget ..)

theorem Pauseless.share (h : g.Pauseless) : g.share.Pauseless := by
  refine share_induction (fun {g k value} h _ => ?_) h
  refine h.of_blocks (List.Subset.refl _) fun i => ?_
  rcases g.block_shareAt k i g.localCount value with hplain | ⟨rfl, hshared⟩
  · rw [hplain]
  · rw [hshared]
    exact Exit.pauses_mapValue ..

theorem Pauseless.optimize (h : g.Pauseless) (level : UInt8) : (g.optimize level).Pauseless := by
  rcases optimize_cases level g with heq | heq | heq | ⟨-, heq⟩ <;> rw [heq]
  exacts [h, h.fold, h.simplify, h.simplify.share]

end BlockGraph

/-- Every pause in the code has a continuation point. -/
theorem Assembled.pauseless {points : Array Typed.Point} (A : Assembled m g points)
    {rank : Nat → Nat} (hg : g.Onward rank) (hpoints : m.points = #[]) :
    g.Pauseless := by
  have hlayout : ∀ {layout : List Nat} {pos : Nat},
      Assembly.LayoutAt A.emitted g points pos layout →
      ∀ i ∈ layout, (g.block i).exit.pauses = false := by
    intro layout
    induction layout with
    | nil => exact fun _ i hi => absurd hi List.not_mem_nil
    | cons block rest ih =>
      rintro pos ⟨stop, ⟨mid, -, hexit⟩, hrest⟩
      refine List.forall_mem_cons.2 ⟨?_, ih hrest⟩
      cases hblock : (g.block block).exit with
      | pause point defaultBlock =>
        rw [hblock] at hexit
        obtain ⟨index, -, hpoint, -⟩ := hexit
        obtain ⟨q, -, hq, -⟩ := A.point hpoint
        rw [hpoints] at hq
        cases hq
      | _ => rfl
  obtain ⟨rest, hrest, hat⟩ := A.entry
  obtain ⟨rest', hfirst⟩ := List.head?_eq_some_iff.1 hg.first
  have hwhole : g.layout = BlockGraph.entry :: rest := by
    have hsuffix : BlockGraph.entry :: rest' <:+ g.layout := ⟨[], hfirst.symm⟩
    rw [hfirst, eq_of_suffix_of_nodup hg.nodup hsuffix hrest]
  exact fun i hi => hlayout hat i (hwhole ▸ hi)

/-- Without a pause nothing is made a continuation point. -/
theorem Assembly.points_emission (h : g.Pauseless) (points : Array Typed.Point) :
    (emission g points).points = #[] := by
  have hlasting : Lasting fun s => s.points = #[] := {
    item := fun _ _ hs => hs
    const := fun _ _ hs => hs
    mark := fun span s hs => (mark_unchanged span s).2.2.1.trans hs
    begin := fun _ _ _ hs => hs }
  refine hlasting.emitBlocks (fun i hi point defaultBlock hexit => ?_) _ rfl
  have hpauses := h i hi
  rw [hexit] at hpauses
  cases hpauses

/-! ## Compiling -/

namespace Typed

variable {registry : Registry} {d : Document} {p : Program} {names : Names} {graph : FlowGraph}

theorem Program.toModel_sizes {o : CompileOptions} {m : Model} (h : p.toModel o id = .ok m) :
    let g := p.toBlocks.optimize o.level
    (g.labels g.layout).length ≤ Word.maxOperand ∧ p.strings.size ≤ Word.maxOperand ∧
      m.points.size = (Assembly.emission g p.points).points.size := by
  obtain ⟨-, a, depth, ha, rfl, -⟩ := Program.toModel_eq h
  obtain ⟨⟨hcode, -, hstrings, -⟩, -, -, hplaced, -⟩ := Assembly.ofBlocks_ok ha
  rw [Assembly.size_emission] at hcode
  exact ⟨hcode, hstrings, mapM_array_size hplaced⟩

/-- What can be wrong at a level: the third one may need more locals or more code than there is room
for. -/
inductive Outgrown (g : BlockGraph) : Problem → Prop
  | locals (h : 0xffff < g.localCount) : Outgrown g (.tooManyLocals g.localCount)
  | code (h : Word.maxOperand < (g.labels g.layout).length) :
      Outgrown g (.tableTooLarge .code (g.labels g.layout).length)

/-- If a document has a model without passes, it has one at every level, except that it may outgrow
its model at the third. -/
theorem Checked.toModel_of_plain (h : Checked registry d p names graph) {plain o : CompileOptions}
    (hplain : plain.level = 0) {id' : ModelId} {m : Model} (hm : p.toModel plain id = .ok m) :
    (∃ m', p.toModel o id' = .ok m') ∨
      3 ≤ o.level ∧ ∃ cause, p.toModel o id' = .error cause ∧
        Outgrown (p.toBlocks.optimize o.level) cause := by
  have hcompiled := Program.toModel_ok hm
  obtain ⟨hcode, hstrings, -⟩ := Program.toModel_sizes hm
  rw [hplain] at hcompiled hcode
  obtain ⟨A⟩ := hcompiled.assembled
  obtain ⟨f⟩ := Model.fitness_of_check hcompiled.check
  have hlocals : p.toBlocks.localCount ≤ 0xffff := hcompiled.locals_le
  have hwithin : (p.toBlocks.optimize 0).Within (Compiled.extent p 0) := Compiled.within h
  have hshallow : p.toBlocks.Shallow := A.shallow f hcompiled.encodable hwithin
  obtain ⟨rank, honward⟩ := h.onward
  rcases h.toModel_or_oversized o id' with ⟨m', hm', -⟩ | ⟨cause, herror, hoversized⟩
  · exact .inl ⟨m', hm'⟩
  -- below the third level nothing has grown
  have hthird (hle : (p.toBlocks.optimize o.level).localCount ≤ 0xffff →
      Word.maxOperand < ((p.toBlocks.optimize o.level).labels
        (p.toBlocks.optimize o.level).layout).length) : 3 ≤ o.level := by
    rcases p.toBlocks.optimize_cases o.level with heq | heq | heq | ⟨hlevel, -⟩
    · rw [heq] at hle
      exact absurd hcode (Nat.not_le.2 (hle hlocals))
    · rw [heq] at hle
      exact absurd (Nat.le_trans p.toBlocks.length_fold hcode) (Nat.not_le.2 (hle hlocals))
    · rw [heq] at hle
      exact absurd (Nat.le_trans honward.length_simplify hcode) (Nat.not_le.2 (hle hlocals))
    · exact hlevel
  cases hoversized with
  | locals hlt =>
    exact .inr ⟨hthird fun hle => absurd hlt (Nat.not_lt.2 hle), _, herror, .locals hlt⟩
  | code hlt => exact .inr ⟨hthird fun _ => hlt, _, herror, .code hlt⟩
  | strings hlt => exact absurd hstrings (Nat.not_le.2 hlt)
  | stack hi he hlt => exact absurd (hshallow.optimize o.level _ hi _ he) (Nat.not_le.2 hlt)

end Typed

/-! ## Evaluating -/

namespace BlockGraph

variable {g : BlockGraph} {rank : Nat → Nat}

theorem Onward.nodup_optimize (hg : g.Onward rank) (level : UInt8) :
    (g.optimize level).layout.Nodup := by
  have hsimple : g.simplify.layout.Nodup := by
    rw [simplify, layout_dropUnreachable]
    exact hg.nodup.filter _
  rcases optimize_cases level g with heq | heq | heq | ⟨-, heq⟩ <;> rw [heq]
  · exact hg.nodup
  · exact hg.nodup
  · exact hsimple
  · exact share_induction (P := fun g => g.layout.Nodup) (fun h _ => h) hsimple

end BlockGraph

/-- Below the third level a walk takes no more instructions than without passes. -/
theorem Walk.Spends.optimize {rank : Nat → Nat} {inputs outputs : Array Float} {random : Random}
    (hg : g.Onward rank) (hahead : BlockGraph.entry :: ahead <:+ g.layout)
    (h : Spends g inputs n entered ⟨ahead, []⟩ (.start g outputs random)) {level : UInt8}
    (hlevel : level < 3) :
    ∃ n' ahead' entered', n' ≤ n ∧ BlockGraph.entry :: ahead' <:+ (g.optimize level).layout ∧
      Spends (g.optimize level) inputs n' entered' ⟨ahead', []⟩
        (.start (g.optimize level) outputs random) := by
  rcases g.optimize_cases level with heq | heq | heq | ⟨hthird, -⟩
  · rw [heq]
    exact ⟨n, ahead, entered, Nat.le_refl _, hahead, h⟩
  · rw [heq]
    obtain ⟨n', hle, h'⟩ := h.fold
    have hstart : (Walk.start g outputs random).map (·.mapValues Scalar.fold) =
        .start g.fold outputs random := by
      rw [Walk.start, Walk.start, g.block_fold]
      rfl
    rw [hstart] at h'
    exact ⟨n', ahead, entered, hle, hahead, h'⟩
  · rw [heq]
    exact h.simplify hg hahead
  · exact absurd hthird (UInt8.not_le.2 hlevel)

namespace Compiled

variable {registry : Registry} {d : Document} {p : Typed.Program} {names : Typed.Names}
  {graph : FlowGraph} {level : UInt8} {m : Model} {e : Evaluator} {inputs outputs : Array Float}

theorem spends (hp : Typed.Checked registry d p names graph) (h : Compiled p level m)
    (he : e.model = m) (hok : (e.evaluate inputs outputs).fault? = none) :
    ∃ n ≤ e.limit, ∃ ahead entered,
      BlockGraph.entry :: ahead <:+ (p.toBlocks.optimize level).layout ∧
      Walk.Spends (p.toBlocks.optimize level) inputs n entered ⟨ahead, []⟩
        (.start (p.toBlocks.optimize level) (Array.replicate m.outputSize 0.0) e.random) := by
  obtain ⟨k, w, hruns, -⟩ := h.evaluate_ok hp he hok
  subst he
  obtain ⟨A⟩ := h.assembled
  obtain ⟨f⟩ := Model.fitness_of_check h.check
  obtain ⟨hinputs, signal, s, rest, hrun, -⟩ := Evaluator.evaluate_ok hok
  have hsafe : e.start.Safe f := ⟨Frame.Safe.start f e.random, Array.size_replicate ..⟩
  obtain ⟨ahead, hahead, hfollows⟩ := Assembled.Follows.start A (within hp)
    (Array.replicate e.model.outputSize 0.0) e.random
  obtain ⟨n, hle, entered, hspends⟩ :=
    hfollows.spends h.encodable (within hp) hinputs hsafe hruns hrun
  exact ⟨n, hle, ahead, entered, hahead, hspends⟩

theorem evaluate_of_spends (hp : Typed.Checked registry d p names graph) (h : Compiled p level m)
    (hnodup : (p.toBlocks.optimize level).layout.Nodup) (he : e.model = m)
    (hsizes : m.checkVectors inputs outputs = .ok ())
    (hahead : BlockGraph.entry :: ahead <:+ (p.toBlocks.optimize level).layout)
    (hspends : Walk.Spends (p.toBlocks.optimize level) inputs n entered ⟨ahead, []⟩
      (.start (p.toBlocks.optimize level) (Array.replicate m.outputSize 0.0) e.random))
    (hle : n ≤ e.limit) : (e.evaluate inputs outputs).fault? = none := by
  subst he
  obtain ⟨A⟩ := h.assembled
  obtain ⟨f⟩ := Model.fitness_of_check h.check
  have hsafe : e.start.Safe f := ⟨Frame.Safe.start f e.random, Array.size_replicate ..⟩
  obtain ⟨ahead', hahead', hfollows⟩ := Assembled.Follows.start A (within hp)
    (Array.replicate e.model.outputSize 0.0) e.random
  obtain rfl := eq_of_suffix_of_nodup hnodup hahead hahead'
  obtain ⟨t, rest, hrun⟩ := hfollows.run_of_spends h.encodable (within hp)
    (Evaluator.checkVectors_eq_ok.1 hsizes).1 hsafe hnodup hspends hle e.limit
  rw [Evaluator.evaluate_eq hsizes]
  show (e.ofOutcome (e.start.run e.model inputs e.limit true e.limit)).fault? = none
  rw [show e.start.run e.model inputs e.limit true e.limit = .stopped .halt t rest from hrun]
  rfl

/-- An evaluation that has no fault without passes has none below the third level. -/
theorem evaluate_of_plain (hp : Typed.Checked registry d p names graph) (h : Compiled p 0 m)
    (h' : Compiled p level m') (hlevel : level < 3) {e' : Evaluator} (he : e.model = m)
    (he' : e'.model = m') (hrandom : e'.random = e.random) (hlimit : e.limit ≤ e'.limit)
    {outputs' : Array Float} (hsize : outputs'.size = m.outputSize)
    (hok : (e.evaluate inputs outputs).fault? = none) :
    (e'.evaluate inputs outputs').fault? = none := by
  obtain ⟨rank, honward⟩ := hp.onward
  obtain ⟨n, hle, ahead, entered, hahead, hspends⟩ := h.spends hp he hok
  have hschema : m'.schema = m.schema := h'.schema.trans h.schema.symm
  have houtputs : m'.outputSize = m.outputSize := congrArg Schema.outputSize hschema
  have hinputs : inputs.size = m'.inputSize := by
    rw [(Evaluator.evaluate_ok hok).1, he]
    exact (congrArg Schema.inputSize hschema).symm
  obtain ⟨n', ahead', entered', hle', hahead', hspends'⟩ :=
    hspends.optimize honward hahead hlevel
  rw [← hrandom, ← houtputs] at hspends'
  exact h'.evaluate_of_spends hp (honward.nodup_optimize level) he'
    (Evaluator.checkVectors_eq_ok.2 ⟨hinputs, hsize.trans houtputs.symm⟩) hahead' hspends'
    (Nat.le_trans hle' (Nat.le_trans hle hlimit))

end Compiled

/-! ## Compiling and evaluating -/

/-- Without a pause no continuation points are left in the model at any level. -/
theorem Typed.Checked.points_of_plain {p : Typed.Program} {names : Typed.Names} {graph : FlowGraph}
    (h : Typed.Checked registry d p names graph) (hm : Compiled p 0 m) (hpoints : m.points = #[])
    (hm' : p.toModel o id = .ok m') : m'.points = #[] := by
  obtain ⟨rank, honward⟩ := h.onward
  obtain ⟨A⟩ := hm.assembled
  obtain ⟨-, -, hsize⟩ := Typed.Program.toModel_sizes hm'
  have hpauseless : p.toBlocks.Pauseless := A.pauseless honward hpoints
  rw [Assembly.points_emission (hpauseless.optimize o.level)] at hsize
  exact Array.eq_empty_of_size_eq_zero hsize

theorem compile_eq_of_check {p : Typed.Program} (h : Typed.check registry d = .ok p)
    (o : CompileOptions) :
    compile registry o d = match p.toModel o.clamp (o.clamp.id?.getD (.ofName d.name)) with
      | .ok m => .ok m
      | .error cause => .error [⟨cause, {}⟩] := by
  rw [compile, h]
  rfl

theorem toModel_of_compile (h : compile registry o d = .ok m) :
    ∃ p id, Typed.check registry d = .ok p ∧ p.toModel o.clamp id = .ok m := by
  obtain ⟨p, hp, -⟩ := compile_ok h
  refine ⟨p, o.clamp.id?.getD (.ofName d.name), hp, ?_⟩
  rw [compile_eq_of_check hp] at h
  split at h
  · next hm =>
    cases h
    exact hm
  · cases h

theorem CompileOptions.clamp_of_plain (h : o.level = 0) :
    o.clamp.level = 0 := by
  rw [clamp, h]
  rfl

theorem CompileOptions.three_le_clamp : 3 ≤ o.clamp.level ↔ 3 ≤ o.level := by
  show 3 ≤ (if o.level ≤ maxLevel then o.level else maxLevel) ↔ _
  split
  · exact Iff.rfl
  · next h => exact iff_of_true (by decide) (UInt8.le_of_lt (UInt8.not_le.1 h))

namespace Evaluator

/-- If a document compiles as it is written, it compiles at any level, unless the third one needs
more locals or code than there is room for. An evaluation that has no fault as written has none at
the first two levels, under any limit that is no smaller. At the third it can only reach the limit,
and does not if the limit allows for the longest run of the model. -/
theorem succeeds_of_plain {registry : Registry} {d : Document} {plain improved : CompileOptions}
    (hplain : plain.level = 0) {m : Model} (hm : compile registry plain d = .ok m) :
    ((∃ m', compile registry improved d = .ok m') ∨
      3 ≤ improved.level ∧ ∃ size,
        0xffff < size ∧ compile registry improved d = .error [⟨.tooManyLocals size, {}⟩] ∨
        Word.maxOperand < size ∧
          compile registry improved d = .error [⟨.tableTooLarge .code size, {}⟩]) ∧
    ∀ m', compile registry improved d = .ok m' →
      ∃ longest, m'.FinishesWithin longest ∧ ∀ settings settings' e,
        new m settings = .ok e → ∃ e', new m' settings' = .ok e' ∧
          ∀ seed inputs outputs outputs', outputs'.size = m.outputSize →
            ((e.reseed seed).evaluate inputs outputs).fault? = none →
            (improved.level < 3 ∧ settings.instructionLimit ≤ settings'.instructionLimit ∨
                longest ≤ settings'.instructionLimit.toNat →
              ((e'.reseed seed).evaluate inputs outputs').fault? = none) ∧
            ((e'.reseed seed).evaluate inputs outputs').fault? ∈
              [none, some (.instructionLimit settings'.instructionLimit.toNat)] := by
  obtain ⟨p, id, hp, hmodel⟩ := toModel_of_compile hm
  obtain ⟨names, graph, hchecked⟩ := Typed.check_ok hp
  have hlevel := CompileOptions.clamp_of_plain hplain
  have hcompiled : Compiled p 0 m := hlevel ▸ Typed.Program.toModel_ok hmodel
  constructor
  · rw [compile_eq_of_check hp]
    rcases hchecked.toModel_of_plain hlevel hmodel (o := improved.clamp) with
      ⟨m', hm'⟩ | ⟨hthird, cause, herror, houtgrown⟩
    · exact .inl ⟨m', by rw [hm']⟩
    · refine .inr ⟨CompileOptions.three_le_clamp.1 hthird, ?_⟩
      rw [herror]
      cases houtgrown with
      | locals hlt => exact ⟨_, .inl ⟨hlt, rfl⟩⟩
      | code hlt => exact ⟨_, .inr ⟨hlt, rfl⟩⟩
  · intro m' hm'
    obtain ⟨p', id', hp', hmodel'⟩ := toModel_of_compile hm'
    cases hp.symm.trans hp'
    have hcompiled' := Typed.Program.toModel_ok hmodel'
    obtain ⟨longest, hlongest⟩ := hcompiled'.finishes hp
    refine ⟨longest, hlongest, fun settings settings' e hnew => ?_⟩
    obtain ⟨hpoints, rfl⟩ := new_ok hnew
    have hpoints' := hchecked.points_of_plain hcompiled hpoints hmodel'
    refine ⟨⟨m', settings'.instructionLimit.toNat, ⟨settings'.seed⟩⟩, ?_, ?_⟩
    · rw [new, if_neg]
      simp [Model.hasPoints, hpoints']
    intro seed inputs outputs outputs' hsize hok
    have hschema : m'.schema = m.schema := hcompiled'.schema.trans hcompiled.schema.symm
    have hfits : m'.checkVectors inputs outputs' = .ok () := by
      refine checkVectors_eq_ok.2 ⟨?_, hsize.trans (congrArg Schema.outputSize hschema).symm⟩
      exact (evaluate_ok hok).1.trans (congrArg Schema.inputSize hschema).symm
    constructor
    · rintro (⟨hlow, hlimit⟩ | hlimit)
      · have hlow : improved.clamp.level < 3 :=
          UInt8.not_le.1 fun hthird => UInt8.not_le.2 hlow (CompileOptions.three_le_clamp.1 hthird)
        refine hcompiled.evaluate_of_plain hchecked hcompiled' hlow rfl ?_ ?_ ?_ hsize hok
        · rfl
        · rfl
        · exact UInt32.le_iff_toNat_le.1 hlimit
      · exact evaluate_of_finishesWithin (e := ⟨m', _, _⟩) hcompiled'.check hpoints' hlongest hlimit
          hfits
    · obtain ⟨f⟩ := Model.fitness_of_check hcompiled'.check
      exact List.mem_pair.2 (fault?_of_fitness (e := ⟨m', _, _⟩) f hpoints' hfits)

/-- Adds a product to itself, but only if one input is below the other. -/
def gated : Document where
  name := "gated"
  flows := [⟨"main", [.assign {} "out"
    (.conditional {} (.binary {} .lt (.var {} "a") (.var {} "b"))
      (.binary {} .add product product) (.var {} "a"))], {}⟩]
where
  product : Expr := .binary {} .mul (.var {} "a") (.var {} "b")

def gatedRegistry : Registry where
  declared := [("a", ⟨.number, .input⟩), ("b", ⟨.number, .input⟩), ("out", ⟨.number, .output⟩)]

def gatedModel (maxStack localCount : UInt16) (code : Array Word) : Model where
  id := ⟨1⟩
  version := Model.formatVersion
  flags := {}
  maxStack := maxStack
  maxCallDepth := 0
  localCount := localCount
  entry := 0
  schema := {
    inputs := [⟨"a", .number, 0⟩, ⟨"b", .number, 1⟩]
    outputs := [⟨"out", .number, 0⟩] }
  points := #[]
  constants := #[]
  strings := #["a", "b", "out"]
  code := code
  extends? := none
  debug? := none

/-- The products are computed where they are used. -/
def plainGated : Model :=
  gatedModel 3 0 #[Word.encode .loadInput 0, Word.encode .loadInput 1, Word.encode (.binary .lt) 0,
    Word.encode .jumpIfFalse 12, Word.encode .loadInput 0, Word.encode .loadInput 1,
    Word.encode (.binary .mul) 0, Word.encode .loadInput 0, Word.encode .loadInput 1,
    Word.encode (.binary .mul) 0, Word.encode (.binary .add) 0, Word.encode .jump 13,
    Word.encode .loadInput 0, Word.encode .storeOutput 0, Word.encode .ret 0]

/-- The product is computed once, before it is known whether it is used. -/
def sharedGated : Model :=
  gatedModel 2 1 #[Word.encode .loadInput 0, Word.encode .loadInput 1, Word.encode (.binary .mul) 0,
    Word.encode .storeLocal 0, Word.encode .loadInput 0, Word.encode .loadInput 1,
    Word.encode (.binary .lt) 0, Word.encode .jumpIfFalse 12, Word.encode .loadLocal 0,
    Word.encode .loadLocal 0, Word.encode (.binary .add) 0, Word.encode .jump 13,
    Word.encode .loadInput 0, Word.encode .storeOutput 0, Word.encode .ret 0]

/-- Seven instructions are enough as written. They are not at the third level. -/
theorem fault?_gated :
    let plain : Evaluator := ⟨plainGated, 7, ⟨0⟩⟩
    let shared : Evaluator := ⟨sharedGated, 7, ⟨0⟩⟩
    compile gatedRegistry { level := 0, id? := some ⟨1⟩ } gated = .ok plainGated ∧
      compile gatedRegistry { level := 3, id? := some ⟨1⟩ } gated = .ok sharedGated ∧
      new plainGated { instructionLimit := 7 } = .ok plain ∧
      new sharedGated { instructionLimit := 7 } = .ok shared ∧
      (plain.evaluate #[2.0, 1.0] #[0.0]).fault? = none ∧
      (shared.evaluate #[2.0, 1.0] #[0.0]).fault? = some (.instructionLimit 7) := by
  refine ⟨by cbv, by cbv, by cbv, by cbv, by decide +kernel, by decide +kernel⟩

/-- Seven instructions are enough at the second level, which leaves the code as it is. -/
theorem succeeds_of_plain_gated :
    let plain : Evaluator := ⟨plainGated, 7, ⟨0⟩⟩
    compile gatedRegistry { level := 0, id? := some ⟨1⟩ } gated = .ok plainGated ∧
      compile gatedRegistry { level := 2, id? := some ⟨1⟩ } gated = .ok plainGated ∧
      new plainGated { instructionLimit := 7 } = .ok plain ∧
      ((plain.reseed 3).evaluate #[2.0, 1.0] #[0.0]).fault? = none ∧
      ∃ simple, new plainGated { instructionLimit := 7 } = .ok simple ∧
        ((simple.reseed 3).evaluate #[2.0, 1.0] #[5.0]).fault? = none := by
  have hplain : compile gatedRegistry { level := 0, id? := some ⟨1⟩ } gated = .ok plainGated := by
    cbv
  have hsimple : compile gatedRegistry { level := 2, id? := some ⟨1⟩ } gated = .ok plainGated := by
    cbv
  have hnew : new plainGated { instructionLimit := 7 } = .ok ⟨plainGated, 7, ⟨0⟩⟩ := by cbv
  have hok : (((⟨plainGated, 7, ⟨0⟩⟩ : Evaluator).reseed 3).evaluate #[2.0, 1.0] #[0.0]).fault? =
      none := by decide +kernel
  obtain ⟨_, -, hevaluates⟩ := (succeeds_of_plain rfl hplain).2 plainGated hsimple
  obtain ⟨simple, hsimple', hsame⟩ := hevaluates _ { instructionLimit := 7 } _ hnew
  refine ⟨hplain, hsimple, hnew, hok, simple, hsimple', ?_⟩
  exact (hsame 3 _ _ _ rfl hok).1 (.inl ⟨by decide, by decide⟩)

end Evaluator

end Behavior
