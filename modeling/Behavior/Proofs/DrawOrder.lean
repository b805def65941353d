import Behavior.Proofs.Correctness

/-!
Evaluations draw random numbers in the order of the document.

A vector is computed as three numbers, so a condition that draws and decides between vectors is
evaluated before all three and kept. Where such a condition belongs to an alternative of another
choice between vectors, it is evaluated even if that alternative is not taken. Documents without
such conditions draw what they say.
-/

namespace Behavior

namespace Evaluator

/-- An evaluation of a compiled document that ends without fault draws the numbers that the document
draws, in the same order, and leaves the same outputs. This holds at every level and for every limit,
if no condition draws that decides between vectors within another such decision. -/
theorem trace_of_document {registry : Registry} {o : CompileOptions} {d : Document} {m : Model}
    (hm : compile registry o d = .ok m)
    (hsteady : ∀ p, Typed.check registry d = .ok p →
      ∀ flow ∈ p.flows, Typed.Stmt.AllSteady flow.body)
    {settings : RunSettings} {e : Evaluator} (he : Evaluator.new m settings = .ok e) (seed : UInt64)
    {inputs outputs : Array Float}
    (hok : ((e.reseed seed).evaluate inputs outputs).fault? = none) :
    let after := (e.reseed seed).evaluate inputs outputs
    (d.world registry m inputs).traceDocument d (Array.replicate m.outputSize 0.0) ⟨seed⟩ =
      some (after.outputs, ⟨after.evaluator.random, (e.reseed seed).draws inputs⟩) := by
  intro after
  obtain ⟨p, hp, hcompiled⟩ := compile_ok hm
  obtain ⟨names, graph, hchecked⟩ := Typed.check_ok hp
  obtain ⟨-, rfl⟩ := new_ok he
  obtain ⟨k, w, hruns, houtputs, htape⟩ := hcompiled.evaluate_tape hchecked rfl hok
  obtain ⟨σ, ending, hexec, htrace⟩ := hchecked.trace (hcompiled.fits hchecked inputs)
    (Typed.flows_ne_nil_of_check hp) (Array.replicate m.outputSize 0.0) ⟨seed⟩
  obtain ⟨k', signal, w', hruns', hends⟩ :=
    (hchecked.executable_of_steady (hsteady p hp)).ends hexec
  obtain ⟨rel, hrel⟩ :=
    (p.toBlocks.optimize_improves False o.clamp.level hchecked.within fun h => h.elim).1
  obtain ⟨n, v, hruns₂, hv, -⟩ := hrel.run (hrel.start inputs _ _) hruns'
  obtain ⟨rfl, rfl⟩ := hruns₂.unique hruns
  obtain ⟨hsame, hsame'⟩ := hrel.same hv
  -- the evaluation has come to the end, so the document does not stop at a continuation point
  by_cases hpaused : ending = .paused
  · rw [if_pos hpaused] at hends
    obtain ⟨point, hsignal⟩ := hends
    cases hsignal
  · rw [if_neg hpaused] at hends htrace
    obtain ⟨-, houtputs', htape'⟩ := hends
    rw [htrace, ← houtputs', ← htape', ← hsame, ← hsame', houtputs, htape]

/-- The condition of the first choice draws a number, and one alternative another. The second choice
takes the alternative that draws none. -/
def choosing : Document where
  name := "choosing"
  flows := [⟨"main", [
    .assign {} "spot" (.conditional {} (.binary {} .lt random (.var {} "a"))
      (.vector {} [random, .var {} "a", .var {} "b"])
      (.vector {} [.var {} "b", .var {} "b", .var {} "b"])),
    .assign {} "near" (.conditional {} (.binary {} .lt (.var {} "a") (.var {} "b")) (.var {} "a")
      random)], {}⟩]
where
  random : Expr := .call {} "random" []

def choosingRegistry : Registry where
  declared := [("a", ⟨.number, .input⟩), ("b", ⟨.number, .input⟩), ("spot", ⟨.vector3, .output⟩),
    ("near", ⟨.number, .output⟩)]

def choosingSchema : Schema where
  inputs := [⟨"a", .number, 0⟩, ⟨"b", .number, 1⟩]
  outputs := [⟨"spot", .vector3, 0⟩, ⟨"near", .number, 3⟩]

def choosingProgram : Typed.Program where
  flows := [⟨"main", [
    .setOutput {} 0 (.vector (.select (.binary .lt .random (.inputSlot 0))
      (.make .random (.inputSlot 0) (.inputSlot 1))
      (.make (.inputSlot 1) (.inputSlot 1) (.inputSlot 1)))),
    .setOutput {} 3 (.number (.select (.binary .lt (.inputSlot 0) (.inputSlot 1)) (.inputSlot 0)
      .random))], {}⟩]
  schema := choosingSchema
  points := #[]
  strings := #["a", "b", "spot", "near"]
  localCount := 0
  callDepth := 0
  extends? := none

def choosingModel (code : Array Word) : Model where
  id := ⟨1⟩
  version := Model.formatVersion
  flags := {}
  maxStack := 2
  maxCallDepth := 0
  localCount := 1
  entry := 0
  schema := choosingSchema
  points := #[]
  constants := #[]
  strings := #["a", "b", "spot", "near"]
  code := code
  extends? := none
  debug? := none

/-- The condition of the first choice is kept in a local. -/
def keptChoosing : Model :=
  choosingModel #[Word.encode .random 0, Word.encode .loadInput 0, Word.encode (.binary .lt) 0,
    Word.encode .storeLocal 0, Word.encode .loadLocal 0, Word.encode .jumpIfFalse 8,
    Word.encode .random 0, Word.encode .jump 9, Word.encode .loadInput 1,
    Word.encode .storeOutput 0, Word.encode .loadLocal 0, Word.encode .jumpIfFalse 14,
    Word.encode .loadInput 0, Word.encode .jump 15, Word.encode .loadInput 1,
    Word.encode .storeOutput 1, Word.encode .loadLocal 0, Word.encode .jumpIfFalse 20,
    Word.encode .loadInput 1, Word.encode .jump 21, Word.encode .loadInput 1,
    Word.encode .storeOutput 2, Word.encode .loadInput 0, Word.encode .loadInput 1,
    Word.encode (.binary .lt) 0, Word.encode .jumpIfFalse 28, Word.encode .loadInput 0,
    Word.encode .jump 29, Word.encode .random 0, Word.encode .storeOutput 3, Word.encode .ret 0]

theorem trace_of_document_choosing :
    let e : Evaluator := ⟨keptChoosing, 100000, ⟨0⟩⟩
    let zeros : Array Float := Array.replicate keptChoosing.outputSize 0.0
    let after := (e.reseed 7).evaluate #[2.0, 3.0] zeros
    compile choosingRegistry { level := 3, id? := some ⟨1⟩ } choosing = .ok keptChoosing ∧
      Typed.check choosingRegistry choosing = .ok choosingProgram ∧
      (∀ flow ∈ choosingProgram.flows, Typed.Stmt.AllSteady flow.body) ∧
      new keptChoosing {} = .ok e ∧ after.fault? = none ∧
      ((e.reseed 7).draws #[2.0, 3.0]).length = 2 ∧
      (choosing.world choosingRegistry keptChoosing #[2.0, 3.0]).traceDocument choosing zeros ⟨7⟩ =
        some (after.outputs, ⟨after.evaluator.random, (e.reseed 7).draws #[2.0, 3.0]⟩) := by
  intro e zeros after
  have hm : compile choosingRegistry { level := 3, id? := some ⟨1⟩ } choosing =
      .ok keptChoosing := by cbv
  have hcheck : Typed.check choosingRegistry choosing = .ok choosingProgram := by cbv
  have hsteady : ∀ flow ∈ choosingProgram.flows, Typed.Stmt.AllSteady flow.body :=
    List.forall_mem_singleton.2 ⟨⟨trivial, trivial⟩, trivial, trivial⟩
  have hnew : new keptChoosing {} = .ok e := rfl
  have hok : after.fault? = none := by decide +kernel
  refine ⟨hm, hcheck, hsteady, hnew, hok, by decide +kernel, ?_⟩
  refine trace_of_document hm (fun p hp => ?_) hnew 7 hok
  cases hcheck.symm.trans hp
  exact hsteady

/-- The condition of the inner choice draws a number, even though the outer one can pass it over. -/
def passingOver : Document where
  name := "passingOver"
  flows := [⟨"main", [
    .assign {} "spot" (.conditional {} (.binary {} .lt (.var {} "a") (.var {} "b"))
      (.conditional {} (.binary {} .lt choosing.random (.var {} "a"))
        (.vector {} [.var {} "a", .var {} "a", .var {} "a"])
        (.vector {} [.var {} "b", .var {} "b", .var {} "b"]))
      (.vector {} [.var {} "a", .var {} "b", .var {} "a"])),
    .assign {} "near" choosing.random], {}⟩]

def keptPassingOver : Model :=
  choosingModel #[Word.encode .random 0, Word.encode .loadInput 0, Word.encode (.binary .lt) 0,
    Word.encode .storeLocal 0, Word.encode .loadInput 0, Word.encode .loadInput 1,
    Word.encode (.binary .lt) 0, Word.encode .jumpIfFalse 14, Word.encode .loadLocal 0,
    Word.encode .jumpIfFalse 12, Word.encode .loadInput 0, Word.encode .jump 13,
    Word.encode .loadInput 1, Word.encode .jump 15, Word.encode .loadInput 0,
    Word.encode .storeOutput 0, Word.encode .loadInput 0, Word.encode .loadInput 1,
    Word.encode (.binary .lt) 0, Word.encode .jumpIfFalse 26, Word.encode .loadLocal 0,
    Word.encode .jumpIfFalse 24, Word.encode .loadInput 0, Word.encode .jump 25,
    Word.encode .loadInput 1, Word.encode .jump 27, Word.encode .loadInput 1,
    Word.encode .storeOutput 1, Word.encode .loadInput 0, Word.encode .loadInput 1,
    Word.encode (.binary .lt) 0, Word.encode .jumpIfFalse 38, Word.encode .loadLocal 0,
    Word.encode .jumpIfFalse 36, Word.encode .loadInput 0, Word.encode .jump 37,
    Word.encode .loadInput 1, Word.encode .jump 39, Word.encode .loadInput 0,
    Word.encode .storeOutput 2, Word.encode .random 0, Word.encode .storeOutput 3,
    Word.encode .ret 0]

/-- The document draws one number, its evaluation two, and the output that is drawn differs. -/
theorem draws_passingOver :
    let e : Evaluator := ⟨keptPassingOver, 100000, ⟨7⟩⟩
    let zeros : Array Float := Array.replicate keptPassingOver.outputSize 0.0
    let after := e.evaluate #[3.0, 2.0] zeros
    let x := (Random.mk 7).next
    let y := x.2.next
    compile choosingRegistry { level := 0, id? := some ⟨1⟩ } passingOver = .ok keptPassingOver ∧
      after.fault? = none ∧ e.draws #[3.0, 2.0] = [x.1, y.1] ∧
      after.outputs = #[3.0, 2.0, 3.0, y.1] ∧
      (passingOver.world choosingRegistry keptPassingOver #[3.0, 2.0]).traceDocument passingOver
        zeros ⟨7⟩ = some (#[3.0, 2.0, 3.0, x.1], ⟨x.2, [x.1]⟩) ∧ x.1 ≠ y.1 := by
  intro e zeros after x y
  have hm : compile choosingRegistry { level := 0, id? := some ⟨1⟩ } passingOver =
      .ok keptPassingOver := by cbv
  refine ⟨hm, by decide +kernel, by decide +kernel, by decide +kernel, ?_, by decide +kernel⟩
  decide +kernel

end Evaluator

end Behavior
