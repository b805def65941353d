import Behavior.Evaluator
import Behavior.Proofs.Fitness

/-!
A model that is fit to run has no faults of its own making.

The invariant of a running machine follows the two analyses of the check. The operand stack is as
deep as the label of the current offset says. The current offset belongs to a routine whose rank
leaves room for the calls it can still make, and so does every offset there is to come back to.
-/

namespace Behavior

variable {m : Model}

theorem exists_two_cons {α : Type} {l : List α} (h : 2 ≤ l.length) :
    ∃ a b rest, l = a :: b :: rest := by
  match l, h with
  | a :: b :: rest, _ => exact ⟨a, b, rest, rfl⟩

theorem exists_three_cons {α : Type} {l : List α} (h : 3 ≤ l.length) :
    ∃ a b c rest, l = a :: b :: c :: rest := by
  match l, h with
  | a :: b :: c :: rest, _ => exact ⟨a, b, c, rest, rfl⟩

/-! ## The invariant -/

/-- An offset of a routine that has rank enough left below `nested` calls. -/
def Fitness.Placed (f : Fitness m) (offset nested : Nat) : Prop :=
  ∃ routine r, Relation.ReflTransGen (CallDepth.Moves m.code m.points) routine offset ∧
    f.rank routine = some r ∧
    r + nested ≤ m.maxCallDepth.toNat

/-- Offsets to come back to, the innermost first. -/
def Fitness.Returns (f : Fitness m) : List Nat → Prop
  | [] => True
  | back :: rest => f.label back = some 0 ∧ f.Placed back rest.length ∧ f.Returns rest

/-- A frame that a fit model can have. -/
structure Frame.Safe (f : Fitness m) (s : Frame) : Prop where
  depth : f.label s.ip = some s.stack.length
  placed : f.Placed s.ip s.calls.length
  returns : f.Returns s.calls
  locals : s.locals.size = m.localCount.toNat

/-- A machine that runs a fit model. -/
structure Machine.Safe (f : Fitness m) (s : Machine) : Prop extends Frame.Safe f s.toFrame where
  outputs : s.outputs.size = m.outputSize

/-- What an instruction of a fit model may do: no fault, and whatever goes on is safe again. A pause
goes on at its default offset. -/
def Reaction.Safe (f : Fitness m) : Reaction → Prop
  | .next s => s.Safe f
  | .stop .halt s => s.outputs.size = m.outputSize
  | .stop (.wait _) s => s.Safe f
  | .stop (.pause point) s =>
    ∃ p, m.points[point]? = some p ∧ Machine.Safe f { s with ip := p.defaultOffset.toNat }
  | .fault _ _ => False

theorem Frame.Safe.start (f : Fitness m) (random : Random) : (Frame.start m random).Safe f where
  depth := f.entry_label
  placed := by
    obtain ⟨r, hr, hle⟩ := f.entry_rank
    exact ⟨_, r, .refl, hr, hle⟩
  returns := trivial
  locals := by simp [Frame.start]

namespace Machine.Safe

open StackDepth (Holds Edge)
open CallDepth (Moves)

variable {f : Fitness m} {s t : Machine}

/-- The instruction that a safe machine is at, with what the check says of it. -/
theorem instruction (hs : s.Safe f) :
    ∃ word op, m.code[s.ip]? = some word ∧ Word.opcode? word = some op ∧
      Word.operand word < m.tableSizes.bound op ∧ op.pops ≤ s.stack.length ∧
      op.leaves s.stack.length ≤ m.maxStack.toNat ∧ (op.needsEmpty = true → s.stack = []) ∧
      ∀ j, Edge m.code m.points s.ip j → f.label j = some (op.leaves s.stack.length) := by
  obtain ⟨op, operand, ⟨word, hw, hop, rfl⟩, hpops, hdeep, -, hempty, -, hedges⟩ :=
    f.consistent.holds hs.depth
  exact ⟨word, op, hw, hop, f.operand_lt _ _ _ hw hop, hpops, hdeep,
    fun hneeds => List.length_eq_zero_iff.1 (hempty hneeds), hedges⟩

variable {op : Opcode} {operand : Nat}

/-- A machine that goes on within its routine stays safe. -/
theorem move (hs : s.Safe f) (hmove : Moves m.code m.points s.ip t.ip)
    (hlabel : f.label t.ip = some t.stack.length)
    (hcalls : t.calls = s.calls) (hlocals : t.locals.size = s.locals.size)
    (houtputs : t.outputs.size = s.outputs.size) : t.Safe f where
  depth := hlabel
  placed := by
    obtain ⟨routine, r, hmoves, hrank, hle⟩ := hs.placed
    exact ⟨routine, r, hmoves.tail hmove, hrank, hcalls ▸ hle⟩
  returns := hcalls ▸ hs.returns
  locals := hlocals.trans hs.locals
  outputs := houtputs.trans hs.outputs

/-- A call goes to a routine of lower rank, so there is room for the offset to come back to. -/
theorem call (hs : s.Safe f) {callee : Nat} (hop : Holds m.code s.ip .call callee)
    (hcallee : f.label callee = some 0) (hback : f.label (s.ip + 1) = some 0)
    (hstack : s.stack = []) :
    s.calls.length < m.maxCallDepth.toNat ∧
      Machine.Safe f { s with calls := (s.ip + 1) :: s.calls, ip := callee } := by
  obtain ⟨routine, r, hmoves, hrank, hle⟩ := hs.placed
  obtain ⟨r', hr', hlt⟩ := f.ranked _ _ _ hrank ⟨_, hmoves, hop⟩
  have hplaced : f.Placed (s.ip + 1) s.calls.length :=
    ⟨routine, r, hmoves.tail (.next hop rfl), hrank, hle⟩
  refine ⟨by omega, ⟨?_, ?_, ⟨hback, hplaced, hs.returns⟩, hs.locals⟩, hs.outputs⟩
  · rw [hcallee, hstack]
    rfl
  · refine ⟨callee, r', .refl, hr', ?_⟩
    show r' + (s.calls.length + 1) ≤ m.maxCallDepth.toNat
    omega

theorem ret (hs : s.Safe f) {back : Nat} {rest : List Nat} (hcalls : s.calls = back :: rest)
    (hstack : s.stack = []) : Machine.Safe f { s with calls := rest, ip := back } := by
  have hreturns : f.Returns (back :: rest) := hcalls ▸ hs.returns
  obtain ⟨hlabel, hplaced, hrest⟩ := hreturns
  refine ⟨⟨?_, hplaced, hrest, hs.locals⟩, hs.outputs⟩
  rw [hlabel, hstack]
  rfl

/-- A machine that goes on with the next instruction stays safe. -/
theorem forward (hs : s.Safe f) (hop : Holds m.code s.ip op operand) (hc : op.continues = true)
    (hlabel : f.label (s.ip + 1) = some t.stack.length) (hip : t.ip = s.ip + 1)
    (hcalls : t.calls = s.calls) (hlocals : t.locals.size = s.locals.size)
    (houtputs : t.outputs.size = s.outputs.size) : t.Safe f :=
  hs.move (hip ▸ .next hop hc) (hip ▸ hlabel) hcalls hlocals houtputs

theorem push (hs : s.Safe f) (hop : Holds m.code s.ip op operand) (hc : op.continues = true)
    (stack : List Float) (random : Random) (hlabel : f.label (s.ip + 1) = some (stack.length + 1))
    (hdeep : stack.length + 1 ≤ m.maxStack.toNat) (value : Float) :
    (Machine.push m { s with stack, random } value).Safe f := by
  rw [Machine.push, if_pos (Nat.lt_of_succ_le hdeep)]
  exact hs.forward hop hc hlabel rfl rfl rfl rfl

/-- A conditional jump pops its condition and goes on at either place. -/
theorem jumpIf (hs : s.Safe f) (hnext : Moves m.code m.points s.ip (s.ip + 1))
    (hmove : Moves m.code m.points s.ip operand) (hpops : 1 ≤ s.stack.length)
    (hlabels : ∀ j, Edge m.code m.points s.ip j → f.label j = some (s.stack.length - 1))
    (jumps : Float → Bool) : (s.jumpIf operand jumps).Safe f := by
  obtain ⟨a, rest, hstack⟩ := List.exists_cons_of_length_pos hpops
  rw [hstack] at hlabels
  simp only [Machine.jumpIf, Machine.pop, hstack]
  show Machine.Safe f (if jumps a then _ else _)
  split
  · exact hs.move hmove (hlabels _ hmove.edge) rfl rfl rfl
  · exact hs.move hnext (hlabels _ hnext.edge) rfl rfl rfl

/-- An instruction of a fit model does not fault, and a machine that goes on stays safe. -/
theorem step (hs : s.Safe f) {inputs : Array Float} (hi : inputs.size = m.inputSize) :
    ∃ word, m.code[s.ip]? = some word ∧ (s.step m inputs word).Safe f := by
  obtain ⟨word, op, hw, hop, hoperand, hpops, hdeep, hempty, hlabels⟩ := hs.instruction
  have hholds : Holds m.code s.ip op (Word.operand word) := ⟨word, hw, hop, rfl⟩
  have hlabel (hc : op.continues = true) := hlabels _ (.next hholds hc)
  refine ⟨word, hw, ?_⟩
  unfold Machine.step
  rw [hop]
  dsimp only
  cases op with
  | pushConst =>
    have hc : m.constants[Word.operand word]? = some m.constants[Word.operand word] :=
      Array.getElem?_eq_getElem hoperand
    simp only [execute, hc]
    exact hs.push hholds rfl s.stack s.random (hlabel rfl) hdeep _
  | pop | wait =>
    obtain ⟨a, rest, hstack⟩ := List.exists_cons_of_length_pos hpops
    simp only [execute, Machine.pop, hstack]
    rw [hstack] at hlabel
    exact hs.forward hholds rfl (hlabel rfl) rfl rfl rfl rfl
  | dup =>
    obtain ⟨a, rest, hstack⟩ := List.exists_cons_of_length_pos hpops
    simp only [execute, hstack]
    have hlen : Opcode.dup.leaves s.stack.length = s.stack.length + 1 := by
      simp only [Opcode.leaves, Opcode.pops, Opcode.pushes] at hpops ⊢
      omega
    rw [hlen] at hlabel hdeep
    exact hs.push hholds rfl s.stack s.random (hlabel rfl) hdeep a
  | swap =>
    obtain ⟨a, b, rest, hstack⟩ := exists_two_cons hpops
    simp only [execute, hstack]
    rw [hstack] at hlabel
    exact hs.forward hholds rfl (hlabel rfl) rfl rfl rfl rfl
  | loadInput =>
    have hlt : Word.operand word < inputs.size := hi ▸ hoperand
    simp only [execute, load, Array.getElem?_eq_getElem hlt]
    exact hs.push hholds rfl s.stack s.random (hlabel rfl) hdeep _
  | loadLocal =>
    have hlt : Word.operand word < s.locals.size := hs.locals ▸ hoperand
    simp only [execute, load, Array.getElem?_eq_getElem hlt]
    exact hs.push hholds rfl s.stack s.random (hlabel rfl) hdeep _
  | storeLocal =>
    obtain ⟨a, rest, hstack⟩ := List.exists_cons_of_length_pos hpops
    have hlt : Word.operand word < s.locals.size := hs.locals ▸ hoperand
    simp only [execute, Machine.pop, hstack, if_pos hlt]
    rw [hstack] at hlabel
    exact hs.forward hholds rfl (hlabel rfl) rfl rfl Array.size_setIfInBounds rfl
  | storeOutput =>
    obtain ⟨a, rest, hstack⟩ := List.exists_cons_of_length_pos hpops
    have hlt : Word.operand word < s.outputs.size := hs.outputs ▸ hoperand
    simp only [execute, Machine.pop, hstack, if_pos hlt]
    rw [hstack] at hlabel
    exact hs.forward hholds rfl (hlabel rfl) rfl rfl rfl Array.size_setIfInBounds
  | unary g =>
    obtain ⟨a, rest, hstack⟩ := List.exists_cons_of_length_pos hpops
    simp only [execute, Machine.pop, hstack]
    rw [hstack] at hlabel hdeep
    exact hs.push hholds rfl rest s.random (hlabel rfl) hdeep _
  | binary g =>
    obtain ⟨a, b, rest, hstack⟩ := exists_two_cons hpops
    simp only [execute, Machine.pop, hstack]
    rw [hstack] at hlabel hdeep
    exact hs.push hholds rfl rest s.random (hlabel rfl) hdeep _
  | ternary g =>
    obtain ⟨a, b, c, rest, hstack⟩ := exists_three_cons hpops
    simp only [execute, Machine.pop, hstack]
    rw [hstack] at hlabel hdeep
    exact hs.push hholds rfl rest s.random (hlabel rfl) hdeep _
  | jump =>
    have hmove : Moves m.code m.points s.ip (Word.operand word) := .jump hholds rfl nofun
    exact hs.move hmove (hlabels _ hmove.edge) rfl rfl rfl
  | jumpIfFalse | jumpIfTrue =>
    exact hs.jumpIf (.next hholds rfl) (.jump hholds rfl nofun) hpops hlabels _
  | call =>
    have hstack := hempty rfl
    rw [hstack] at hlabels
    obtain ⟨hroom, hsafe⟩ := hs.call hholds (hlabels _ (.branch hholds rfl))
      (hlabels _ (.next hholds rfl)) hstack
    simp only [execute, if_pos hroom]
    exact hsafe
  | ret =>
    cases hcalls : s.calls with
    | nil =>
      simp only [execute, hcalls]
      exact hs.outputs
    | cons back rest =>
      simp only [execute, hcalls]
      exact hs.ret hcalls (hempty rfl)
  | halt => exact hs.outputs
  | random =>
    obtain ⟨value, random, hdraw⟩ : ∃ value random, s.random.next = (value, random) :=
      ⟨_, _, rfl⟩
    simp only [execute, hdraw]
    exact hs.push hholds rfl s.stack random (hlabel rfl) hdeep value
  | pause =>
    have hlt : Word.operand word < m.points.size := hoperand
    have hpoint := Array.getElem?_eq_getElem hlt
    have hmove := Moves.resume hholds hpoint
    exact ⟨_, hpoint, hs.move hmove (hlabels _ hmove.edge) rfl rfl rfl⟩
  | nop => exact hs.forward hholds rfl (hlabel rfl) rfl rfl rfl rfl

end Machine.Safe

/-! ## Runs -/

/-- How a run of a fit model may end: with a signal, or at its limit. -/
def Machine.Outcome.Safe (f : Fitness m) (limit : Nat) : Machine.Outcome → Prop
  | .stopped signal s _ => (Reaction.stop signal s).Safe f
  | .faulted fault s => fault = .instructionLimit limit ∧ s.Safe f

/-- A run of a fit model goes on until a signal, unless it reaches its limit. -/
theorem Machine.Safe.run {f : Fitness m} {s : Machine} (hs : s.Safe f) {inputs : Array Float}
    (hi : inputs.size = m.inputSize) (limit : Nat) (skipWaits : Bool) (fuel : Nat) :
    (s.run m inputs limit skipWaits fuel).Safe f limit := by
  induction fuel generalizing s with
  | zero =>
    obtain ⟨word, hw, -⟩ := hs.step hi
    rw [Machine.run, hw]
    exact ⟨rfl, hs⟩
  | succ fuel ih =>
    obtain ⟨word, hw, hsafe⟩ := hs.step hi
    rw [Machine.run, hw]
    dsimp only
    split
    · next t ht =>
      rw [ht] at hsafe
      exact ih hsafe
    · next seconds t ht =>
      rw [ht] at hsafe
      split
      · exact ih hsafe
      · exact hsafe
    · next signal t _ ht =>
      rw [ht] at hsafe
      exact hsafe
    · next fault t ht =>
      rw [ht] at hsafe
      exact absurd hsafe id

namespace Evaluator

theorem new_ok {settings : RunSettings} {e : Evaluator} (h : new m settings = .ok e) :
    m.points = #[] ∧ e = ⟨m, settings.instructionLimit.toNat, ⟨settings.seed⟩⟩ := by
  unfold new at h
  split at h
  · cases h
  · next hp =>
    cases h
    refine ⟨?_, rfl⟩
    simpa [Model.hasPoints] using hp

theorem checkSize_eq_ok {vector : StateVector} {expected actual : Nat} :
    checkSize vector expected actual = .ok () ↔ actual = expected := by
  rw [checkSize]
  split
  · next h => exact iff_of_true rfl h.symm
  · next h => exact iff_of_false nofun (Ne.symm h)

theorem checkVectors_eq_ok {inputs outputs : Array Float} :
    m.checkVectors inputs outputs = .ok () ↔
      inputs.size = m.inputSize ∧ outputs.size = m.outputSize := by
  rw [Model.checkVectors, bind_eq_ok, ← checkSize_eq_ok, ← checkSize_eq_ok]
  exact ⟨fun ⟨_, hi, ho⟩ => ⟨hi, ho⟩, fun ⟨hi, ho⟩ => ⟨(), hi, ho⟩⟩

/-- A fit model without continuation points fails at its limit only. -/
theorem fault?_of_fitness {e : Evaluator} (f : Fitness e.model) (hpoints : e.model.points = #[])
    {inputs outputs : Array Float} (hsizes : e.model.checkVectors inputs outputs = .ok ()) :
    (e.evaluate inputs outputs).fault? = none ∨
      (e.evaluate inputs outputs).fault? = some (.instructionLimit e.limit) := by
  let start : Machine := {
    toFrame := Frame.start e.model e.random
    outputs := Array.replicate e.model.outputSize 0.0 }
  have hstart : start.Safe f := ⟨Frame.Safe.start f e.random, by simp [start]⟩
  have hrun := hstart.run (checkVectors_eq_ok.1 hsizes).1 e.limit true e.limit
  simp only [evaluate, hsizes]
  split
  · next fault t ht =>
    rw [show start.run e.model inputs e.limit true e.limit = _ from ht] at hrun
    exact Or.inr (congrArg some hrun.1)
  · next point t rest ht =>
    rw [show start.run e.model inputs e.limit true e.limit = _ from ht] at hrun
    -- There is no continuation point to pause at.
    obtain ⟨p, hp, -⟩ := hrun
    rw [hpoints] at hp
    cases hp
  · exact Or.inl rfl

/-- The evaluation of a model that passes the check and has no continuation points, on vectors of
the right sizes: it ends well or reaches the instruction limit, whatever the random numbers. -/
theorem fault?_evaluate_of_check (hcheck : m.check = .ok ()) {settings : RunSettings}
    {e : Evaluator} (hnew : new m settings = .ok e) (seed : UInt64) {inputs outputs : Array Float}
    (hi : inputs.size = m.inputSize) (ho : outputs.size = m.outputSize) :
    ((e.reseed seed).evaluate inputs outputs).fault? = none ∨
      ((e.reseed seed).evaluate inputs outputs).fault? =
        some (.instructionLimit settings.instructionLimit.toNat) := by
  obtain ⟨f⟩ := Model.fitness_of_check hcheck
  obtain ⟨hpoints, rfl⟩ := new_ok hnew
  exact fault?_of_fitness (e := ⟨m, _, ⟨seed⟩⟩) f hpoints (checkVectors_eq_ok.2 ⟨hi, ho⟩)

/-- Calls a routine that writes twice the input. -/
def doubling : Model where
  id := ⟨1⟩
  version := Model.formatVersion
  flags := {}
  maxStack := 2
  maxCallDepth := 1
  localCount := 0
  entry := 0
  schema := { inputs := [⟨"x", .number, 0⟩], outputs := [⟨"y", .number, 0⟩] }
  points := #[]
  constants := #[]
  strings := #["x", "y"]
  code := #[Word.encode .call 2, Word.encode .ret 0, Word.encode .loadInput 0, Word.encode .dup 0,
    Word.encode (.binary .add) 0, Word.encode .storeOutput 0, Word.encode .ret 0]
  extends? := none
  debug? := none

theorem fault?_evaluate_doubling :
    doubling.check = .ok () ∧ new doubling {} = .ok ⟨doubling, 100000, ⟨0⟩⟩ ∧
      (((⟨doubling, 100000, ⟨0⟩⟩ : Evaluator).reseed 7).evaluate #[1.5] #[0.0]).fault? ∈
        [none, some (.instructionLimit 100000)] := by
  have hcheck : doubling.check = .ok () := by cbv
  have hnew : new doubling {} = .ok ⟨doubling, 100000, ⟨0⟩⟩ := by cbv
  refine ⟨hcheck, hnew, ?_⟩
  have hi : (#[1.5] : Array Float).size = doubling.inputSize := rfl
  have ho : (#[0.0] : Array Float).size = doubling.outputSize := rfl
  rcases fault?_evaluate_of_check hcheck hnew 7 hi ho with h | h
  · rw [h]
    exact List.mem_cons_self
  · rw [h]
    exact List.mem_cons_of_mem _ List.mem_cons_self

end Evaluator

end Behavior
