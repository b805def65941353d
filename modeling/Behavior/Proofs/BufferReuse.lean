import Behavior.Interpreter
import Behavior.Proofs.Compiled

/-!
Buffers that are used again. An interpreter gives the answers of an evaluator that starts with
nothing, whatever earlier evaluations have left in its buffers: they only ever show what has been
pushed since the last reset.
-/

namespace Behavior

namespace BufferStack

variable {α : Type} {n : Nat} {b : BufferStack α n}

/-- The values in use, the top first. -/
def toList (b : BufferStack α n) : List α :=
  (b.cells.toList.take b.height).reverse

theorem length_toList (b : BufferStack α n) : b.toList.length = b.height := by
  rw [toList, List.length_reverse, List.length_take, Vector.length_toList,
    Nat.min_eq_left b.height_le]

theorem push?_of_lt (h : b.toList.length < n) (value : α) :
    ∃ b', b.push? value = some b' ∧ b'.toList = value :: b.toList := by
  rw [length_toList] at h
  refine ⟨_, dif_pos h, ?_⟩
  show ((b.cells.set b.height value).toList.take (b.height + 1)).reverse = _
  rw [Vector.toList_set, List.take_succ_eq_append_getElem (by simpa using h), List.reverse_append,
    List.getElem_set_self, List.take_set_of_le (Nat.le_refl _)]
  rfl

theorem push?_of_not_lt (h : ¬ b.toList.length < n) (value : α) : b.push? value = none := by
  rw [length_toList] at h
  exact dif_neg h

theorem pop?_of_nil (h : b.toList = []) : b.pop? = none := by
  obtain ⟨cells, height, hle⟩ := b
  have hheight := length_toList ⟨cells, height, hle⟩
  rw [h] at hheight
  cases hheight
  rfl

theorem pop?_of_cons {value : α} {rest : List α} (h : b.toList = value :: rest) :
    ∃ b', b.pop? = some (value, b') ∧ b'.toList = rest := by
  obtain ⟨cells, height, hle⟩ := b
  have hheight := length_toList ⟨cells, height, hle⟩
  rw [h] at hheight
  obtain rfl : height = rest.length + 1 := hheight.symm
  have hsplit : (BufferStack.mk cells (rest.length + 1) hle).toList =
      cells[rest.length] :: (BufferStack.mk cells rest.length (Nat.le_of_succ_le hle)).toList := by
    rw [toList, toList, List.take_succ_eq_append_getElem (by simpa using hle), List.reverse_append]
    rfl
  rw [hsplit] at h
  obtain ⟨hvalue, hrest⟩ := List.cons.inj h
  exact ⟨_, congrArg (fun v => some (v, _)) hvalue, hrest⟩

end BufferStack

/-! ## Engines and machines -/

namespace Engine

variable {m : Model} {limit : Nat}

/-- What an engine shows: the machine that its buffers hold. -/
def machine (e : Engine m) : Machine where
  ip := e.ip
  stack := e.stack.toList
  calls := e.calls.toList
  locals := e.locals.toArray
  random := e.random
  outputs := e.outputs

/-- An engine that has moved beyond the instruction that a machine is at. -/
structure Ahead (limit : Nat) (e : Engine m) (s : Machine) : Prop where
  machine : e.machine = s.advance
  limit : e.limit = limit

/-- An engine reacts as a machine does. After a fault both have the same outputs and random
numbers; nothing else of them is ever read again. -/
inductive Mirrors (limit : Nat) : Reaction m → Behavior.Reaction → Prop
  | next {e : Engine m} : e.limit = limit → Mirrors limit (.next e) (.next e.machine)
  | stop {e : Engine m} {signal : Signal} : e.limit = limit →
      Mirrors limit (.stop signal e) (.stop signal e.machine)
  | fault {e : Engine m} {s : Machine} {f : Fault} : e.limit = limit → e.random = s.random →
      e.outputs = s.outputs → Mirrors limit (.fault f e) (.fault f s)

namespace Ahead

variable {e : Engine m} {s : Machine}

theorem here_eq (h : Ahead limit e s) : e.here = s.ip := by
  rw [here, show e.ip = s.ip + 1 from congrArg (·.ip) h.machine, Nat.add_sub_cancel]

theorem stack_eq (h : Ahead limit e s) : e.stack.toList = s.stack :=
  congrArg (·.stack) h.machine

theorem calls_eq (h : Ahead limit e s) : e.calls.toList = s.calls :=
  congrArg (·.calls) h.machine

theorem locals_eq (h : Ahead limit e s) : e.locals.toArray = s.locals :=
  congrArg (·.locals) h.machine

theorem random_eq (h : Ahead limit e s) : e.random = s.random :=
  congrArg (·.random) h.machine

theorem outputs_eq (h : Ahead limit e s) : e.outputs = s.outputs :=
  congrArg (·.outputs) h.machine

/-- Both go on. -/
theorem next (h : Ahead limit e s) : Mirrors limit (.next e) (.next s.advance) :=
  h.machine ▸ .next h.limit

theorem stop (h : Ahead limit e s) (signal : Signal) :
    Mirrors limit (.stop signal e) (.stop signal s.advance) :=
  h.machine ▸ .stop h.limit

/-- Both name the same instruction in a fault. -/
theorem fault (h : Ahead limit e s) (f : Nat → Fault) :
    Mirrors limit (.fault (f e.here) e) (.fault (f s.ip) s) := by
  rw [h.here_eq]
  exact .fault h.limit h.random_eq h.outputs_eq

/-- Both change their stacks. -/
theorem withStack (h : Ahead limit e s) {stack : BufferStack Float m.maxStack.toNat}
    {values : List Float} (hstack : stack.toList = values) :
    Ahead limit { e with stack } { s with stack := values } where
  machine := by
    have hmachine := h.machine
    simp only [Engine.machine, Machine.advance, Machine.mk.injEq, Frame.mk.injEq] at hmachine ⊢
    exact ⟨⟨hmachine.1.1, hstack, hmachine.1.2.2⟩, hmachine.2⟩
  limit := h.limit

/-- As long as there is room, a value can be pushed. -/
theorem push_of_lt (h : Ahead limit e s) (hroom : s.stack.length < m.maxStack.toNat)
    (value : Float) (k : Engine m → Reaction m) :
    ∃ e', e.push value k = k e' ∧ Ahead limit e' { s with stack := value :: s.stack } := by
  rw [← h.stack_eq] at hroom ⊢
  obtain ⟨stack, hpush, hstack⟩ := BufferStack.push?_of_lt hroom value
  refine ⟨{ e with stack }, ?_, h.withStack hstack⟩
  rw [Engine.push, hpush]

theorem push (h : Ahead limit e s) (value : Float) :
    Mirrors limit (e.push value .next) (Machine.push m s value) := by
  unfold Machine.push
  by_cases hroom : s.stack.length < m.maxStack.toNat
  · obtain ⟨e', hpush, h'⟩ := h.push_of_lt hroom value .next
    rw [hpush, if_pos hroom]
    exact h'.next
  · rw [if_neg hroom, Engine.push, BufferStack.push?_of_not_lt (h.stack_eq ▸ hroom)]
    exact h.fault .stackOverflow

theorem pop (h : Ahead limit e s) {k : Float → Engine m → Reaction m}
    {k' : Float → Machine → Behavior.Reaction}
    (hk : ∀ value {e s}, Ahead limit e s → Mirrors limit (k value e) (k' value s)) :
    Mirrors limit (e.pop k) (s.pop k') := by
  unfold Engine.pop Machine.pop
  rw [← h.stack_eq]
  cases hvalues : e.stack.toList with
  | nil =>
    rw [BufferStack.pop?_of_nil hvalues]
    exact h.fault .stackUnderflow
  | cons value rest =>
    obtain ⟨stack, hpop, hstack⟩ := BufferStack.pop?_of_cons hvalues
    rw [hpop]
    exact hk value (h.withStack hstack)

theorem load (h : Ahead limit e s) (vector : Array Float) (index : Nat) :
    Mirrors limit (e.load vector index) (Machine.load m s vector index) := by
  unfold Engine.load Machine.load
  cases vector[index]? with
  | none => exact h.fault .invalidOperand
  | some value => exact h.push value

theorem jump (h : Ahead limit e s) (dest : Nat) :
    Mirrors limit (.next { e with ip := dest }) (.next { s with ip := dest }) := by
  have hmachine : Engine.machine { e with ip := dest } = { s with ip := dest } :=
    congrArg (fun s : Machine => { s with ip := dest }) h.machine
  rw [← hmachine]
  exact .next h.limit

theorem jumpIf (h : Ahead limit e s) (dest : Nat) (jumps : Float → Bool) :
    Mirrors limit (e.jumpIf dest jumps) (s.jumpIf dest jumps) := by
  refine h.pop fun value {e s} h => ?_
  by_cases hjumps : jumps value = true
  · rw [if_pos hjumps, if_pos hjumps]
    exact h.jump dest
  · rw [if_neg hjumps, if_neg hjumps]
    exact h.next

theorem dup (h : Ahead limit e s) (inputs : Array Float) (operand : Nat) :
    Mirrors limit (e.execute inputs .dup operand) (s.execute m inputs .dup operand) := by
  unfold execute Machine.execute
  dsimp only
  rw [← h.stack_eq]
  cases hvalues : e.stack.toList with
  | nil =>
    rw [BufferStack.pop?_of_nil hvalues]
    exact h.fault .stackUnderflow
  | cons value rest =>
    obtain ⟨stack, hpop, -⟩ := BufferStack.pop?_of_cons hvalues
    rw [hpop]
    exact h.push value

/-- What was popped from a stack fits on it again. -/
theorem swap (h : Ahead limit e s) (inputs : Array Float) (operand : Nat) :
    Mirrors limit (e.execute inputs .swap operand) (s.execute m inputs .swap operand) := by
  have hheight : s.stack.length ≤ m.maxStack.toNat := by
    rw [← h.stack_eq, BufferStack.length_toList]
    exact e.stack.height_le
  unfold execute Machine.execute
  dsimp only
  cases hvalues : s.stack with
  | nil =>
    rw [Engine.pop, BufferStack.pop?_of_nil (h.stack_eq.trans hvalues)]
    exact h.fault .stackUnderflow
  | cons top rest =>
    obtain ⟨stack, hpop, hstack⟩ := BufferStack.pop?_of_cons (h.stack_eq.trans hvalues)
    have h' := h.withStack hstack
    rw [Engine.pop, hpop]
    cases rest with
    | nil =>
      dsimp only
      -- the engine has already lost its only value
      rw [Engine.pop, BufferStack.pop?_of_nil hstack]
      exact h.here_eq ▸ .fault h.limit h.random_eq h.outputs_eq
    | cons below rest =>
      obtain ⟨stack', hpop', hstack'⟩ := BufferStack.pop?_of_cons hstack
      rw [hvalues, List.length_cons, List.length_cons] at hheight
      have hempty := h'.withStack hstack'
      obtain ⟨e₁, hpush₁, h₁⟩ := hempty.push_of_lt (by dsimp only; omega) top
        fun e => e.push below .next
      obtain ⟨e₂, hpush₂, h₂⟩ := h₁.push_of_lt (by simp only [List.length_cons]; omega) below .next
      dsimp only
      rw [Engine.pop, hpop']
      dsimp only
      rw [hpush₁, hpush₂]
      exact h₂.next

theorem storeLocal (h : Ahead limit e s) (inputs : Array Float) (operand : Nat) :
    Mirrors limit (e.execute inputs .storeLocal operand)
      (s.execute m inputs .storeLocal operand) := by
  unfold execute Machine.execute
  refine h.pop fun value {e s} h => ?_
  have hsize : s.locals.size = m.localCount.toNat := by rw [← h.locals_eq, Vector.size_toArray]
  rw [hsize]
  split
  · have hmachine : Engine.machine { e with locals := e.locals.setIfInBounds operand value } =
        { s with locals := s.locals.setIfInBounds operand value, ip := s.ip + 1 } := by
      rw [← h.locals_eq, ← Vector.toArray_setIfInBounds]
      exact congrArg (fun t : Machine =>
        { t with locals := (e.locals.setIfInBounds operand value).toArray }) h.machine
    rw [← hmachine]
    exact .next h.limit
  · exact h.fault .invalidOperand

theorem storeOutput (h : Ahead limit e s) (inputs : Array Float) (operand : Nat) :
    Mirrors limit (e.execute inputs .storeOutput operand)
      (s.execute m inputs .storeOutput operand) := by
  unfold execute Machine.execute
  refine h.pop fun value {e s} h => ?_
  rw [h.outputs_eq]
  split
  · have hmachine :
        Engine.machine { e with outputs := s.outputs.setIfInBounds operand value } =
          { s with outputs := s.outputs.setIfInBounds operand value, ip := s.ip + 1 } :=
      congrArg (fun t : Machine => { t with outputs := s.outputs.setIfInBounds operand value })
        h.machine
    rw [← hmachine]
    exact .next h.limit
  · exact h.fault .invalidOperand

theorem call (h : Ahead limit e s) (inputs : Array Float) (operand : Nat) :
    Mirrors limit (e.execute inputs .call operand) (s.execute m inputs .call operand) := by
  unfold execute Machine.execute
  dsimp only
  rw [← h.calls_eq]
  by_cases hroom : e.calls.toList.length < m.maxCallDepth.toNat
  · obtain ⟨calls, hpush, hcalls⟩ := BufferStack.push?_of_lt hroom e.ip
    have hip : e.ip = s.ip + 1 := congrArg (·.ip) h.machine
    have hmachine : Engine.machine { e with calls, ip := operand } =
        { s with calls := (s.ip + 1) :: e.calls.toList, ip := operand } := by
      rw [← hip, ← hcalls]
      exact congrArg (fun t : Machine => { t with calls := calls.toList, ip := operand }) h.machine
    rw [hpush, if_pos hroom, ← hmachine]
    exact .next h.limit
  · rw [BufferStack.push?_of_not_lt hroom, if_neg hroom]
    exact h.fault .callStackOverflow

theorem ret (h : Ahead limit e s) (inputs : Array Float) (operand : Nat) :
    Mirrors limit (e.execute inputs .ret operand) (s.execute m inputs .ret operand) := by
  unfold execute Machine.execute
  dsimp only
  rw [← h.calls_eq]
  cases hoffsets : e.calls.toList with
  | nil =>
    rw [BufferStack.pop?_of_nil hoffsets]
    exact h.stop .halt
  | cons back rest =>
    obtain ⟨calls, hpop, hcalls⟩ := BufferStack.pop?_of_cons hoffsets
    have hmachine : Engine.machine { e with calls, ip := back } =
        { s with calls := rest, ip := back } := by
      rw [← hcalls]
      exact congrArg (fun t : Machine => { t with calls := calls.toList, ip := back }) h.machine
    rw [hpop]
    dsimp only
    rw [← hmachine]
    exact .next h.limit

theorem random (h : Ahead limit e s) (inputs : Array Float) (operand : Nat) :
    Mirrors limit (e.execute inputs .random operand) (s.execute m inputs .random operand) := by
  unfold execute Machine.execute
  dsimp only
  rw [h.random_eq]
  generalize s.random.next = drawn
  obtain ⟨value, random⟩ := drawn
  have hdrawn : Ahead limit { e with random } { s with random } :=
    ⟨congrArg (fun t : Machine => { t with random }) h.machine, h.limit⟩
  exact hdrawn.push value

end Ahead

/-- An instruction does to an engine what it does to a machine. -/
theorem mirrors_execute {e : Engine m} {s : Machine} (h : Ahead limit e s) (inputs : Array Float)
    (op : Opcode) (operand : Nat) :
    Mirrors limit (e.execute inputs op operand) (s.execute m inputs op operand) := by
  cases op with
  | pushConst =>
    unfold execute Machine.execute
    dsimp only
    cases m.constants[operand]? with
    | none => exact h.fault .invalidOperand
    | some c => exact h.push c.value
  | pop => exact h.pop fun _ _ _ h => h.next
  | dup => exact h.dup inputs operand
  | swap => exact h.swap inputs operand
  | loadInput => exact h.load inputs operand
  | loadLocal =>
    unfold execute Machine.execute
    dsimp only
    rw [h.locals_eq]
    exact h.load s.locals operand
  | storeLocal => exact h.storeLocal inputs operand
  | storeOutput => exact h.storeOutput inputs operand
  | unary f => exact h.pop fun a _ _ h => h.push (f.apply a)
  | binary f => exact h.pop fun b _ _ h => h.pop fun a _ _ h => h.push (f.apply a b)
  | ternary f =>
    exact h.pop fun c _ _ h => h.pop fun b _ _ h => h.pop fun a _ _ h => h.push (f.apply a b c)
  | jump => exact h.jump operand
  | jumpIfFalse | jumpIfTrue => exact h.jumpIf operand _
  | call => exact h.call inputs operand
  | ret => exact h.ret inputs operand
  | halt => exact h.stop .halt
  | random => exact h.random inputs operand
  | wait => exact h.pop fun seconds _ _ h => h.stop (.wait seconds)
  | pause => exact h.stop (.pause operand)
  | nop => exact h.next

theorem mirrors_step (e : Engine m) (inputs : Array Float) (word : Word) :
    Mirrors e.limit (e.step inputs word) (e.machine.step m inputs word) := by
  unfold step Machine.step
  cases Word.opcode? word with
  | none => exact .fault rfl rfl rfl
  | some op =>
    have hahead : Ahead e.limit { e with executed := e.executed + 1, ip := e.ip + 1 } e.machine :=
      ⟨rfl, rfl⟩
    exact mirrors_execute hahead inputs op (Word.operand word)

/-- A run of an engine ends as that of a machine does. -/
inductive Concludes (limit : Nat) : Outcome m → Machine.Outcome → Prop
  | stopped {e : Engine m} {signal : Signal} {rest : Nat} : e.limit = limit →
      Concludes limit (.stopped signal e) (.stopped signal e.machine rest)
  | faulted {e : Engine m} {s : Machine} {f : Fault} : e.limit = limit → e.random = s.random →
      e.outputs = s.outputs → Concludes limit (.faulted f e) (.faulted f s)

theorem concludes_runFor (inputs : Array Float) (fuel : Nat) (e : Engine m) :
    Concludes e.limit (e.runFor inputs fuel)
      (e.machine.run m inputs e.limit true fuel) := by
  have hip (e : Engine m) : e.machine.ip = e.ip := rfl
  induction fuel generalizing e with
  | zero =>
    unfold runFor Machine.run
    rw [hip]
    cases m.code[e.ip]? with
    | none | some word => exact .faulted rfl rfl rfl
  | succ fuel ih =>
    unfold runFor Machine.run
    rw [hip]
    cases m.code[e.ip]? with
    | none => exact .faulted rfl rfl rfl
    | some word =>
      have hstep := mirrors_step e inputs word
      dsimp only
      generalize e.step inputs word = reaction at hstep ⊢
      generalize e.machine.step m inputs word = reaction' at hstep ⊢
      cases hstep with
      | next hlimit =>
        rw [← hlimit]
        exact ih _
      | @stop e' signal hlimit =>
        rw [← hlimit]
        cases signal with
        | wait seconds => exact ih e'
        | halt | pause point => exact .stopped rfl
      | fault hlimit hrandom houtputs => exact .faulted hlimit hrandom houtputs

end Engine

/-! ## Evaluations -/

namespace Interpreter

variable {m : Model} {i : Interpreter}

/-- What an interpreter is beside its buffers. -/
def evaluator (i : Interpreter) : Evaluator :=
  ⟨i.model, i.workspace.limit, i.workspace.random⟩

theorem new_evaluator {settings : RunSettings} (h : new m settings = .ok i) :
    i.evaluator = ⟨m, settings.instructionLimit.toNat, ⟨settings.seed⟩⟩ := by
  unfold new at h
  split at h
  · cases h
  · cases h
    rfl

theorem new_reseed {settings : RunSettings} (h : new m settings = .ok i) (seed : UInt64) :
    new m { settings with seed } = .ok ⟨m, .new m { settings with seed }⟩ := by
  unfold new at h
  split at h
  · cases h
  · next hpoints => exact if_neg hpoints

/-- Whatever is in the buffers, an evaluation starts as if there were none. -/
theorem machine_reset (w : Workspace m) {outputs : Array Float} (h : outputs.size = m.outputSize) :
    Engine.machine ⟨w.reset, outputs.map fun _ => 0.0⟩ =
      Evaluator.start ⟨m, w.limit, w.random⟩ := by
  have hlocals : (w.locals.map fun _ => (0.0 : Float)).toArray =
      Array.replicate m.localCount.toNat 0.0 := by
    rw [Vector.toArray_map, Array.map_const', Vector.size_toArray]
  have houtputs : outputs.map (fun _ => (0.0 : Float)) = Array.replicate m.outputSize 0.0 := by
    rw [Array.map_const', h]
  rw [houtputs]
  unfold Engine.machine Evaluator.start Frame.start Workspace.reset
  dsimp only
  rw [hlocals]
  rfl

/-- What an evaluation leaves behind, given how its run has ended. -/
def ofOutcome {m : Model} : Engine.Outcome m → Answer
  | .faulted f e => ⟨some f, e.outputs, ⟨m, e.toWorkspace⟩⟩
  | .stopped (.pause _) e => ⟨some (.unexpectedPause e.here), e.outputs, ⟨m, e.toWorkspace⟩⟩
  | .stopped _ e => ⟨none, e.outputs, ⟨m, e.toWorkspace⟩⟩

theorem evaluate_eq {inputs outputs : Array Float}
    (h : i.model.checkVectors inputs outputs = .ok ()) :
    i.evaluate inputs outputs = ofOutcome
      (Engine.runFor inputs i.workspace.limit ⟨i.workspace.reset, outputs.map fun _ => 0.0⟩) := by
  have hrun : Engine.run inputs ⟨i.workspace.reset, outputs.map fun _ => 0.0⟩ =
      Engine.runFor inputs i.workspace.limit ⟨i.workspace.reset, outputs.map fun _ => 0.0⟩ := rfl
  rw [evaluate, h]
  dsimp only
  rw [hrun]
  rcases Engine.runFor inputs i.workspace.limit _ with ⟨_ | _ | _, _⟩ | _ <;> rfl

/-- An answer that an evaluator gives as well, and after which both are the same. -/
structure Answer.Agrees (a : Answer) (v : Evaluation) : Prop where
  fault? : a.fault? = v.fault?
  outputs : a.outputs = v.outputs
  evaluator : a.interpreter.evaluator = v.evaluator

theorem agrees_ofOutcome {limit : Nat} {random : Random} {o : Engine.Outcome m}
    {o' : Machine.Outcome} (h : Engine.Concludes limit o o') :
    (ofOutcome o).Agrees (Evaluator.ofOutcome ⟨m, limit, random⟩ o') := by
  cases h with
  | faulted hlimit hrandom houtputs =>
    exact ⟨rfl, houtputs, congrArg₂ (Evaluator.mk m) hlimit hrandom⟩
  | @stopped e signal rest hlimit =>
    subst hlimit
    cases signal with
    | halt | wait seconds | pause point => exact ⟨rfl, rfl, rfl⟩

/-- An evaluation gives the same answer in buffers as without. -/
theorem evaluate_agrees (i : Interpreter) (inputs outputs : Array Float) :
    (i.evaluate inputs outputs).Agrees (i.evaluator.evaluate inputs outputs) := by
  cases hsizes : i.model.checkVectors inputs outputs with
  | error f =>
    have hsizes' : i.evaluator.model.checkVectors inputs outputs = .error f := hsizes
    rw [evaluate, hsizes, Evaluator.evaluate, hsizes']
    exact ⟨rfl, rfl, rfl⟩
  | ok _ =>
    rw [evaluate_eq hsizes, Evaluator.evaluate_eq hsizes]
    have hsize := (Evaluator.checkVectors_eq_ok.1 hsizes).2
    have hrun := Engine.concludes_runFor inputs i.workspace.limit
      ⟨i.workspace.reset, outputs.map fun _ => 0.0⟩
    rw [machine_reset i.workspace hsize] at hrun
    exact agrees_ofOutcome hrun

/-! ## Histories -/

/-- What a caller can do to an interpreter. -/
inductive Call where
  | evaluate (inputs outputs : Array Float)
  | reseed (seed : UInt64)

def perform (i : Interpreter) : Call → Interpreter
  | .evaluate inputs outputs => (i.evaluate inputs outputs).interpreter
  | .reseed seed => i.reseed seed

/-- An interpreter after some calls. -/
def after (i : Interpreter) (history : List Call) : Interpreter :=
  history.foldl perform i

/-- The vectors of an evaluation, one to be read and one to be written. -/
structure Request where
  inputs : Array Float
  outputs : Array Float

/-- Two evaluations of the same inputs, all vectors of the right size. -/
structure Request.Alike (m : Model) (r r' : Request) : Prop where
  inputs : r.inputs = r'.inputs
  inputSize : r.inputs.size = m.inputSize
  outputSize : r.outputs.size = m.outputSize
  outputSize' : r'.outputs.size = m.outputSize

/-- The fault, if there is one, and the outputs of each evaluation, one after the other. -/
def answers (i : Interpreter) : List Request → List (Option Fault × Array Float)
  | [] => []
  | r :: rest =>
    let a := i.evaluate r.inputs r.outputs
    (a.fault?, a.outputs) :: a.interpreter.answers rest

theorem perform_evaluator (i : Interpreter) (c : Call) :
    ∃ random, (i.perform c).evaluator = { i.evaluator with random } := by
  cases c with
  | reseed seed => exact ⟨⟨seed⟩, rfl⟩
  | evaluate inputs outputs =>
    obtain ⟨random, hkept⟩ := i.evaluator.evaluate_keeps inputs outputs
    exact ⟨random, (i.evaluate_agrees inputs outputs).evaluator.trans hkept⟩

/-- Calls change nothing but the random numbers and the buffers. -/
theorem after_evaluator (i : Interpreter) (history : List Call) :
    ∃ random, (i.after history).evaluator = { i.evaluator with random } := by
  induction history generalizing i with
  | nil => exact ⟨i.evaluator.random, rfl⟩
  | cons c rest ih =>
    obtain ⟨random, hfirst⟩ := i.perform_evaluator c
    obtain ⟨random', hrest⟩ := ih (i.perform c)
    refine ⟨random', ?_⟩
    rw [hfirst] at hrest
    exact hrest

/-- Interpreters that differ in their buffers alone answer alike, whatever the vectors for the
outputs hold. -/
theorem answers_eq {i' : Interpreter} (hmodel : i.evaluator.model = m)
    (h : i.evaluator = i'.evaluator) {requests requests' : List Request}
    (halike : List.Forall₂ (Request.Alike m) requests requests') :
    i.answers requests = i'.answers requests' := by
  induction halike generalizing i i' with
  | nil => rfl
  | @cons r r' rest rest' hr _ ih =>
    obtain ⟨inputs, outputs⟩ := r
    obtain ⟨_, outputs'⟩ := r'
    obtain ⟨rfl, hi, ho, ho'⟩ := hr
    subst hmodel
    have hleft := i.evaluate_agrees inputs outputs
    have hright := i'.evaluate_agrees inputs outputs'
    rw [← h, i.evaluator.evaluate_of_sizes hi ho' ho] at hright
    obtain ⟨random, hkept⟩ := i.evaluator.evaluate_keeps inputs outputs
    have hmodel : (i.evaluate inputs outputs).interpreter.evaluator.model = i.evaluator.model := by
      rw [hleft.evaluator, hkept]
    have hfirst : ((i.evaluate inputs outputs).fault?, (i.evaluate inputs outputs).outputs) =
        ((i'.evaluate inputs outputs').fault?, (i'.evaluate inputs outputs').outputs) := by
      rw [hleft.fault?, hleft.outputs, hright.fault?, hright.outputs]
    exact congrArg₂ List.cons hfirst (ih hmodel (hleft.evaluator.trans hright.evaluator.symm))

/-- After a reseed an interpreter answers as a new one does. Neither the calls before, whether they
have failed or not, nor the vectors for the outputs matter. -/
theorem answers_of_history {m : Model} {settings : RunSettings} {i : Interpreter}
    (hnew : new m settings = .ok i) (history : List Call) (seed : UInt64) :
    ∃ fresh, new m { settings with seed } = .ok fresh ∧
      ∀ requests requests', List.Forall₂ (Request.Alike m) requests requests' →
        ((i.after history).reseed seed).answers requests = fresh.answers requests' := by
  obtain ⟨random, hkept⟩ := i.after_evaluator history
  have hevaluator := new_evaluator hnew
  refine ⟨⟨m, .new m { settings with seed }⟩, new_reseed hnew seed,
    fun requests requests' halike => ?_⟩
  refine answers_eq ?_ ?_ halike
  · show (i.after history).evaluator.model = m
    rw [hkept, hevaluator]
  · show (i.after history).evaluator.reseed seed = _
    rw [hkept, hevaluator]
    rfl

/-- A model that draws a number until its input is zero. -/
def drawing : Model where
  id := ⟨1⟩
  version := Model.formatVersion
  flags := {}
  maxStack := 1
  maxCallDepth := 0
  localCount := 1
  entry := 0
  schema := { inputs := [⟨"more", .bool, 0⟩], outputs := [⟨"drawn", .number, 0⟩] }
  points := #[]
  constants := #[]
  strings := #["more", "drawn"]
  code := #[Word.encode .random 0, Word.encode .storeLocal 0, Word.encode .loadLocal 0,
    Word.encode .storeOutput 0, Word.encode .loadInput 0, Word.encode .jumpIfTrue 0,
    Word.encode .halt 0]
  extends? := none
  debug? := none

/-- An evaluation that ends half-way, with a value on the stack and another one in a local, and one
that is refused. -/
theorem answers_of_history_drawing :
    ∃ i fresh, new drawing { instructionLimit := 7, seed := 0 } = .ok i ∧
      new drawing { instructionLimit := 7, seed := 3 } = .ok fresh ∧
      (i.evaluate #[1.0] #[0.0]).fault? = some (.instructionLimit 7) ∧
      (i.evaluate #[1.0] #[0.0]).interpreter.workspace.stack.height = 1 ∧
      ((i.after [.evaluate #[1.0] #[0.0], .evaluate #[] #[]]).reseed 3).answers
        [⟨#[1.0], #[5.0]⟩, ⟨#[0.0], #[5.0]⟩] =
          fresh.answers [⟨#[1.0], #[0.0]⟩, ⟨#[0.0], #[0.0]⟩] := by
  have hnew : new drawing { instructionLimit := 7, seed := 0 } = .ok ⟨drawing, .new drawing _⟩ := rfl
  obtain ⟨fresh, hfresh, hanswers⟩ :=
    answers_of_history hnew [.evaluate #[1.0] #[0.0], .evaluate #[] #[]] 3
  refine ⟨_, fresh, hnew, hfresh, by decide +kernel, by decide +kernel, hanswers _ _ ?_⟩
  exact .cons ⟨rfl, rfl, rfl, rfl⟩ (.cons ⟨rfl, rfl, rfl, rfl⟩ .nil)

end Interpreter

end Behavior
