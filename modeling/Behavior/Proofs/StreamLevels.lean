import Behavior.Proofs.Compiled
import Behavior.Stream

/-!
Streams of one document compiled at different levels, advanced in the same way and without
extensions. Each stream rests where a walk through its blocks has stopped, and the two walks are
related by the passes; an advance takes both on together.

The third level computes a value once for a whole block. If the block calls a flow that waits or
pauses, the value can outlive the inputs it was computed from, so there the two streams need not
agree. They do if the inputs stay the same, or if no such block calls what suspends.
-/

namespace Behavior

variable {stage : Stage} {phase : Phase} {point fuel fuel' rest limit : Nat} {signal' : Signal}
  {t : Stream}

/-! ## Driving streams -/

namespace Stream

variable {s : Stream} {p : ContinuationPoint}

/-- One advance as the caller asks for it. -/
structure Cue where
  dt : Duration
  inputs : Array Float
  /-- The outputs to write to, given those that the advance before has left. -/
  prepare : Array Float → Array Float

/-- What the caller sees of an advance. -/
structure Observation where
  result : Except Fault Phase
  awaited? : Option String
  outputs : Array Float

/-- Advance a stream once for each cue. -/
def drive (s : Stream) (outputs : Array Float) : List Cue → List Observation × Stream
  | [] => ([], s)
  | cue :: rest =>
    let a := s.advance cue.dt cue.inputs (cue.prepare outputs)
    let (later, last) := a.stream.drive a.outputs rest
    (⟨a.result, a.stream.awaitedPoint?, a.outputs⟩ :: later, last)

/-! ### What follows a run -/

/-- How a stream goes on after its stage has run. -/
def afterRun (s : Stream) (inputs : Array Float) : Stage.Outcome → Advance
  | .faulted f stage outputs => ⟨.error f, { s with stage }, outputs⟩
  | .stopped .halt stage outputs _ => ⟨.ok .terminal, { s with stage }, outputs⟩
  | .stopped (.wait seconds) stage outputs rest =>
    let stop := s.clock.add (.ofSeconds seconds)
    proceed rest { s with stage, waitUntil? := some stop } inputs outputs
  | .stopped (.pause point) stage outputs rest =>
    match pauseAt { s with stage } point with
    | .error f => ⟨.error f, { s with stage }, outputs⟩
    | .ok s => proceed rest s inputs outputs

/-- The stream once its stage has come to a continuation point. -/
def pausedAt (s : Stream) (stage : Stage) (point : Nat) (p : ContinuationPoint) : Stream :=
  let deadline := s.clock.add p.timeout
  { s with
    stage
    pending? := some ⟨stage.model.id, p.nameHash, deadline.clockNanos, false⟩
    awaiting? := some ⟨point, deadline, p.defaultOffset.toNat⟩ }

theorem afterRun_pause (h : stage.model.points[point]? = some p) (inputs outputs : Array Float)
    (rest : Nat) :
    s.afterRun inputs (.stopped (.pause point) stage outputs rest) =
      (s.pausedAt stage point p).proceed rest inputs outputs := by
  simp only [afterRun, pauseAt, h, pausedAt]

theorem proceed_of_error (h : s.ready = .error phase) (fuel : Nat) (inputs outputs : Array Float) :
    s.proceed fuel inputs outputs = ⟨.ok phase, s, outputs⟩ := by
  rw [proceed, h]

theorem proceed_of_ok (h : s.ready = .ok t) (fuel : Nat) (inputs outputs : Array Float) :
    s.proceed fuel inputs outputs = t.afterRun inputs
      (t.stage.run t.settings.run.instructionLimit.toNat fuel inputs outputs) := by
  rw [proceed, h]
  dsimp only
  split
  · next hrun => rw [hrun]; rfl
  · next hrun => rw [hrun]; rfl
  · next hrun => rw [hrun]; rfl
  · next hrun => rw [hrun]; rfl

theorem awaitedPoint?_of_point {a : Awaiting} (ha : s.awaiting? = some a)
    (hp : s.stage.model.points[a.point]? = some p) :
    s.awaitedPoint? = some p.name := by
  rw [awaitedPoint?, ha]
  show (s.stage.model.points[a.point]?.bind fun p => some p.name) = _
  rw [hp]
  rfl

/-- The frame that a stream goes on with when no extension comes. -/
def nextFrame (s : Stream) : Frame :=
  match s.awaiting? with
  | none => s.stage.frame
  | some a => { s.stage.frame with ip := a.defaultOffset }

/-- What a stream waits for, if anything: the end of a wait, or of a continuation point. -/
def blocked? (clock : Duration) (waitUntil? deadline? : Option Duration) : Option Phase :=
  if waitUntil?.any fun stop => clock.nanos < stop.nanos then some .running
  else if deadline?.any fun deadline => clock.nanos < deadline.nanos then some .awaitingExtension
  else none

/-- The stream past its wait and its continuation point. -/
def resumed (s : Stream) : Stream :=
  { s with
    waitUntil? := none
    awaiting? := none
    pending? := match s.awaiting? with
      | none => s.pending?
      | some _ => s.pending?.map fun p => { p with resolved := true }
    stage := { s.stage with frame := s.nextFrame } }

theorem ready_eq (s : Stream) :
    s.ready =
      if s.waitUntil?.any fun stop => s.clock.nanos < stop.nanos then .error .running
      else match s.awaiting? with
        | none => .ok { s with waitUntil? := none }
        | some a => match resolve? { s with waitUntil? := none } a with
          | some s => .ok s
          | none => .error .awaitingExtension := by
  unfold ready
  cases s.waitUntil? <;> rfl

/-- Without an extension a stream leaves its point once the deadline has passed. -/
theorem resolve?_of_incoming (h : s.incoming? = none) (a : Awaiting) :
    s.resolve? a =
      if a.deadline.nanos ≤ s.clock.nanos then
        some { s with
          pending? := s.pending?.map fun p => { p with resolved := true }
          awaiting? := none
          stage := { s.stage with frame := { s.stage.frame with ip := a.defaultOffset } } }
      else none := by
  unfold resolve?
  by_cases hle : a.deadline.nanos ≤ s.clock.nanos
  · rw [if_neg fun hlt => Nat.not_le.2 hlt.1 hle, h]
  · rw [h, if_neg hle]
    exact ite_self _

/-- Without extensions a stream runs on as soon as nothing blocks it. -/
theorem ready_of_incoming (h : s.incoming? = none) :
    match blocked? s.clock s.waitUntil? (s.awaiting?.map (·.deadline)) with
    | some phase => s.ready = .error phase
    | none => s.ready = .ok s.resumed := by
  rw [ready_eq, blocked?]
  generalize (s.waitUntil?.any fun stop => s.clock.nanos < stop.nanos) = waiting
  cases waiting with
  | true => rfl
  | false =>
    cases ha : s.awaiting? with
    | none =>
      simp only [resumed, nextFrame, ha]
      rfl
    | some a =>
      simp only [resolve?_of_incoming, h]
      by_cases hdeadline : s.clock.nanos < a.deadline.nanos
      · simp only [Option.map_some, Option.any_some, hdeadline, Nat.not_le.2 hdeadline,
          decide_true, Bool.false_eq_true, if_false, if_true]
      · simp only [Option.map_some, Option.any_some, hdeadline, Nat.le_of_not_lt hdeadline,
          decide_false, Bool.false_eq_true, if_false, if_true]
        simp only [resumed, nextFrame, ha, h]

/-! ### Advances -/

/-- The stream with its clock moved on. -/
def later (s : Stream) (dt : Duration) : Stream :=
  { s with clock := s.clock.add dt }

/-- An advance that records how it has ended. -/
def Advance.settle (a : Advance) : Advance :=
  match a.result with
  | .ok phase => { a with stream := { a.stream with phase } }
  | .error _ => { a with stream := { a.stream with phase := .terminal, hasFault := true } }

section

variable {s : Stream} {inputs outputs : Array Float}

theorem advance_of_terminal (hfault : s.hasFault = false) (hphase : s.phase = .terminal)
    (dt : Duration) : s.advance dt inputs outputs = ⟨.ok .terminal, s, outputs⟩ := by
  rw [advance, if_neg (ne_true_of_eq_false hfault), if_pos hphase]

theorem advance_of_error (hfault : s.hasFault = false) (hphase : s.phase ≠ .terminal) {f : Fault}
    (hsizes : s.root.checkVectors inputs outputs = .error f) (dt : Duration) :
    s.advance dt inputs outputs = ⟨.error f, s, outputs⟩ := by
  rw [advance, if_neg (ne_true_of_eq_false hfault), if_neg hphase, hsizes]

theorem advance_of_ok (hfault : s.hasFault = false) (hphase : s.phase ≠ .terminal)
    (hsizes : s.root.checkVectors inputs outputs = .ok ()) (dt : Duration) :
    s.advance dt inputs outputs =
      ((s.later dt).proceed s.settings.run.instructionLimit.toNat inputs outputs).settle := by
  rw [advance, if_neg (ne_true_of_eq_false hfault), if_neg hphase, hsizes]
  rfl

end

theorem hasFault_drive (h : s.hasFault = true) (outputs : Array Float) (cues : List Cue) :
    (s.drive outputs cues).2.hasFault = true := by
  induction cues generalizing s outputs with
  | nil => exact h
  | cons cue rest ih =>
    rw [drive]
    refine ih ?_ _
    rw [advance, if_pos h]
    exact h

theorem hasFault_of_drive {outputs : Array Float} {cues : List Cue}
    (h : (s.drive outputs cues).2.hasFault = false) : s.hasFault = false := by
  cases hs : s.hasFault with
  | false => rfl
  | true => exact absurd (s.hasFault_drive hs outputs cues) (ne_true_of_eq_false h)

end Stream

/-! ## Streams that rest where walks have stopped -/

/-- A model that has code for some blocks, and is fit to run. -/
structure Version (m : Model) (points : Array Typed.Point) where
  graph : BlockGraph
  extent : Extent
  assembled : Assembled m graph points
  fitness : Fitness m
  encodable : extent.Encodable
  within : graph.Within extent

theorem Assembled.Follows.withOutputs {m : Model} {g : BlockGraph} {points : Array Typed.Point}
    {A : Assembled m g points} {x : Extent} {site : Site} {w : Walk} {s : Machine}
    (h : A.Follows x site w s) (outputs : Array Float) :
    A.Follows x site { w with outputs } { s with outputs } :=
  ⟨h.stands, h.returns, h.stack, h.locals, rfl, h.random, h.within.block, h.within.calls⟩

namespace Version

variable {m : Model} {points : Array Typed.Point}

/-- A stream of the model rests where a walk has stopped. No extension is about to take over. -/
structure Rests (V : Version m points) (w : Walk) (s : Stream) : Prop where
  root : s.root = m
  model : s.stage.model = m
  bridge : s.stage.bridge? = none
  incoming : s.incoming? = none
  safe : s.nextFrame.Safe V.fitness
  follows : ∀ outputs, ∃ site, V.assembled.Follows V.extent site { w with outputs }
    { toFrame := s.nextFrame, outputs }

/-- A stream whose stage has stopped, and a walk that has stopped with it. -/
def Stops (V : Version m points) : Signal → Walk → Signal → Stream → Prop
  | .halt, _, .halt, s => s.awaiting? = none
  | .wait seconds, w, .wait seconds', s =>
    seconds' = seconds ∧ s.awaiting? = none ∧ V.Rests w s
  | .pause point, w, .pause i, s =>
    ∃ p, s.stage.model.points[i]? = some p ∧ p.name = (points.getD point default).name ∧
      p.timeoutMs = (points.getD point default).timeoutMs.toUInt32 ∧
      ∀ deadline, V.Rests w { s with awaiting? := some ⟨i, deadline, p.defaultOffset.toNat⟩ }
  | _, _, _, _ => False

variable {V : Version m points} {w : Walk} {s : Stream} {inputs outputs : Array Float}
  {signal : Signal}

theorem Rests.run (h : V.Rests w s) (hawaiting : s.awaiting? = none)
    (hi : inputs.size = m.inputSize) (ho : outputs.size = m.outputSize) {outputs' : Array Float}
    (hrun : s.stage.run limit fuel inputs outputs = .stopped signal' stage outputs' rest) :
    ∃ k signal w', Walk.Runs V.graph inputs false k { w with outputs } signal w' ∧
      w'.outputs = outputs' ∧ outputs'.size = m.outputSize ∧
      V.Stops signal w' signal' { s with stage } := by
  have hframe : s.nextFrame = s.stage.frame := by rw [Stream.nextFrame, hawaiting]
  have hsafe : Machine.Safe V.fitness { toFrame := s.stage.frame, outputs } :=
    ⟨hframe ▸ h.safe, ho⟩
  obtain ⟨site, hfollows⟩ := h.follows outputs
  rw [hframe] at hfollows
  simp only [Stage.run, h.bridge, h.model] at hrun
  split at hrun
  · next signal' t rest hrun' =>
    cases hrun
    have hend := hsafe.run hi limit false fuel
    rw [hrun'] at hend
    obtain ⟨k, site', signal, w', hruns, hstopped, -⟩ :=
      hfollows.run V.encodable V.within hi hsafe hrun'
    refine ⟨k, signal, w', hruns, ?_⟩
    cases signal with
    | halt =>
      cases signal' with
      | halt => exact ⟨hstopped.1, hend, hawaiting⟩
      | wait seconds | pause i => exact hstopped.elim
    | wait seconds =>
      cases signal' with
      | halt | pause i => exact hstopped.elim
      | wait seconds' =>
        obtain ⟨rfl, hfollows'⟩ := hstopped
        have hend : t.Safe V.fitness := hend
        refine ⟨hfollows'.outputs, hend.outputs, rfl, hawaiting, h.root, rfl, rfl, h.incoming,
          ?_, ?_⟩
        · rw [Stream.nextFrame, hawaiting]
          exact hend.toSafe
        · intro outputs
          rw [Stream.nextFrame, hawaiting]
          exact ⟨site', hfollows'.withOutputs outputs⟩
    | pause point =>
      cases signal' with
      | halt | wait seconds => exact hstopped.elim
      | pause i =>
        obtain ⟨p, hp, hname, htimeout, site', hfollows'⟩ := hstopped
        obtain ⟨p', hp', hend⟩ := hend
        cases hp.symm.trans hp'
        refine ⟨hfollows'.outputs, hend.outputs, p, hp, hname, htimeout, fun deadline => ?_⟩
        exact ⟨h.root, rfl, rfl, h.incoming, hend.toSafe,
          fun outputs => ⟨site', hfollows'.withOutputs outputs⟩⟩
  · cases hrun

theorem Stops.of_halt (h : V.Stops .halt w signal s) :
    signal = .halt ∧ s.awaiting? = none := by
  cases signal with
  | halt => exact ⟨rfl, h⟩
  | wait seconds | pause i => exact h.elim

theorem Stops.of_wait {seconds : Float} (h : V.Stops (.wait seconds) w signal s) :
    signal = .wait seconds ∧ V.Rests w s := by
  cases signal with
  | halt | pause i => exact h.elim
  | wait seconds' => exact ⟨congrArg Signal.wait h.1, h.2.2⟩

theorem Stops.of_pause (h : V.Stops (.pause point) w signal s) :
    ∃ i p, signal = .pause i ∧ s.stage.model.points[i]? = some p ∧
      p.name = (points.getD point default).name ∧
      p.timeoutMs = (points.getD point default).timeoutMs.toUInt32 ∧
      ∀ deadline, V.Rests w { s with awaiting? := some ⟨i, deadline, p.defaultOffset.toNat⟩ } := by
  cases signal with
  | halt | wait seconds => exact h.elim
  | pause i =>
    obtain ⟨p, hp⟩ := h
    exact ⟨i, p, rfl, hp⟩

/-- Only the stage of a stream and what it waits for matter. -/
theorem Rests.same (h : V.Rests w s) (hroot : t.root = s.root) (hstage : t.stage = s.stage)
    (hincoming : t.incoming? = s.incoming?) (hawaiting : t.awaiting? = s.awaiting?) :
    V.Rests w t := by
  have hframe : t.nextFrame = s.nextFrame := by
    rw [Stream.nextFrame, Stream.nextFrame, hstage, hawaiting]
  exact ⟨hroot.trans h.root, hstage ▸ h.model, hstage ▸ h.bridge, hincoming.trans h.incoming,
    hframe ▸ h.safe, hframe ▸ h.follows⟩

theorem Rests.resumed (h : V.Rests w s) : V.Rests w s.resumed :=
  ⟨h.root, h.model, h.bridge, h.incoming, h.safe, h.follows⟩

end Version

/-! ## Two streams side by side -/

section

variable {m m' : Model} {points : Array Typed.Point}

/-- Streams of two versions rest where related walks have stopped. The walks stay related if they go
on with any outputs and with inputs that are allowed. -/
structure Abreast (V : Version m points) (V' : Version m' points)
    (rel : Array Float → Walk → Walk → Prop) (allowed : Array Float → Prop) (s s' : Stream) :
    Prop where
  clock : s'.clock = s.clock
  waitUntil : s'.waitUntil? = s.waitUntil?
  deadline : s'.awaiting?.map (·.deadline) = s.awaiting?.map (·.deadline)
  awaited : s'.awaitedPoint? = s.awaitedPoint?
  walks : ∃ w w', V.Rests w s ∧ V'.Rests w' s' ∧
    ∀ inputs, allowed inputs → ∀ outputs, rel inputs { w with outputs } { w' with outputs }

/-- What two streams do together. A stream that is done awaits nothing. -/
structure Agrees (V : Version m points) (V' : Version m' points)
    (rel : Array Float → Walk → Walk → Prop) (allowed : Array Float → Prop)
    (phase phase' : Phase) (a a' : Stream.Advance) : Prop where
  phases : phase' = phase
  outputs : a'.outputs = a.outputs
  streams : if phase = .terminal then a.stream.awaiting? = none ∧ a'.stream.awaiting? = none
    else Abreast V V' rel allowed a.stream a'.stream

variable {V : Version m points} {V' : Version m' points} {rel : Array Float → Walk → Walk → Prop}
  {allowed : Array Float → Prop} {changes : Prop} {s s' : Stream} {inputs outputs : Array Float}

theorem Stream.blocked?_ne_terminal {clock : Duration} {waitUntil? deadline? : Option Duration}
    (h : blocked? clock waitUntil? deadline? = some phase) : phase ≠ .terminal := by
  unfold blocked? at h
  split at h
  · cases h
    decide
  · split at h
    · cases h
      decide
    · cases h

/-- The stages of two streams run to the same signal and leave the same outputs. -/
theorem Version.Rests.run_together (hrel : Carries changes V.graph V'.graph rel) {w w' : Walk}
    (hw : V.Rests w s) (hw' : V'.Rests w' s') (hs : s.awaiting? = none) (hs' : s'.awaiting? = none)
    (hi : inputs.size = m.inputSize) (hi' : inputs.size = m'.inputSize)
    (ho : outputs.size = m.outputSize) (ho' : outputs.size = m'.outputSize)
    (hwalks : rel inputs { w with outputs } { w' with outputs }) {limit' : Nat} {signal : Signal}
    {stage' : Stage} {outputs₁ outputs₁' : Array Float} {rest' : Nat}
    (hrun : s.stage.run limit fuel inputs outputs = .stopped signal stage outputs₁ rest)
    (hrun' : s'.stage.run limit' fuel' inputs outputs = .stopped signal' stage' outputs₁' rest') :
    outputs₁' = outputs₁ ∧ outputs₁.size = m.outputSize ∧ ∃ sig w₁ w₁',
      V.Stops sig w₁ signal { s with stage } ∧ V'.Stops sig w₁' signal' { s' with stage := stage' } ∧
      ∀ inputs' outputs', inputs' = inputs ∨ changes ∧ sig ≠ .halt →
        rel inputs' { w₁ with outputs := outputs' } { w₁' with outputs := outputs' } := by
  obtain ⟨k, sig, w₁, hruns, houtputs, hsize, hstops⟩ := hw.run hs hi ho hrun
  obtain ⟨k', sig', w₁', hruns', houtputs', -, hstops'⟩ := hw'.run hs' hi' ho' hrun'
  obtain ⟨n, v, hruns₂, hv, hresume⟩ := hrel.run hwalks hruns
  obtain ⟨rfl, rfl⟩ := hruns₂.unique hruns'
  obtain ⟨hsame, -⟩ := hrel.observed hv
  exact ⟨houtputs'.symm.trans (hsame.trans houtputs), hsize, sig, w₁, v, hstops, hstops', hresume⟩

/-- Streams that are abreast stay so while they run, if neither comes to a fault. -/
theorem Abreast.proceed (hrel : Carries changes V.graph V'.graph rel)
    (hallowed : ∀ i i', allowed i → allowed i' → i' = i ∨ changes) (hinputs : allowed inputs)
    (hi : inputs.size = m.inputSize) (hi' : inputs.size = m'.inputSize)
    (hsize : m'.outputSize = m.outputSize) (ho : outputs.size = m.outputSize)
    (h : Abreast V V' rel allowed s s') {phase' : Phase}
    (hok : (s.proceed fuel inputs outputs).result = .ok phase)
    (hok' : (s'.proceed fuel' inputs outputs).result = .ok phase') :
    Agrees V V' rel allowed phase phase' (s.proceed fuel inputs outputs)
      (s'.proceed fuel' inputs outputs) := by
  induction fuel using Nat.strongRecOn generalizing fuel' s s' outputs with
  | ind fuel ih =>
    obtain ⟨w, w', hw, hw', hwalks⟩ := h.walks
    have hready := Stream.ready_of_incoming hw.incoming
    have hready' := Stream.ready_of_incoming hw'.incoming
    rw [h.clock, h.waitUntil, h.deadline] at hready'
    cases hblocked : Stream.blocked? s.clock s.waitUntil? (s.awaiting?.map (·.deadline)) with
    | some phase₀ =>
      rw [hblocked] at hready hready'
      rw [Stream.proceed_of_error hready] at hok ⊢
      rw [Stream.proceed_of_error hready'] at hok' ⊢
      cases hok
      cases hok'
      refine ⟨rfl, rfl, ?_⟩
      rw [if_neg (Stream.blocked?_ne_terminal hblocked)]
      exact h
    | none =>
      rw [hblocked] at hready hready'
      rw [Stream.proceed_of_ok hready] at hok ⊢
      rw [Stream.proceed_of_ok hready'] at hok' ⊢
      cases hrun : s.resumed.stage.run
          s.resumed.settings.run.instructionLimit.toNat fuel inputs outputs with
      | faulted f stage outputs =>
        rw [hrun] at hok
        cases hok
      | stopped signal stage outputs₁ rest =>
        cases hrun' : s'.resumed.stage.run
            s'.resumed.settings.run.instructionLimit.toNat fuel' inputs outputs with
        | faulted f stage outputs =>
          rw [hrun'] at hok'
          cases hok'
        | stopped signal' stage' outputs₁' rest' =>
          rw [hrun] at hok
          rw [hrun'] at hok'
          obtain ⟨rfl, ho₁, sig, w₁, w₁', hstops, hstops', hresume⟩ :=
            hw.resumed.run_together hrel hw'.resumed rfl rfl hi hi' ho
              (ho.trans hsize.symm) (hwalks inputs hinputs outputs) hrun hrun'
          have hagain : sig ≠ .halt → ∀ inputs', allowed inputs' → ∀ outputs',
              rel inputs' { w₁ with outputs := outputs' } { w₁' with outputs := outputs' } :=
            fun hsig inputs' hinputs' outputs' => hresume inputs' outputs'
              ((hallowed inputs inputs' hinputs hinputs').imp_right fun hc => ⟨hc, hsig⟩)
          have hless := Stage.fuel_lt_of_run hrun
          cases sig with
          | halt =>
            obtain ⟨rfl, hdone⟩ := hstops.of_halt
            obtain ⟨rfl, hdone'⟩ := hstops'.of_halt
            cases hok
            cases hok'
            exact ⟨rfl, rfl, hdone, hdone'⟩
          | wait seconds =>
            obtain ⟨rfl, hrests⟩ := hstops.of_wait
            obtain ⟨rfl, hrests'⟩ := hstops'.of_wait
            refine ih rest hless ho₁ ⟨h.clock, ?_, rfl, rfl, w₁, w₁',
              hrests.same rfl rfl rfl rfl, hrests'.same rfl rfl rfl rfl, hagain nofun⟩ hok hok'
            show some (s'.clock.add _) = some (s.clock.add _)
            rw [h.clock]
          | pause point =>
            obtain ⟨i, q, rfl, hq, hname, htimeout, hrests⟩ := hstops.of_pause
            obtain ⟨i', q', rfl, hq', hname', htimeout', hrests'⟩ := hstops'.of_pause
            rw [Stream.afterRun_pause hq] at hok ⊢
            rw [Stream.afterRun_pause hq'] at hok' ⊢
            have htime : q'.timeout = q.timeout := by
              rw [ContinuationPoint.timeout, ContinuationPoint.timeout, htimeout, htimeout']
            refine ih rest hless ho₁ ⟨h.clock, rfl, ?_, ?_, w₁, w₁',
              (hrests _).same rfl rfl rfl rfl, (hrests' _).same rfl rfl rfl rfl, hagain nofun⟩
              hok hok'
            · show some (s'.clock.add q'.timeout) = some (s.clock.add q.timeout)
              rw [h.clock, htime]
            · rw [Stream.awaitedPoint?_of_point rfl hq', Stream.awaitedPoint?_of_point rfl hq, hname,
                hname']

/-! ## Advances side by side -/

/-- Two streams between advances: without a fault, in the same phase, and abreast unless they are
done. -/
structure InStep (V : Version m points) (V' : Version m' points)
    (rel : Array Float → Walk → Walk → Prop) (allowed : Array Float → Prop) (s s' : Stream) :
    Prop where
  sound : s.hasFault = false
  sound' : s'.hasFault = false
  phase : s'.phase = s.phase
  streams : if s.phase = .terminal then s.awaiting? = none ∧ s'.awaiting? = none
    else Abreast V V' rel allowed s s'

theorem InStep.awaited (h : InStep V V' rel allowed s s') : s'.awaitedPoint? = s.awaitedPoint? := by
  have hstreams := h.streams
  split at hstreams
  · rw [Stream.awaitedPoint?, Stream.awaitedPoint?, hstreams.1, hstreams.2]
    rfl
  · exact hstreams.awaited

theorem Abreast.later (h : Abreast V V' rel allowed s s') (dt : Duration) :
    Abreast V V' rel allowed (s.later dt) (s'.later dt) := by
  obtain ⟨w, w', hw, hw', hwalks⟩ := h.walks
  refine ⟨?_, h.waitUntil, h.deadline, h.awaited, w, w', hw.same rfl rfl rfl rfl,
    hw'.same rfl rfl rfl rfl, hwalks⟩
  show s'.clock.add dt = s.clock.add dt
  rw [h.clock]

theorem Abreast.withPhase (h : Abreast V V' rel allowed s s') (phase : Phase) :
    Abreast V V' rel allowed { s with phase } { s' with phase } := by
  obtain ⟨w, w', hw, hw', hwalks⟩ := h.walks
  exact ⟨h.clock, h.waitUntil, h.deadline, h.awaited, w, w', hw.same rfl rfl rfl rfl,
    hw'.same rfl rfl rfl rfl, hwalks⟩

theorem InStep.settle {a a' : Stream.Advance} (hok : a.settle.stream.hasFault = false)
    (hok' : a'.settle.stream.hasFault = false)
    (hagrees : ∀ phase phase', a.result = .ok phase → a'.result = .ok phase' →
      Agrees V V' rel allowed phase phase' a a') :
    a'.settle.result = a.settle.result ∧ a'.settle.outputs = a.settle.outputs ∧
      InStep V V' rel allowed a.settle.stream a'.settle.stream := by
  unfold Stream.Advance.settle at hok hok' ⊢
  cases hresult : a.result with
  | error fault =>
    rw [hresult] at hok
    cases hok
  | ok phase =>
    cases hresult' : a'.result with
    | error fault =>
      rw [hresult'] at hok'
      cases hok'
    | ok phase' =>
      rw [hresult] at hok
      rw [hresult'] at hok'
      obtain ⟨rfl, houtputs, hstreams⟩ := hagrees phase phase' hresult hresult'
      refine ⟨rfl, houtputs, hok, hok', rfl, ?_⟩
      split at hstreams
      · next hdone => exact (if_pos hdone).symm ▸ hstreams
      · next hdone => exact (if_neg hdone).symm ▸ hstreams.withPhase phase'

/-- An advance of two streams that are in step cannot be told apart, and leaves them in step. -/
theorem InStep.advance (hrel : Carries changes V.graph V'.graph rel)
    (hallowed : ∀ i i', allowed i → allowed i' → i' = i ∨ changes) (hinputs : allowed inputs)
    (hschema : m'.schema = m.schema) (h : InStep V V' rel allowed s s') (dt : Duration)
    (outputs : Array Float) (hok : (s.advance dt inputs outputs).stream.hasFault = false)
    (hok' : (s'.advance dt inputs outputs).stream.hasFault = false) :
    (s'.advance dt inputs outputs).result = (s.advance dt inputs outputs).result ∧
      (s'.advance dt inputs outputs).outputs = (s.advance dt inputs outputs).outputs ∧
      InStep V V' rel allowed (s.advance dt inputs outputs).stream
        (s'.advance dt inputs outputs).stream := by
  by_cases hdone : s.phase = .terminal
  · rw [Stream.advance_of_terminal h.sound hdone,
      Stream.advance_of_terminal h.sound' (h.phase.trans hdone)]
    exact ⟨rfl, rfl, h⟩
  have hdone' : s'.phase ≠ .terminal := h.phase ▸ hdone
  have habreast := h.streams
  rw [if_neg hdone] at habreast
  obtain ⟨w, w', hw, hw', -⟩ := habreast.walks
  have hi : m'.inputSize = m.inputSize := by rw [Model.inputSize, Model.inputSize, hschema]
  have ho : m'.outputSize = m.outputSize := by rw [Model.outputSize, Model.outputSize, hschema]
  have hsame : s'.root.checkVectors inputs outputs = s.root.checkVectors inputs outputs := by
    rw [Model.checkVectors, Model.checkVectors, hw.root, hw'.root, hi, ho]
  cases hsizes : s.root.checkVectors inputs outputs with
  | error fault =>
    rw [Stream.advance_of_error h.sound hdone hsizes,
      Stream.advance_of_error h.sound' hdone' (hsame.trans hsizes)]
    exact ⟨rfl, rfl, h⟩
  | ok =>
    obtain ⟨hinputSize, houtputSize⟩ := Evaluator.checkVectors_eq_ok.1 (hw.root ▸ hsizes)
    rw [Stream.advance_of_ok h.sound hdone hsizes] at hok ⊢
    rw [Stream.advance_of_ok h.sound' hdone' (hsame.trans hsizes)] at hok' ⊢
    refine InStep.settle hok hok' fun phase phase' hphase hphase' => ?_
    exact (habreast.later dt).proceed hrel hallowed hinputs hinputSize (hinputSize.trans hi.symm) ho
      houtputSize hphase hphase'

/-- Driven alike, streams that are in step cannot be told apart. -/
theorem InStep.drive (hrel : Carries changes V.graph V'.graph rel)
    (hallowed : ∀ i i', allowed i → allowed i' → i' = i ∨ changes) (hschema : m'.schema = m.schema)
    {cues : List Stream.Cue} (hcues : ∀ cue ∈ cues, allowed cue.inputs)
    (h : InStep V V' rel allowed s s') (hok : (s.drive outputs cues).2.hasFault = false)
    (hok' : (s'.drive outputs cues).2.hasFault = false) :
    (s'.drive outputs cues).1 = (s.drive outputs cues).1 := by
  induction cues generalizing s s' outputs with
  | nil => rfl
  | cons cue rest ih =>
    obtain ⟨hresult, houtputs, hnext⟩ := h.advance hrel hallowed
      (hcues cue List.mem_cons_self) hschema cue.dt (cue.prepare outputs)
      (Stream.hasFault_of_drive hok) (Stream.hasFault_of_drive hok')
    simp only [Stream.drive, hresult, houtputs, hnext.awaited]
    rw [Stream.drive, houtputs] at hok'
    rw [ih (fun c hc => hcues c (List.mem_cons_of_mem _ hc)) hnext hok hok']

theorem Version.Rests.start (V : Version m points) (settings : StreamSettings) :
    V.Rests (.start V.graph #[] ⟨settings.run.seed⟩) (.new m settings) where
  root := rfl
  model := rfl
  bridge := rfl
  incoming := rfl
  safe := Frame.Safe.start V.fitness _
  follows outputs := by
    obtain ⟨ahead, -, hfollows⟩ := Assembled.Follows.start V.assembled V.within outputs _
    exact ⟨⟨ahead, []⟩, hfollows⟩

theorem InStep.start (hrel : Carries changes V.graph V'.graph rel) (allowed : Array Float → Prop)
    (settings : StreamSettings) :
    InStep V V' rel allowed (.new m settings) (.new m' settings) where
  sound := rfl
  sound' := rfl
  phase := rfl
  streams := ⟨rfl, rfl, rfl, rfl, _, _, .start V settings, .start V' settings,
    fun inputs _ outputs => hrel.start inputs outputs _⟩

end

theorem CompileOptions.clamp_level_le (o : CompileOptions) : o.clamp.level ≤ o.level := by
  show (if o.level ≤ maxLevel then o.level else maxLevel) ≤ o.level
  split
  · exact UInt8.le_refl _
  · next h => exact UInt8.le_of_lt (UInt8.not_le.1 h)

theorem Compiled.exists_version {registry : Registry} {d : Document} {p : Typed.Program}
    {names : Typed.Names} {graph : FlowGraph} (hp : Typed.Checked registry d p names graph)
    {level : UInt8} {m : Model} (h : Compiled p level m) :
    ∃ V : Version m p.points, V.graph = p.toBlocks.optimize level := by
  obtain ⟨A⟩ := h.assembled
  obtain ⟨f⟩ := Model.fitness_of_check h.check
  exact ⟨⟨_, _, A, f, h.encodable, within hp⟩, rfl⟩

namespace Stream

/-- A stream of a document compiled as it is written and a stream of the document compiled at
another level cannot be told apart by advancing them in the same way without extensions, if neither
comes to a fault. At the third level either the inputs stay the same, or blocks that compute a value
only once call nothing that suspends. -/
theorem drive_of_levels {registry : Registry} {d : Document} {plain improved : CompileOptions}
    (hplain : plain.level = 0) {m m' : Model} (hm : compile registry plain d = .ok m)
    (hm' : compile registry improved d = .ok m') (settings : StreamSettings) {outputs : Array Float}
    {cues : List Cue}
    (hquiet : improved.level ≤ 2 ∨ (∃ inputs, ∀ cue ∈ cues, cue.inputs = inputs) ∨
      ∀ p, Typed.check registry d = .ok p → p.toBlocks.simplify.SharesQuietly)
    (hok : ((Stream.new m settings).drive outputs cues).2.hasFault = false)
    (hok' : ((Stream.new m' settings).drive outputs cues).2.hasFault = false) :
    ((Stream.new m' settings).drive outputs cues).1 =
      ((Stream.new m settings).drive outputs cues).1 := by
  obtain ⟨p, hp, hcompiled⟩ := compile_ok hm
  obtain ⟨p', hp', hcompiled'⟩ := compile_ok hm'
  cases hp.symm.trans hp'
  obtain ⟨names, graph, hchecked⟩ := Typed.check_ok hp
  have hlevel : plain.clamp.level = 0 := by
    rw [CompileOptions.clamp, hplain]
    rfl
  rw [hlevel] at hcompiled
  have hschema : m'.schema = m.schema := hcompiled'.schema.trans hcompiled.schema.symm
  obtain ⟨V, hV⟩ := hcompiled.exists_version hchecked
  obtain ⟨V', hV'⟩ := hcompiled'.exists_version hchecked
  -- either the inputs stay the same, or they may change
  have hcarried : ∃ (changes : Prop) (allowed : Array Float → Prop),
      (∀ i i', allowed i → allowed i' → i' = i ∨ changes) ∧ (∀ cue ∈ cues, allowed cue.inputs) ∧
      Carried changes V.graph V'.graph := by
    rw [hV, hV']
    by_cases hsame : ∃ inputs, ∀ cue ∈ cues, cue.inputs = inputs
    · obtain ⟨inputs, hsame⟩ := hsame
      refine ⟨False, (· = inputs), fun i i' hi hi' => .inl (hi'.trans hi.symm), hsame, ?_⟩
      exact (p.toBlocks.optimize_improves False _ hchecked.within fun h => h.elim).1
    · refine ⟨True, fun _ => True, fun _ _ _ _ => .inr trivial, fun _ _ => trivial, ?_⟩
      refine (p.toBlocks.optimize_improves True _ hchecked.within fun _ hthird => ?_).1
      rcases hquiet with hlow | hsame' | hquiet
      · have hle := UInt8.le_trans hthird (UInt8.le_trans improved.clamp_level_le hlow)
        exact absurd hle (by decide)
      · exact absurd hsame' hsame
      · exact hquiet p hp
  obtain ⟨changes, allowed, hallowed, hcues, rel, hrel⟩ := hcarried
  exact (InStep.start hrel allowed settings).drive hrel hallowed hschema hcues hok hok'

/-- The wait of the called flow starts with the first cue and is over with the second. -/
def scalingCues (first second : Array Float) : List Cue :=
  [⟨.zero, first, id⟩, ⟨⟨2000000000⟩, second, id⟩]

theorem drive_of_levels_scaling :
    let plain := Stream.new Evaluator.plainScaling {}
    let shared := Stream.new Evaluator.sharedScaling {}
    let cues := scalingCues #[2.0, 3.0] #[2.0, 3.0]
    compile Evaluator.scalingRegistry { level := 0, id? := some ⟨1⟩ } Evaluator.scaling =
        .ok Evaluator.plainScaling ∧
      compile Evaluator.scalingRegistry { level := 3, id? := some ⟨1⟩ } Evaluator.scaling =
        .ok Evaluator.sharedScaling ∧
      (∀ cue ∈ cues, cue.inputs = #[2.0, 3.0]) ∧
      (plain.drive #[0.0, 0.0] cues).2.hasFault = false ∧
      (shared.drive #[0.0, 0.0] cues).2.hasFault = false ∧
      (shared.drive #[0.0, 0.0] cues).1 = (plain.drive #[0.0, 0.0] cues).1 := by
  intro plain shared cues
  have hplain : compile Evaluator.scalingRegistry { level := 0, id? := some ⟨1⟩ }
      Evaluator.scaling = .ok Evaluator.plainScaling := by cbv
  have hshared : compile Evaluator.scalingRegistry { level := 3, id? := some ⟨1⟩ }
      Evaluator.scaling = .ok Evaluator.sharedScaling := by cbv
  have hcues : ∀ cue ∈ cues, cue.inputs = #[2.0, 3.0] := by
    simp [cues, scalingCues]
  have hok : (plain.drive #[0.0, 0.0] cues).2.hasFault = false := by
    decide +kernel
  have hok' : (shared.drive #[0.0, 0.0] cues).2.hasFault = false := by
    decide +kernel
  exact ⟨hplain, hshared, hcues, hok, hok',
    drive_of_levels rfl hplain hshared {} (.inr (.inl ⟨_, hcues⟩)) hok hok'⟩

/-- If the inputs change during the wait, the product that was kept is out of date. -/
theorem drive_scaling_changed :
    let plain := Stream.new Evaluator.plainScaling {}
    let shared := Stream.new Evaluator.sharedScaling {}
    let cues := scalingCues #[2.0, 3.0] #[5.0, 7.0]
    ((plain.drive #[0.0, 0.0] cues).1.map fun o => o.outputs.getD 1 0.0) = [0.0, 35.0] ∧
      ((shared.drive #[0.0, 0.0] cues).1.map fun o => o.outputs.getD 1 0.0) = [0.0, 6.0] := by
  decide +kernel

end Stream

end Behavior
