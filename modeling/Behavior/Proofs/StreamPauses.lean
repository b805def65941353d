import Behavior.Proofs.StreamSafety

/-!
What becomes of a continuation point that a stream has come to.

Between the pause and its end a stream either waits or holds the one extension it has accepted.
While it waits, calls that fail change nothing and advances short of the deadline change its clock
only. The first advance past the deadline goes on at the default offset. Once it holds an
extension, all others are refused, and the next advance runs the extension from its entry.
-/

namespace Behavior

/-- The stage that an outcome leaves behind. -/
def Stage.Outcome.stage : Stage.Outcome → Stage
  | .faulted _ stage _ => stage
  | .stopped _ stage _ _ => stage

/-- The outputs that it leaves behind. -/
def Stage.Outcome.outputs : Stage.Outcome → Array Float
  | .faulted _ _ outputs => outputs
  | .stopped _ _ outputs _ => outputs

/-- A run changes nothing but the frame. -/
theorem Stage.stage_run {stage : Stage} {limit fuel : Nat} {inputs outputs : Array Float}
    {o : Stage.Outcome} (h : stage.run limit fuel inputs outputs = o) :
    ∃ frame, o.stage = { stage with frame } := by
  subst h
  rw [Stage.run_eq]
  generalize Machine.run _ _ _ _ _ _ = o
  cases o with
  | stopped signal s rest | faulted f s => exact ⟨s.toFrame, rfl⟩

theorem Stage.model_run {stage : Stage} {limit fuel : Nat} {inputs outputs : Array Float}
    {o : Stage.Outcome} (h : stage.run limit fuel inputs outputs = o) :
    o.stage.model = stage.model := by
  obtain ⟨frame, hframe⟩ := Stage.stage_run h
  rw [hframe]

namespace Stream

variable {s : Stream} {inputs : Array Float}

/-! ## Pauses within an advance -/

/-- A stream within an advance, between the runs of two stages: the instructions that are left, and
the outputs so far. -/
structure Turn where
  stream : Stream
  fuel : Nat
  outputs : Array Float

/-- Run on from there. -/
def Turn.proceed (c : Turn) (inputs : Array Float) : Advance :=
  c.stream.proceed c.fuel inputs c.outputs

/-- Where an advance begins. -/
def enter (s : Stream) (dt : Duration) (outputs : Array Float) : Turn :=
  ⟨s.later dt, s.settings.run.instructionLimit.toNat, outputs⟩

/-- A stage runs until it pauses. -/
inductive Turn.Pauses (inputs : Array Float) (c : Turn) (p : ContinuationPoint) : Turn → Prop
  | intro {t : Stream} {point rest : Nat} {stage : Stage} {outputs : Array Float}
    (ready : c.stream.ready = .ok t)
    (run : t.stage.run t.settings.run.instructionLimit.toNat c.fuel inputs c.outputs =
      .stopped (.pause point) stage outputs rest)
    (declared : stage.model.points[point]? = some p) :
    Pauses inputs c p ⟨t.pausedAt stage point p, rest, outputs⟩

/-- A stage runs until it waits. -/
inductive Turn.Sleeps (inputs : Array Float) (c : Turn) : Turn → Prop
  | intro {t : Stream} {seconds : Float} {rest : Nat} {stage : Stage} {outputs : Array Float}
    (ready : c.stream.ready = .ok t)
    (run : t.stage.run t.settings.run.instructionLimit.toNat c.fuel inputs c.outputs =
      .stopped (.wait seconds) stage outputs rest) :
    Sleeps inputs c
      ⟨{ t with stage, waitUntil? := some (t.clock.add (.ofSeconds seconds)) }, rest, outputs⟩

/-- Stages run one after the other until the last of them pauses. -/
inductive Turn.Reaches (inputs : Array Float) (p : ContinuationPoint) (last : Turn) : Turn → Prop
  | pause {c : Turn} : c.Pauses inputs p last → Reaches inputs p last c
  | afterPause {c d : Turn} {q : ContinuationPoint} :
    c.Pauses inputs q d → Reaches inputs p last d → Reaches inputs p last c
  | afterSleep {c d : Turn} : c.Sleeps inputs d → Reaches inputs p last d → Reaches inputs p last c

/-- An advance of the stream comes to a continuation point. -/
structure PausesAt (s : Stream) (dt : Duration) (inputs outputs : Array Float)
    (p : ContinuationPoint) (c : Turn) : Prop where
  hasFault : s.hasFault = false
  phase : s.phase ≠ .terminal
  inputs_size : inputs.size = s.root.inputSize
  outputs_size : outputs.size = s.root.outputSize
  reaches : Turn.Reaches inputs p c (s.enter dt outputs)

/-! ## Advances that run -/

/-- Nothing keeps a stream from running on these vectors. -/
structure Runs (s : Stream) (inputs outputs : Array Float) : Prop where
  hasFault : s.hasFault = false
  phase : s.phase ≠ .terminal
  inputs_size : inputs.size = s.root.inputSize
  outputs_size : outputs.size = s.root.outputSize

theorem Runs.advance_eq {outputs : Array Float} (h : s.Runs inputs outputs) (dt : Duration) :
    s.advance dt inputs outputs = ((s.enter dt outputs).proceed inputs).settle :=
  advance_of_ok h.hasFault h.phase
    (Evaluator.checkVectors_eq_ok.2 ⟨h.inputs_size, h.outputs_size⟩) dt

theorem advance_cases (s : Stream) (dt : Duration) (inputs outputs : Array Float) :
    s.Runs inputs outputs ∨ ∃ result, s.advance dt inputs outputs = ⟨result, s, outputs⟩ := by
  cases hfault : s.hasFault with
  | true => exact .inr ⟨.error .faulted, by rw [advance, if_pos hfault]⟩
  | false =>
    by_cases hphase : s.phase = .terminal
    · exact .inr ⟨_, advance_of_terminal hfault hphase dt⟩
    · cases hsizes : s.root.checkVectors inputs outputs with
      | error f => exact .inr ⟨_, advance_of_error hfault hphase hsizes dt⟩
      | ok _ =>
        obtain ⟨hi, ho⟩ := Evaluator.checkVectors_eq_ok.1 hsizes
        exact .inl ⟨hfault, hphase, hi, ho⟩

/-! ## How an advance goes on -/

/-- One stage has run, and the stream is to run on. -/
def Turn.Next (inputs : Array Float) (c d : Turn) : Prop :=
  (∃ p, c.Pauses inputs p d) ∨ c.Sleeps inputs d

/-- Running on, turn by turn: the stream has to wait, it is done after the run of a stage, or there
is another turn. -/
theorem Turn.proceed_induction {motive : Turn → Advance → Prop}
    (blocked : ∀ {c : Turn} {phase : Phase}, c.stream.ready = .error phase →
      motive c ⟨.ok phase, c.stream, c.outputs⟩)
    (done : ∀ {c : Turn} {t : Stream} {o : Stage.Outcome} {result : Except Fault Phase},
      c.stream.ready = .ok t →
      t.stage.run t.settings.run.instructionLimit.toNat c.fuel inputs c.outputs = o →
      result = .ok .terminal ∨ (∃ f, result = .error f) →
      motive c ⟨result, { t with stage := o.stage }, o.outputs⟩)
    (next : ∀ {c d : Turn}, c.Next inputs d → motive d (d.proceed inputs) →
      motive c (d.proceed inputs)) (c : Turn) : motive c (c.proceed inputs) := by
  obtain ⟨s, fuel, outputs⟩ := c
  induction fuel using Nat.strongRecOn generalizing s outputs with
  | ind fuel ih =>
    unfold Turn.proceed
    dsimp only
    cases hready : s.ready with
    | error phase =>
      rw [proceed_of_error hready]
      exact blocked hready
    | ok t =>
      rw [proceed_of_ok hready]
      generalize hrun : t.stage.run _ fuel inputs outputs = o
      have hdone (result : Except Fault Phase)
          (h : result = .ok .terminal ∨ ∃ f, result = .error f) :=
        done (c := ⟨s, fuel, outputs⟩) hready hrun h
      have hnext (d : Turn) (h : Turn.Next inputs ⟨s, fuel, outputs⟩ d) (hless : d.fuel < fuel) :=
        next h (ih d.fuel hless d.stream d.outputs)
      match o with
      | .faulted f stage after => exact hdone _ (.inr ⟨f, rfl⟩)
      | .stopped .halt stage after rest => exact hdone _ (.inl rfl)
      | .stopped (.wait seconds) stage after rest =>
        exact hnext _ (.inr (.intro hready hrun)) (Stage.fuel_lt_of_run hrun)
      | .stopped (.pause point) stage after rest =>
        cases hp : stage.model.points[point]? with
        | none =>
          simp only [afterRun, pauseAt, hp]
          exact hdone _ (.inr ⟨_, rfl⟩)
        | some p =>
          rw [afterRun_pause hp]
          exact hnext _ (.inl ⟨p, .intro hready hrun hp⟩) (Stage.fuel_lt_of_run hrun)

/-- How running on ends. It goes from streams that are to run on (`P`) to ones that can (`R`), whose
stage then runs until the stream is done or is to run on again. -/
theorem proceed_ends {P R : Stream → Prop} {E : Except Fault Phase → Stream → Prop}
    (blocked : ∀ {s phase}, P s → s.ready = .error phase → E (.ok phase) s)
    (ready : ∀ {s t}, P s → s.ready = .ok t → R t)
    (done : ∀ {t stage}, R t → stage.model = t.stage.model →
      ∀ result, result = .ok .terminal ∨ (∃ f, result = .error f) → E result { t with stage })
    (sleep : ∀ {t stage} stop, R t → stage.model = t.stage.model →
      P { t with stage, waitUntil? := some stop })
    (pause : ∀ {t stage point p}, R t → stage.model = t.stage.model →
      stage.model.points[point]? = some p → P (t.pausedAt stage point p)) (hs : P s) {fuel : Nat}
    {outputs : Array Float} :
    E (s.proceed fuel inputs outputs).result (s.proceed fuel inputs outputs).stream := by
  refine Turn.proceed_induction (motive := fun c a => P c.stream → E a.result a.stream)
    (fun hready hc => blocked hc hready) ?_ ?_ ⟨s, fuel, outputs⟩ hs
  · intro c t o result hready hrun hresult hc
    exact done (ready hc hready) (Stage.model_run hrun) result hresult
  · rintro c d (⟨p, hready, hrun, hp⟩ | ⟨hready, hrun⟩) ih hc
    · exact ih (pause (ready hc hready) (Stage.model_run hrun) hp)
    · exact ih (sleep _ (ready hc hready) (Stage.model_run hrun))

/-! ## Where extensions are accepted -/

/-- Extensions are awaited, and held, only at a continuation point. -/
structure Tidy (s : Stream) : Prop where
  pending : ∀ p, s.pending? = some p → p.resolved = false →
    s.awaiting?.isSome ∧ s.incoming? = none
  incoming : s.incoming?.isSome → s.awaiting?.isSome

/-- An extension is accepted for a point that nothing has resolved, if it names the point, comes in
time, is new to the stream and not one too many. -/
theorem accept_ok {id : ModelId} {a : Attachment} {p : Pending} (h : s.accept id a = .ok p) :
    s.pending? = some p ∧ p.resolved = false ∧ a.parent = p.parent ∧ a.pointHash = p.pointHash ∧
      s.clock.clockNanos < p.deadline ∧ id ∉ s.lineage ∧
      s.lineage.length ≤ s.settings.maxChain := by
  unfold accept at h
  cases hp : s.pending? with
  | none =>
    rw [hp] at h
    cases h
  | some q =>
    rw [hp] at h
    -- Each condition refuses the extension or goes on with the same point.
    obtain ⟨hopen, h⟩ := ok_of_guard h
    obtain ⟨hparent, h⟩ := ok_of_guard h
    obtain ⟨hpoint, h⟩ := ok_of_guard h
    obtain ⟨hdeadline, h⟩ := ok_of_guard h
    obtain ⟨hnew, h⟩ := ok_of_guard h
    obtain ⟨hlength, h⟩ := ok_of_guard h
    cases h
    exact ⟨rfl, Bool.eq_false_of_not_eq_true hopen, not_not.1 hparent, not_not.1 hpoint,
      Nat.lt_of_not_le hdeadline, mt List.contains_iff_mem.2 hnew, Nat.le_of_not_lt hlength⟩

namespace Tidy

variable {s t : Stream}

theorem new (m : Model) (settings : StreamSettings) : (new m settings).Tidy :=
  ⟨nofun, nofun⟩

theorem later (hs : s.Tidy) (dt : Duration) : (s.later dt).Tidy :=
  ⟨hs.pending, hs.incoming⟩

/-- An extension is accepted only while the stream waits and holds no other. -/
theorem attach (hs : s.Tidy) {m : Model} (h : s.attach m = .ok t) :
    t.Tidy ∧ s.awaiting?.isSome ∧ s.incoming? = none := by
  obtain ⟨a, p, strings, bridge, -, hp, -, rfl⟩ := attach_ok h
  obtain ⟨hpending, hresolved, -⟩ := accept_ok hp
  obtain ⟨hawaiting, hincoming⟩ := hs.pending p hpending hresolved
  exact ⟨⟨by rintro _ ⟨⟩ ⟨⟩, fun _ => hawaiting⟩, hawaiting, hincoming⟩

/-- A stream that runs awaits no extension and holds none. -/
theorem ready (hs : s.Tidy) (h : s.ready = .ok t) :
    t.awaiting? = none ∧ t.waitUntil? = none ∧ t.incoming? = none ∧ t.Tidy := by
  rcases ready_ok h with ⟨ha, rfl⟩ | ⟨a, stage, ha, hi, rfl⟩ | ⟨a, ha, hi, -, rfl⟩
  · have hincoming : s.incoming? = none := by
      cases hi : s.incoming? with
      | none => rfl
      | some stage =>
        have := hs.incoming (by rw [hi]; rfl)
        rw [ha] at this
        cases this
    exact ⟨ha, rfl, hincoming, hs.pending, hs.incoming⟩
  · refine ⟨rfl, rfl, rfl, fun p hp hresolved => ?_, nofun⟩
    have := (hs.pending p hp hresolved).2
    rw [hi] at this
    cases this
  · refine ⟨rfl, rfl, hi, fun p hp hresolved => ?_, by rw [hi]; nofun⟩
    obtain ⟨q, -, rfl⟩ := Option.map_eq_some_iff.1 hp
    cases hresolved

theorem withStage (hs : s.Tidy) (stage : Stage) : Tidy { s with stage } :=
  ⟨hs.pending, hs.incoming⟩

theorem pausedAt (hincoming : s.incoming? = none) (stage : Stage) (point : Nat)
    (p : ContinuationPoint) : (s.pausedAt stage point p).Tidy :=
  ⟨fun _ _ _ => ⟨rfl, hincoming⟩, fun _ => rfl⟩

theorem proceed (hs : s.Tidy) (fuel : Nat) (inputs outputs : Array Float) :
    (s.proceed fuel inputs outputs).stream.Tidy := by
  refine proceed_ends (R := fun t => t.incoming? = none ∧ t.Tidy) (E := fun _ t => t.Tidy)
    (fun hs _ => hs) (fun hs h => (hs.ready h).2.2) (fun h _ _ _ => h.2.withStage _) ?_ ?_ hs
  · intro t stage stop h _
    exact ⟨h.2.pending, h.2.incoming⟩
  · intro t stage point p h _ _
    exact pausedAt h.1 stage point p

theorem settle {a : Advance} (h : a.stream.Tidy) : a.settle.stream.Tidy := by
  unfold Advance.settle
  split <;> exact ⟨h.pending, h.incoming⟩

theorem advance (hs : s.Tidy) (dt : Duration) (inputs outputs : Array Float) :
    (s.advance dt inputs outputs).stream.Tidy := by
  obtain hruns | ⟨result, hadvance⟩ := s.advance_cases dt inputs outputs
  · rw [hruns.advance_eq dt]
    exact ((hs.later dt).proceed _ _ _).settle
  · rw [hadvance]
    exact hs

theorem after (hs : s.Tidy) (events : List Event) : (s.after events).Tidy := by
  refine List.foldlRecOn (motive := Tidy) events step hs fun s hs e _ => ?_
  cases e with
  | advance dt inputs outputs => exact hs.advance dt inputs outputs
  | attach m =>
    cases h : s.attach m with
    | error r => rwa [step_of_attach_error h]
    | ok t =>
      rw [step_of_attach_ok h]
      exact (hs.attach h).1

end Tidy

/-! ## The course of a pause -/

/-- The stream once the deadline of its point has passed. -/
def elapsed (s : Stream) (offset : Nat) : Stream :=
  { s with
    waitUntil? := none
    awaiting? := none
    pending? := s.pending?.map fun p => { p with resolved := true }
    stage := { s.stage with frame := { s.stage.frame with ip := offset } } }

/-- The stream once the extension that it holds has taken over. -/
def extended (s : Stream) (stage : Stage) : Stream :=
  { s with waitUntil? := none, awaiting? := none, incoming? := none, hasIncoming := false, stage }

/-- What an advance comes to that runs the current stage first, where its frame is. -/
def runOn (s : Stream) (fuel : Nat) (inputs outputs : Array Float) : Advance :=
  (s.afterRun inputs
    (s.stage.run s.settings.run.instructionLimit.toNat fuel inputs outputs)).settle

/-- What happens, call by call, to a stream that holds an extension. Other extensions are refused.
The first advance with vectors of the right sizes runs the extension, however much time it is told
to have passed. -/
def Holds (stage : Stage) (s : Stream) : List Event → Prop
  | [] => True
  | .attach m :: rest => (∃ r, s.attach m = .error r) ∧ Holds stage s rest
  | .advance dt inputs outputs :: rest =>
    if inputs.size = s.root.inputSize ∧ outputs.size = s.root.outputSize then
      s.advance dt inputs outputs = ((s.later dt).extended stage).runOn
        s.settings.run.instructionLimit.toNat inputs outputs
    else (∃ f, s.advance dt inputs outputs = ⟨.error f, s, outputs⟩) ∧ Holds stage s rest

/-- What happens, call by call, to a stream that waits at a continuation point until a deadline. It
holds the first extension that is not refused, at its entry. Advances up to the deadline only move
its clock. The first one after that goes on at the default offset. -/
def Waits (deadline : Duration) (offset : Nat) (s : Stream) : List Event → Prop
  | [] => True
  | .attach m :: rest =>
    match s.attach m with
    | .error _ => Waits deadline offset s rest
    | .ok t => ∃ stage random, stage.model = m ∧ stage.frame = Frame.start m random ∧
      Holds stage t rest
  | .advance dt inputs outputs :: rest =>
    if inputs.size = s.root.inputSize ∧ outputs.size = s.root.outputSize then
      if (s.clock.add dt).nanos < deadline.nanos then
        s.advance dt inputs outputs = ⟨.ok .awaitingExtension, s.later dt, outputs⟩ ∧
          Waits deadline offset (s.later dt) rest
      else
        s.advance dt inputs outputs = ((s.later dt).elapsed offset).runOn
          s.settings.run.instructionLimit.toNat inputs outputs
    else (∃ f, s.advance dt inputs outputs = ⟨.error f, s, outputs⟩) ∧ Waits deadline offset s rest

/-- A stream at a continuation point, between two advances. -/
structure Paused (s : Stream) (a : Awaiting) : Prop where
  awaiting : s.awaiting? = some a
  waitUntil : s.waitUntil? = none
  phase : s.phase = .awaitingExtension
  hasFault : s.hasFault = false

namespace Paused

variable {s : Stream} {a : Awaiting} {inputs outputs : Array Float}

theorem later (h : s.Paused a) (dt : Duration) : (s.later dt).Paused a :=
  ⟨h.awaiting, h.waitUntil, h.phase, h.hasFault⟩

theorem phase_ne (h : s.Paused a) : s.phase ≠ .terminal := by
  rw [h.phase]
  nofun

theorem advance_of_misfit (h : s.Paused a)
    (hsizes : ¬ (inputs.size = s.root.inputSize ∧ outputs.size = s.root.outputSize))
    (dt : Duration) : ∃ f, s.advance dt inputs outputs = ⟨.error f, s, outputs⟩ := by
  cases hcheck : s.root.checkVectors inputs outputs with
  | ok _ => exact absurd (Evaluator.checkVectors_eq_ok.1 hcheck) hsizes
  | error f => exact ⟨f, advance_of_error h.hasFault h.phase_ne hcheck dt⟩

theorem advance_of_fit (h : s.Paused a)
    (hsizes : inputs.size = s.root.inputSize ∧ outputs.size = s.root.outputSize) (dt : Duration) :
    s.advance dt inputs outputs =
      ((s.later dt).proceed s.settings.run.instructionLimit.toNat inputs outputs).settle :=
  advance_of_ok h.hasFault h.phase_ne (Evaluator.checkVectors_eq_ok.2 hsizes) dt

end Paused

/-! ### Passing a point -/

section

variable {s : Stream} {a : Awaiting} {inputs outputs : Array Float}

theorem proceed_of_lt (ha : s.awaiting? = some a) (hw : s.waitUntil? = none)
    (hi : s.incoming? = none) (hlt : s.clock.nanos < a.deadline.nanos) (fuel : Nat) :
    s.proceed fuel inputs outputs = ⟨.ok .awaitingExtension, s, outputs⟩ := by
  refine proceed_of_error ?_ fuel inputs outputs
  rw [ready_eq, hw, ha]
  simp only [resolve?_of_incoming, hi,
    if_neg (Nat.not_le.2 hlt), Option.any_none, Bool.false_eq_true, if_false]

theorem proceed_of_le (ha : s.awaiting? = some a) (hw : s.waitUntil? = none)
    (hi : s.incoming? = none) (hle : a.deadline.nanos ≤ s.clock.nanos) (fuel : Nat) :
    (s.proceed fuel inputs outputs).settle =
      (s.elapsed a.defaultOffset).runOn fuel inputs outputs := by
  have hready : s.ready = .ok (s.elapsed a.defaultOffset) := by
    rw [ready_eq, hw, ha]
    simp only [resolve?_of_incoming, hi, if_pos hle,
      Option.any_none, Bool.false_eq_true, if_false, elapsed]
  rw [proceed_of_ok hready]
  rfl

/-- An extension takes over wherever the clock is. -/
theorem proceed_of_incoming {stage : Stage} (ha : s.awaiting? = some a) (hw : s.waitUntil? = none)
    (hi : s.incoming? = some stage) (hflag : s.hasIncoming = true) (fuel : Nat) :
    (s.proceed fuel inputs outputs).settle = (s.extended stage).runOn fuel inputs outputs := by
  have hready : s.ready = .ok (s.extended stage) := by
    simp only [ready_eq, hw, ha, resolve?, hi, hflag, Option.any_none, Bool.false_eq_true,
      Bool.true_eq_false, and_false, if_false, extended]
  rw [proceed_of_ok hready]
  rfl

end

namespace Paused

variable {s : Stream} {a : Awaiting}

/-- A stream that holds an extension refuses others until the extension runs. -/
theorem holds (h : s.Paused a) {stage : Stage} (hincoming : s.incoming? = some stage)
    (hflag : s.hasIncoming = true) (hpending : ∀ p, s.pending? = some p → p.resolved = true)
    (events : List Event) : s.Holds stage events := by
  induction events with
  | nil => trivial
  | cons e rest ih =>
    cases e with
    | attach m =>
      refine ⟨?_, ih⟩
      cases hm : s.attach m with
      | error r => exact ⟨r, rfl⟩
      | ok t =>
        obtain ⟨_, p, _, _, -, hp, -, -⟩ := attach_ok hm
        obtain ⟨hsome, hopen, -⟩ := accept_ok hp
        rw [hpending p hsome] at hopen
        cases hopen
    | advance dt inputs outputs =>
      rw [Holds]
      split
      · next hsizes =>
        rw [h.advance_of_fit hsizes]
        exact proceed_of_incoming (h.later dt).awaiting (h.later dt).waitUntil hincoming hflag _
      · next hsizes => exact ⟨h.advance_of_misfit hsizes dt, ih⟩

/-- A stream that waits goes on to wait until an extension or the deadline comes. -/
theorem waits (h : s.Paused a) (hincoming : s.incoming? = none) (events : List Event) :
    s.Waits a.deadline a.defaultOffset events := by
  induction events generalizing s with
  | nil => trivial
  | cons e rest ih =>
    cases e with
    | attach m =>
      rw [Waits]
      cases hm : s.attach m with
      | error r => exact ih h hincoming
      | ok t =>
        obtain ⟨_, p, _, _, -, -, -, rfl⟩ := attach_ok hm
        refine ⟨_, _, rfl, rfl, holds (a := a) ?_ rfl rfl ?_ rest⟩
        · exact ⟨h.awaiting, h.waitUntil, h.phase, h.hasFault⟩
        · rintro _ ⟨⟩
          rfl
    | advance dt inputs outputs =>
      rw [Waits]
      split
      · next hsizes =>
        rw [h.advance_of_fit hsizes]
        have hl := h.later dt
        split
        · next hlt =>
          refine ⟨?_, ih hl hincoming⟩
          rw [proceed_of_lt hl.awaiting hl.waitUntil hincoming hlt]
          show Advance.mk _ { s.later dt with phase := .awaitingExtension } _ = _
          rw [← hl.phase]
        · next hle =>
          exact proceed_of_le hl.awaiting hl.waitUntil hincoming (Nat.le_of_not_lt hle) _
      · next hsizes => exact ⟨h.advance_of_misfit hsizes dt, ih h hincoming⟩

end Paused

/-! ## Every pause -/

/-- What an advance does not change in a stream until it ends. -/
structure Same (s t : Stream) : Prop where
  root : t.root = s.root
  settings : t.settings = s.settings
  clock : t.clock = s.clock
  hasFault : t.hasFault = s.hasFault

theorem Same.trans {t u : Stream} (h : Same s t) (h' : Same t u) : Same s u :=
  ⟨h'.root.trans h.root, h'.settings.trans h.settings, h'.clock.trans h.clock,
    h'.hasFault.trans h.hasFault⟩

theorem Same.of_ready {t : Stream} (h : s.ready = .ok t) : Same s t := by
  rcases ready_ok h with ⟨-, rfl⟩ | ⟨_, _, -, -, rfl⟩ | ⟨_, -, -, -, rfl⟩ <;>
    exact ⟨rfl, rfl, rfl, rfl⟩

namespace Turn

variable {c d last : Turn} {inputs : Array Float} {p : ContinuationPoint}

/-- A pause leaves the stream at its point, with nothing decided about it. -/
theorem Pauses.paused (h : c.Pauses inputs p d) (hc : c.stream.Tidy) :
    Same c.stream d.stream ∧ d.stream.Tidy ∧ c.proceed inputs = d.proceed inputs ∧
      d.stream.waitUntil? = none ∧ d.stream.incoming? = none ∧
      ∃ point, d.stream.stage.model.points[point]? = some p ∧
        d.stream.awaiting? =
          some ⟨point, d.stream.clock.add p.timeout, p.defaultOffset.toNat⟩ := by
  cases h with
  | @intro t point rest stage outputs ready run declared =>
    obtain ⟨-, hwait, hincoming, -⟩ := hc.ready ready
    refine ⟨(Same.of_ready ready).trans ⟨rfl, rfl, rfl, rfl⟩, .pausedAt hincoming stage point p, ?_,
      hwait, hincoming, point, declared, rfl⟩
    rw [Turn.proceed, proceed_of_ok ready, run, afterRun_pause declared]
    rfl

theorem Sleeps.asleep (h : c.Sleeps inputs d) (hc : c.stream.Tidy) :
    Same c.stream d.stream ∧ d.stream.Tidy ∧ c.proceed inputs = d.proceed inputs := by
  cases h with
  | intro ready run =>
    obtain ⟨-, -, -, ht⟩ := hc.ready ready
    refine ⟨(Same.of_ready ready).trans ⟨rfl, rfl, rfl, rfl⟩, ⟨ht.pending, ht.incoming⟩, ?_⟩
    rw [Turn.proceed, proceed_of_ok ready, run]
    rfl

theorem Reaches.paused (h : Reaches inputs p last c) (hc : c.stream.Tidy) :
    Same c.stream last.stream ∧ c.proceed inputs = last.proceed inputs ∧
      last.stream.waitUntil? = none ∧ last.stream.incoming? = none ∧
      ∃ point, last.stream.stage.model.points[point]? = some p ∧
        last.stream.awaiting? =
          some ⟨point, last.stream.clock.add p.timeout, p.defaultOffset.toNat⟩ := by
  induction h with
  | pause h =>
    obtain ⟨hsame, -, hproceed, hrest⟩ := h.paused hc
    exact ⟨hsame, hproceed, hrest⟩
  | afterPause h _ ih =>
    obtain ⟨hsame, hd, hproceed, -⟩ := h.paused hc
    obtain ⟨hsame', hproceed', hrest⟩ := ih hd
    exact ⟨hsame.trans hsame', hproceed.trans hproceed', hrest⟩
  | afterSleep h _ ih =>
    obtain ⟨hsame, hd, hproceed⟩ := h.asleep hc
    obtain ⟨hsame', hproceed', hrest⟩ := ih hd
    exact ⟨hsame.trans hsame', hproceed.trans hproceed', hrest⟩

end Turn

/-- What the caller is told. -/
inductive Response where
  | advanced (a : Advance)
  | attached
  | refused (r : Rejection)

/-- The answer to a call. -/
def respond (s : Stream) : Event → Response
  | .advance dt inputs outputs => .advanced (s.advance dt inputs outputs)
  | .attach m =>
    match s.attach m with
    | .ok _ => .attached
    | .error r => .refused r

/-- The answers to some calls. -/
def responses (s : Stream) : List Event → List Response
  | [] => []
  | e :: rest => s.respond e :: (s.step e).responses rest

/-- Every pause that a stream can come to, after whatever calls, is resolved in one way. If the
deadline of its point has not passed, then the advance ends there; from then on calls go as `Waits`
says, so that the first accepted extension or else the first advance past the deadline resolves it.
Otherwise the same advance goes on at the default offset. Extensions are accepted nowhere else, and
one that is refused leaves no trace. -/
theorem resolution_of_pause (root : Model) (settings : StreamSettings) (before : List Event) :
    let s := (new root settings).after before
    (∀ dt inputs outputs p c, s.PausesAt dt inputs outputs p c →
      let now := s.clock.add dt
      let deadline := now.add p.timeout
      let offset := p.defaultOffset.toNat
      c.stream.clock = now ∧ c.stream.awaitedPoint? = some p.name ∧
      (now.nanos < deadline.nanos →
        let paused := { c.stream with phase := .awaitingExtension }
        s.advance dt inputs outputs = ⟨.ok .awaitingExtension, paused, c.outputs⟩ ∧
          ∀ events, paused.Waits deadline offset events) ∧
      (deadline.nanos ≤ now.nanos →
        s.advance dt inputs outputs = (c.stream.elapsed offset).runOn c.fuel inputs c.outputs)) ∧
    (∀ m t, s.attach m = .ok t → s.awaiting?.isSome ∧ s.incoming? = none) ∧
    ∀ m r, s.attach m = .error r →
      ∀ events, s.responses (.attach m :: events) = .refused r :: s.responses events := by
  intro s
  have hs : s.Tidy := (Tidy.new root settings).after before
  refine ⟨fun dt inputs outputs p c h => ?_, fun m t h => (hs.attach h).2, fun m r h events => ?_⟩
  · obtain ⟨hsame, hproceed, hwait, hincoming, point, hpoint, hawaiting⟩ :=
      h.reaches.paused (hs.later dt)
    have hclock : c.stream.clock = s.clock.add dt := hsame.clock
    rw [hclock] at hawaiting
    intro now deadline offset
    have hadvance : s.advance dt inputs outputs = (c.proceed inputs).settle := by
      rw [advance_of_ok h.hasFault h.phase
        (Evaluator.checkVectors_eq_ok.2 ⟨h.inputs_size, h.outputs_size⟩), ← hproceed]
      rfl
    refine ⟨hclock, awaitedPoint?_of_point hawaiting hpoint, fun hlt => ?_, fun hle => ?_⟩
    · constructor
      · rw [hadvance, Turn.proceed, proceed_of_lt hawaiting hwait hincoming (by rwa [hclock])]
        rfl
      · intro events
        have hpaused : Paused { c.stream with phase := .awaitingExtension }
            ⟨point, deadline, offset⟩ :=
          ⟨hawaiting, hwait, rfl, hsame.hasFault.trans h.hasFault⟩
        exact hpaused.waits hincoming events
    · rw [hadvance]
      refine proceed_of_le hawaiting hwait hincoming ?_ c.fuel
      rwa [hclock]
  · simp only [responses, respond, h, step_of_attach_error h]

/-- The continuation point at which a stage stopped. -/
def point? : Stage.Outcome → Option ContinuationPoint
  | .stopped (.pause point) stage _ _ => stage.model.points[point]?
  | _ => none

theorem stopped_of_point? {o : Stage.Outcome} {p : ContinuationPoint} (h : point? o = some p) :
    ∃ point stage outputs rest, o = .stopped (.pause point) stage outputs rest ∧
      stage.model.points[point]? = some p := by
  unfold point? at h
  split at h
  · exact ⟨_, _, _, _, rfl, h⟩
  · cases h

theorem resolution_of_pause_pausing :
    let s := (new pausing {}).after []
    ∃ p c, s.PausesAt .zero #[1.5] #[0.0] p c ∧
      (s.advance .zero #[1.5] #[0.0]).result = .ok .awaitingExtension ∧
      Waits (.ofMillis 10) 1 (s.advance .zero #[1.5] #[0.0]).stream
        [.attach relaying, .advance .zero #[1.5] #[0.0]] := by
  intro s
  let p : ContinuationPoint := ⟨"p", nameHash "p", 10, 1, 0⟩
  obtain ⟨c, hpause⟩ : ∃ c, s.PausesAt .zero #[1.5] #[0.0] p c := by
    have hrun : point? (s.stage.run 100000 100000 #[1.5] #[0.0]) = some p := by decide +kernel
    obtain ⟨point, stage, outputs, rest, hstopped, hpoint⟩ := stopped_of_point? hrun
    exact ⟨_, rfl, by decide +kernel, rfl, rfl, .pause (.intro rfl hstopped hpoint)⟩
  obtain ⟨-, -, hbefore, -⟩ := (resolution_of_pause pausing {} []).1 _ _ _ _ _ hpause
  have hdeadline : (s.clock.add .zero).add p.timeout = .ofMillis 10 := by decide +kernel
  obtain ⟨hadvance, hwaits⟩ := hbefore (by decide +kernel)
  rw [hdeadline] at hwaits
  refine ⟨p, c, hpause, congrArg Advance.result hadvance, ?_⟩
  rw [congrArg Advance.stream hadvance]
  exact hwaits _

end Stream

end Behavior
