import Behavior.Proofs.BridgeSlots
import Behavior.Proofs.StreamLevels

/-!
Streams of models that pass their checks, with extensions attached at any time.

The invariant says of the current stage and of an extension that is about to take over that their
bridges fit and that their models can go on from where they are, at the default offset if the
stream waits at a continuation point. It is kept by whatever is done to a stream, so a stream never
leaves a vector and its advances fail in three ways only.
-/

namespace Behavior.Stream

variable {s t : Stream} {m : Model}

/-! ## What can happen to a stream -/

/-- A call that can change a stream. Each is done before the next one starts, so an extension is
attached between advances and never during one. -/
inductive Event where
  | advance (dt : Duration) (inputs outputs : Array Float)
  | attach (m : Model)

/-- The stream after a call. A refused extension leaves it as it was. -/
def step (s : Stream) : Event → Stream
  | .advance dt inputs outputs => (s.advance dt inputs outputs).stream
  | .attach m =>
    match s.attach m with
    | .ok s => s
    | .error _ => s

theorem step_of_attach_ok (h : s.attach m = .ok t) :
    s.step (.attach m) = t := by
  simp only [step, h]

theorem step_of_attach_error {r : Rejection} (h : s.attach m = .error r) :
    s.step (.attach m) = s := by
  simp only [step, h]

/-- The stream after some calls. -/
def after (s : Stream) (events : List Event) : Stream :=
  events.foldl step s

/-! ## Strict streams -/

/-- As `attach`, if every index it uses exists. -/
def attach? (s : Stream) (m : Model) : ExceptT Rejection Option Stream := do
  let some a := m.extends? | throw .notAnExtension
  let (strings, map) ← StringMap.build? s.strings m.strings
  let bridge ←
    match ← (Bridge.build? s.root.schema m.schema map).run with
    | .ok bridge => pure bridge
    | .error name => throw (.schemaMismatch name)
  let p ← s.accept m.id a
  let stage : Stage := {
    model := m
    frame := Frame.start m ⟨s.settings.run.seed ^^^ m.id.value⟩
    strings
    bridge? := some bridge }
  return { s with
    pending? := some { p with resolved := true }
    incoming? := some stage
    hasIncoming := true
    lineage := m.id :: s.lineage
    strings }

/-- As `proceed`, if every index it uses exists. -/
def proceed? (fuel : Nat) (s : Stream) (inputs outputs : Array Float) : Option Advance :=
  match s.ready with
  | .error phase => some ⟨.ok phase, s, outputs⟩
  | .ok s =>
    match _h : s.stage.run? s.settings.run.instructionLimit.toNat fuel inputs outputs with
    | none => none
    | some (.faulted f stage outputs) => some ⟨.error f, { s with stage }, outputs⟩
    | some (.stopped .halt stage outputs _) => some ⟨.ok .terminal, { s with stage }, outputs⟩
    | some (.stopped (.wait seconds) stage outputs rest) =>
      let stop := s.clock.add (.ofSeconds seconds)
      proceed? rest { s with stage, waitUntil? := some stop } inputs outputs
    | some (.stopped (.pause point) stage outputs rest) =>
      match pauseAt { s with stage } point with
      | .error f => some ⟨.error f, { s with stage }, outputs⟩
      | .ok s => proceed? rest s inputs outputs
termination_by fuel
decreasing_by
  all_goals exact Stage.fuel_lt_of_run? _h

/-- As `advance`, if every index it uses exists. -/
def advance? (s : Stream) (dt : Duration) (inputs outputs : Array Float) : Option Advance :=
  if s.hasFault then some ⟨.error .faulted, s, outputs⟩
  else if s.phase = .terminal then some ⟨.ok .terminal, s, outputs⟩
  else
    match s.root.checkVectors inputs outputs with
    | .error f => some ⟨.error f, s, outputs⟩
    | .ok () =>
      ((s.later dt).proceed? s.settings.run.instructionLimit.toNat inputs outputs).map (·.settle)

theorem run_bind_of_eq_some {ε α β : Type} {x : Option α} {a : α} (h : x = some a)
    (f : α → ExceptT ε Option β) :
    (do f (← (liftM x : ExceptT ε Option α)) : ExceptT ε Option β).run = (f a).run := by
  subst h
  rfl

theorem attach?_eq (s : Stream) (m : Model) : (s.attach? m).run = some (s.attach m) := by
  unfold attach? attach
  cases m.extends? with
  | none => rfl
  | some a =>
    refine (run_bind_of_eq_some (StringMap.build?_eq _ _) _).trans ?_
    obtain ⟨strings, map⟩ := StringMap.build s.strings m.strings
    refine (run_bind_of_eq_some (Bridge.build?_eq _ _ _) _).trans ?_
    dsimp only
    cases Bridge.build s.root.schema m.schema map with
    | error name => rfl
    | ok bridge =>
      refine bind_eq_some_bind rfl fun bridge _ => bind_eq_some_bind ?_ fun p _ => rfl
      cases s.accept m.id a <;> rfl

/-! ## The invariant -/

/-- The stage can take over: it fits, and its model can start or go on where it is. -/
def Startable (root : Model) (stage : Stage) : Prop :=
  stage.Fits root ∧ ∃ f : Fitness stage.model, stage.frame.Safe f

/-- A stream that never leaves a vector. Once it is terminal its stage does not run any more. -/
structure Sound (s : Stream) : Prop where
  stage : s.stage.Fits s.root
  incoming : ∀ stage, s.incoming? = some stage → Startable s.root stage
  next : s.phase ≠ .terminal → ∃ f : Fitness s.stage.model, s.nextFrame.Safe f

/-- An accepted extension comes behind a bridge that joins it to the stream, at the start of its
model. -/
theorem attach_ok (h : s.attach m = .ok t) :
    ∃ (a : Attachment) (p : Pending) (strings : Array String) (bridge : Bridge),
      m.extends? = some a ∧ s.accept m.id a = .ok p ∧
      bridge.Joins s.root.schema s.strings m strings ∧
      t = { s with
        pending? := some { p with resolved := true }
        incoming? := some {
          model := m
          frame := Frame.start m ⟨s.settings.run.seed ^^^ m.id.value⟩
          strings
          bridge? := some bridge }
        hasIncoming := true
        lineage := m.id :: s.lineage
        strings } := by
  unfold attach at h
  cases ha : m.extends? with
  | none =>
    rw [ha] at h
    cases h
  | some a =>
    rw [ha] at h
    dsimp only at h
    generalize hbuilt : StringMap.build s.strings m.strings = built at h
    obtain ⟨strings, map⟩ := built
    dsimp only at h
    cases hb : Bridge.build s.root.schema m.schema map with
    | error name =>
      rw [hb] at h
      cases h
    | ok bridge =>
      rw [hb] at h
      obtain ⟨_, ⟨⟩, h⟩ := bind_eq_ok.1 h
      obtain ⟨p, hp, h⟩ := bind_eq_ok.1 h
      cases h
      obtain ⟨-, rfl, -⟩ := Bridge.build_ok hb
      exact ⟨a, p, strings, bridge, rfl, hp, ⟨hb, hbuilt⟩, rfl⟩

/-- What makes a stream ready to run: nothing holds it up at a point, an extension takes over, or
the deadline of its point has passed. -/
theorem ready_ok (h : s.ready = .ok t) :
    (s.awaiting? = none ∧ t = { s with waitUntil? := none }) ∨
    (∃ a stage, s.awaiting? = some a ∧ s.incoming? = some stage ∧
      t = { s with
        waitUntil? := none, stage, incoming? := none, hasIncoming := false, awaiting? := none }) ∨
    ∃ a, s.awaiting? = some a ∧ s.incoming? = none ∧ a.deadline.nanos ≤ s.clock.nanos ∧
      t = { s with
        waitUntil? := none
        pending? := s.pending?.map fun p => { p with resolved := true }
        awaiting? := none
        stage := { s.stage with frame := { s.stage.frame with ip := a.defaultOffset } } } := by
  rw [ready_eq] at h
  split at h
  · cases h
  · cases ha : s.awaiting? with
    | none =>
      rw [ha] at h
      cases h
      exact .inl ⟨rfl, rfl⟩
    | some a =>
      rw [ha] at h
      cases hi : s.incoming? with
      | some stage =>
        simp only [resolve?, hi] at h
        split at h
        · next hresolved =>
          split at hresolved
          · cases hresolved
          · cases hresolved
            cases h
            exact .inr (.inl ⟨a, stage, rfl, rfl, rfl⟩)
        · cases h
      | none =>
        simp only [resolve?_of_incoming, hi] at h
        by_cases hpassed : a.deadline.nanos ≤ s.clock.nanos
        · simp only [if_pos hpassed] at h
          cases h
          exact .inr (.inr ⟨a, rfl, rfl, hpassed, rfl⟩)
        · simp only [if_neg hpassed] at h
          cases h

namespace Sound

variable {s t : Stream}

theorem new {m : Model} (h : m.check = .ok ()) (settings : StreamSettings) :
    (new m settings).Sound where
  stage := rfl
  incoming := nofun
  next := fun _ => by
    obtain ⟨f⟩ := Model.fitness_of_check h
    exact ⟨f, Frame.Safe.start f _⟩

theorem attach {m : Model} (hs : s.Sound) (hm : m.check = .ok ()) (h : s.attach m = .ok t) :
    t.Sound := by
  obtain ⟨a, p, strings, bridge, -, -, hbridge, rfl⟩ := attach_ok h
  refine ⟨hs.stage, ?_, hs.next⟩
  rintro stage ⟨⟩
  obtain ⟨f⟩ := Model.fitness_of_check hm
  exact ⟨.of_build hbridge.built, f, Frame.Safe.start f _⟩

theorem later (hs : s.Sound) (dt : Duration) : (s.later dt).Sound :=
  ⟨hs.stage, hs.incoming, hs.next⟩

/-- A stream that can run has a stage that can. -/
theorem ready (hs : s.Sound) (hphase : s.phase ≠ .terminal) (h : s.ready = .ok t) :
    Startable t.root t.stage ∧ (∀ stage, t.incoming? = some stage → Startable t.root stage) ∧
      t.root = s.root ∧ t.settings = s.settings ∧ t.phase = s.phase ∧ t.hasFault = s.hasFault ∧
      t.awaiting? = none := by
  obtain ⟨f, hnext⟩ := hs.next hphase
  unfold nextFrame at hnext
  rcases ready_ok h with ⟨ha, rfl⟩ | ⟨a, stage, ha, hi, rfl⟩ | ⟨a, ha, hi, -, rfl⟩
  · rw [ha] at hnext
    exact ⟨⟨hs.stage, f, hnext⟩, hs.incoming, rfl, rfl, rfl, rfl, ha⟩
  · exact ⟨hs.incoming stage hi, nofun, rfl, rfl, rfl, rfl, rfl⟩
  · rw [ha] at hnext
    exact ⟨⟨hs.stage, f, hnext⟩, hs.incoming, rfl, rfl, rfl, rfl, rfl⟩

end Sound

/-- How running on may end: well, or at the instruction limit. -/
def Advance.Fair (s : Stream) (a : Advance) : Prop :=
  a.settle.stream.Sound ∧ a.stream.root = s.root ∧ a.stream.settings = s.settings ∧
    a.stream.hasFault = s.hasFault ∧
    ((∃ phase, a.result = .ok phase) ∨
      a.result = .error (.instructionLimit s.settings.run.instructionLimit.toNat))

theorem Advance.Fair.trans {a : Advance} (h : a.Fair t) (hroot : t.root = s.root)
    (hsettings : t.settings = s.settings) (hfault : t.hasFault = s.hasFault) : a.Fair s := by
  obtain ⟨hsound, hroot', hsettings', hfault', hresult⟩ := h
  exact ⟨hsound, hroot'.trans hroot, hsettings'.trans hsettings, hfault'.trans hfault,
    hsettings ▸ hresult⟩

theorem Sound.proceed (hs : s.Sound) (hphase : s.phase ≠ .terminal) {inputs outputs : Array Float}
    (hi : inputs.size = s.root.inputSize) (ho : outputs.size = s.root.outputSize) (fuel : Nat) :
    s.proceed? fuel inputs outputs = some (s.proceed fuel inputs outputs) ∧
      (s.proceed fuel inputs outputs).Fair s := by
  induction fuel using Nat.strongRecOn generalizing s outputs with
  | ind fuel ih =>
    cases hready : s.ready with
    | error phase =>
      rw [proceed_of_error hready, proceed?, hready]
      exact ⟨rfl, ⟨hs.stage, hs.incoming, fun _ => hs.next hphase⟩, rfl, rfl, rfl, .inl ⟨_, rfl⟩⟩
    | ok t =>
      obtain ⟨⟨hfits, f, hframe⟩, hincoming, hroot, hsettings, htphase, hfault, hawaiting⟩ :=
        hs.ready hphase hready
      rw [← hroot] at hi ho
      rw [← htphase] at hphase
      obtain ⟨hrun, hsafe⟩ := hfits.run?_eq hframe hi ho
        t.settings.run.instructionLimit.toNat fuel
      rw [proceed_of_ok hready, proceed?, hready]
      dsimp only
      split
      · next h =>
        rw [hrun] at h
        cases h
      · next fault next after h =>
        rw [Option.some.inj (hrun.symm.trans h)] at hsafe ⊢
        obtain ⟨rfl, frame, rfl⟩ := hsafe
        refine ⟨rfl, ⟨hfits, hincoming, fun h => absurd rfl h⟩, hroot, hsettings, hfault, .inr ?_⟩
        rw [hsettings]
        rfl
      · next next after rest h =>
        rw [Option.some.inj (hrun.symm.trans h)] at hsafe ⊢
        obtain ⟨hsize, frame, rfl, -⟩ := hsafe
        exact ⟨rfl, ⟨hfits, hincoming, fun h => absurd rfl h⟩, hroot, hsettings, hfault,
          .inl ⟨_, rfl⟩⟩
      · next seconds next after rest h =>
        have hlt := Stage.fuel_lt_of_run? h
        rw [Option.some.inj (hrun.symm.trans h)] at hsafe ⊢
        obtain ⟨hsize, frame, rfl, hsafe⟩ := hsafe
        have hwaits : Sound { t with
            stage := { t.stage with frame }
            waitUntil? := some (t.clock.add (.ofSeconds seconds)) } := by
          refine ⟨hfits, hincoming, fun _ => ⟨f, ?_⟩⟩
          simp only [nextFrame, hawaiting]
          exact hsafe
        obtain ⟨heq, hfair⟩ := ih rest hlt hwaits hphase hi hsize
        exact ⟨heq, hfair.trans hroot hsettings hfault⟩
      · next point next after rest h =>
        have hlt := Stage.fuel_lt_of_run? h
        rw [Option.some.inj (hrun.symm.trans h)] at hsafe ⊢
        obtain ⟨hsize, frame, rfl, p, hp, hsafe⟩ := hsafe
        have hpauses : Sound (t.pausedAt { t.stage with frame } point p) :=
          ⟨hfits, hincoming, fun _ => ⟨f, hsafe⟩⟩
        obtain ⟨heq, hfair⟩ := ih rest hlt hpauses hphase hi hsize
        have hpoint : pauseAt { t with stage := { t.stage with frame } } point =
            .ok (t.pausedAt { t.stage with frame } point p) := by
          simp only [pauseAt, hp, pausedAt]
        rw [hpoint, afterRun, hpoint]
        exact ⟨heq, hfair.trans hroot hsettings hfault⟩

/-! ## Histories -/

/-- Some advance of the events reaches the instruction limit. -/
def Exceeds (s : Stream) (events : List Event) : Prop :=
  ∃ before dt inputs outputs rest, events = before ++ .advance dt inputs outputs :: rest ∧
    ((s.after before).advance dt inputs outputs).result =
      .error (.instructionLimit s.settings.run.instructionLimit.toNat)

theorem checkVectors_error {inputs outputs : Array Float} {fault : Fault}
    (h : m.checkVectors inputs outputs = .error fault) :
    ¬ (inputs.size = m.inputSize ∧ outputs.size = m.outputSize) ∧
      ∃ vector expected actual, fault = .stateMismatch vector expected actual := by
  constructor
  · intro hsizes
    rw [Evaluator.checkVectors_eq_ok.2 hsizes] at h
    cases h
  · unfold Model.checkVectors checkSize at h
    split at h
    · change (if _ then _ else _) = _ at h
      split at h
      · cases h
      · cases h
        exact ⟨_, _, _, rfl⟩
    · cases h
      exact ⟨_, _, _, rfl⟩

/-- How an advance may end, and whether it leaves a fault behind. -/
inductive Ends (s : Stream) (inputs outputs : Array Float) : Except Fault Phase → Bool → Prop
  | faulted : s.hasFault = true → Ends s inputs outputs (.error .faulted) true
  | well (phase : Phase) : s.hasFault = false → Ends s inputs outputs (.ok phase) false
  | mismatch (vector : StateVector) (expected actual : Nat) : s.hasFault = false →
    ¬ (inputs.size = s.root.inputSize ∧ outputs.size = s.root.outputSize) →
    Ends s inputs outputs (.error (.stateMismatch vector expected actual)) false
  | limit : s.hasFault = false →
    Ends s inputs outputs
      (.error (.instructionLimit s.settings.run.instructionLimit.toNat)) true

namespace Sound

variable {s : Stream}

theorem advance (hs : s.Sound) (dt : Duration) (inputs outputs : Array Float) :
    let a := s.advance dt inputs outputs
    s.advance? dt inputs outputs = some a ∧ a.stream.Sound ∧ a.stream.root = s.root ∧
      a.stream.settings = s.settings ∧ s.Ends inputs outputs a.result a.stream.hasFault := by
  by_cases hfault : s.hasFault = true
  · simp only [Stream.advance, advance?, if_pos hfault]
    refine ⟨trivial, hs, trivial, trivial, ?_⟩
    rw [hfault]
    exact .faulted hfault
  · rw [Bool.not_eq_true] at hfault
    by_cases hphase : s.phase = .terminal
    · rw [advance_of_terminal hfault hphase]
      refine ⟨?_, hs, rfl, rfl, hfault ▸ .well _ hfault⟩
      simp only [advance?, hfault, hphase, if_true, Bool.false_eq_true, if_false]
    · cases hsizes : s.root.checkVectors inputs outputs with
      | error fault =>
        obtain ⟨hne, vector, expected, actual, rfl⟩ := checkVectors_error hsizes
        rw [advance_of_error hfault hphase hsizes]
        refine ⟨?_, hs, rfl, rfl, hfault ▸ .mismatch _ _ _ hfault hne⟩
        simp only [advance?, hfault, hphase, hsizes, Bool.false_eq_true, if_false]
      | ok _ =>
        obtain ⟨hi, ho⟩ := Evaluator.checkVectors_eq_ok.1 hsizes
        obtain ⟨heq, hsound, hroot, hsettings, hkept, hresult⟩ :=
          (hs.later dt).proceed hphase hi ho s.settings.run.instructionLimit.toNat
        rw [advance_of_ok hfault hphase hsizes]
        refine ⟨?_, hsound, ?_, ?_, ?_⟩
        · simp only [advance?, hfault, hphase, hsizes, Bool.false_eq_true, if_false]
          rw [heq]
          rfl
        all_goals
          generalize (s.later dt).proceed _ _ _ = a at *
          obtain ⟨result, stream, after⟩ := a
          rcases hresult with ⟨phase, rfl⟩ | rfl
        · exact hroot
        · exact hroot
        · exact hsettings
        · exact hsettings
        · have hkept : stream.hasFault = s.hasFault := hkept
          simp only [Advance.settle, hkept, hfault]
          exact .well _ hfault
        · exact .limit hfault

/-- A call leaves a sound stream sound, and only reaching the limit leaves a fault behind. -/
theorem step (hs : s.Sound) {e : Event} (he : ∀ m, e = .attach m → m.check = .ok ()) :
    (s.step e).Sound ∧ (s.step e).root = s.root ∧ (s.step e).settings = s.settings ∧
      ((s.step e).hasFault = true → s.hasFault = true ∨ s.Exceeds [e]) := by
  cases e with
  | advance dt inputs outputs =>
    obtain ⟨-, hsound, hroot, hsettings, hends⟩ := hs.advance dt inputs outputs
    refine ⟨hsound, hroot, hsettings, fun hfault => ?_⟩
    change (s.advance dt inputs outputs).stream.hasFault = true at hfault
    rw [hfault] at hends
    generalize hresult : (s.advance dt inputs outputs).result = result at hends
    cases hends with
    | faulted h => exact .inl h
    | limit h => exact .inr ⟨[], dt, inputs, outputs, [], rfl, hresult⟩
  | attach m =>
    cases h : s.attach m with
    | error _ =>
      rw [step_of_attach_error h]
      exact ⟨hs, rfl, rfl, .inl⟩
    | ok t =>
      rw [step_of_attach_ok h]
      have hsound := hs.attach (he m rfl) h
      obtain ⟨a, p, strings, bridge, -, -, -, rfl⟩ := attach_ok h
      exact ⟨hsound, rfl, rfl, .inl⟩

/-- Whatever is done to a sound stream leaves it sound, and a fault that it has comes from an
advance that has reached its limit. -/
theorem after (hs : s.Sound) {events : List Event}
    (hevents : ∀ m, .attach m ∈ events → m.check = .ok ()) :
    (s.after events).Sound ∧ (s.after events).root = s.root ∧
      (s.after events).settings = s.settings ∧
      ((s.after events).hasFault = true → s.hasFault = true ∨ s.Exceeds events) := by
  induction events generalizing s with
  | nil => exact ⟨hs, rfl, rfl, .inl⟩
  | cons e rest ih =>
    obtain ⟨hstep, hroot, hsettings, hfault⟩ :=
      hs.step fun m hm => hevents m (hm ▸ List.mem_cons_self)
    obtain ⟨hafter, hroot', hsettings', hfault'⟩ :=
      ih hstep fun m hm => hevents m (List.mem_cons_of_mem _ hm)
    refine ⟨hafter, hroot'.trans hroot, hsettings'.trans hsettings, fun h => ?_⟩
    rcases hfault' h with h | ⟨before, dt, inputs, outputs, later, rfl, hresult⟩
    · rcases hfault h with h | ⟨before, dt, inputs, outputs, later, he, hresult⟩
      · exact .inl h
      · refine .inr ⟨before, dt, inputs, outputs, later ++ rest, ?_, hresult⟩
        rw [← List.singleton_append, he, List.append_assoc, List.cons_append]
    · exact .inr ⟨e :: before, dt, inputs, outputs, later, rfl, hsettings ▸ hresult⟩

end Sound

/-- Whatever calls a stream has seen, if its model and the extensions offered to it pass their
checks, then its advances end well, or report vectors of the wrong size, the instruction limit, or
that an earlier advance has reached that limit. Neither advances nor attachments use an index that
does not exist. -/
theorem advance_of_history {root : Model} (hroot : root.check = .ok ()) (settings : StreamSettings)
    {events : List Event} (hevents : ∀ m, .attach m ∈ events → m.check = .ok ()) :
    let start := new root settings
    let s := start.after events
    (∀ (dt : Duration) (inputs outputs : Array Float),
      s.advance? dt inputs outputs = some (s.advance dt inputs outputs) ∧
      ((∃ phase, (s.advance dt inputs outputs).result = .ok phase) ∨
        (¬ (inputs.size = root.inputSize ∧ outputs.size = root.outputSize) ∧
          ∃ vector expected actual, (s.advance dt inputs outputs).result =
            .error (.stateMismatch vector expected actual)) ∨
        (s.advance dt inputs outputs).result =
          .error (.instructionLimit settings.run.instructionLimit.toNat) ∨
        ((s.advance dt inputs outputs).result = .error .faulted ∧ start.Exceeds events))) ∧
    ∀ m, (s.attach? m).run = some (s.attach m) := by
  intro start s
  obtain ⟨hsound, hsroot, hsettings, hfault⟩ := (Sound.new hroot settings).after hevents
  refine ⟨fun dt inputs outputs => ?_, s.attach?_eq⟩
  obtain ⟨heq, -, -, -, hends⟩ := hsound.advance dt inputs outputs
  refine ⟨heq, ?_⟩
  generalize (s.advance dt inputs outputs).result = result,
    (s.advance dt inputs outputs).stream.hasFault = faulted at hends ⊢
  cases hends with
  | well phase _ => exact .inl ⟨phase, rfl⟩
  | mismatch vector expected actual _ hne =>
    rw [hsroot] at hne
    exact .inr (.inl ⟨hne, vector, expected, actual, rfl⟩)
  | limit _ => exact .inr (.inr (.inl (by rw [hsettings]; rfl)))
  | faulted h => exact .inr (.inr (.inr ⟨rfl, (hfault h).resolve_left nofun⟩))

/-- Pauses once and halts. -/
def pausing : Model where
  id := ⟨1⟩
  version := Model.formatVersion
  flags := .continuationPoints
  maxStack := 0
  maxCallDepth := 0
  localCount := 0
  entry := 0
  schema := { inputs := [⟨"x", .number, 0⟩], outputs := [⟨"y", .number, 0⟩] }
  points := #[⟨"p", nameHash "p", 10, 1, 0⟩]
  constants := #[]
  strings := #["x", "y", "p"]
  code := #[Word.encode .pause 0, Word.encode .halt 0]
  extends? := none
  debug? := none

/-- Continues `pausing` in a layout of its own, and writes its input. -/
def relaying : Model where
  id := ⟨2⟩
  version := Model.formatVersion
  flags := .isExtension
  maxStack := 1
  maxCallDepth := 0
  localCount := 0
  entry := 0
  schema := { inputs := [⟨"x", .number, 3⟩], outputs := [⟨"y", .number, 1⟩] }
  points := #[]
  constants := #[]
  strings := #["y", "x"]
  code := #[Word.encode .loadInput 3, Word.encode .storeOutput 1, Word.encode .halt 0]
  extends? := some ⟨⟨1⟩, nameHash "p"⟩
  debug? := none

theorem advance_of_history_relaying :
    pausing.check = .ok () ∧ relaying.check = .ok () ∧
      let s := (new pausing {}).after [.advance .zero #[1.5] #[0.0], .attach relaying]
      s.incoming?.isSome ∧
        s.advance? .zero #[1.5] #[0.0] = some (s.advance .zero #[1.5] #[0.0]) := by
  have hpausing : pausing.check = .ok () := by cbv
  have hrelaying : relaying.check = .ok () := by cbv
  refine ⟨hpausing, hrelaying, by decide +kernel, ?_⟩
  refine ((advance_of_history hpausing {} ?_).1 .zero #[1.5] #[0.0]).1
  intro m hm
  rcases List.mem_cons.1 hm with hm | hm
  · cases hm
  · cases List.mem_singleton.1 hm
    exact hrelaying

end Behavior.Stream
