import Behavior.Proofs.Correctness
import Behavior.Proofs.LoopBounds
import Behavior.Proofs.StreamEvaluation

/-!
Compiled documents come to their end.

Trails through the blocks of a compiled document are bounded, and a step along one takes the machine
a bounded number of instructions. So there is one bound for all runs, whatever the random numbers
are and whatever the inputs change to while the machine is suspended. A limit that is not below the
bound is never exceeded: evaluations end well, and every advance that passes what the stream waits
for brings it nearer to the end.
-/

namespace Behavior

variable {m : Model} {inputs outputs : Array Float}

/-! ## Halting in time -/

/-- Whatever the machine goes on with has the property. After a wait or a pause the caller may come
with other inputs and other outputs; a pause goes on at its default offset. -/
def Reaction.Leads (m : Model) (P : Array Float → Machine → Prop) (inputs : Array Float) :
    Reaction → Prop
  | .next s => P inputs s
  | .stop .halt _ => True
  | .stop (.wait _) s =>
    ∀ inputs outputs, m.checkVectors inputs outputs = .ok () → P inputs { s with outputs }
  | .stop (.pause i) s => ∃ p, m.points[i]? = some p ∧
      ∀ inputs outputs, m.checkVectors inputs outputs = .ok () →
        P inputs { s with ip := p.defaultOffset.toNat, outputs }
  | .fault _ _ => False

/-- The machine halts within a number of instructions, without a fault. -/
def Machine.HaltsWithin (m : Model) : Nat → Array Float → Machine → Prop
  | 0, _, _ => False
  | n + 1, inputs, s => ∃ word, m.code[s.ip]? = some word ∧
      (s.step m inputs word).Leads m (HaltsWithin m n) inputs

/-- Started at its entry, the model halts within a number of instructions, whatever the random
numbers and the vectors are. -/
def Model.FinishesWithin (m : Model) (n : Nat) : Prop :=
  ∀ random inputs outputs, m.checkVectors inputs outputs = .ok () →
    Machine.HaltsWithin m n inputs { toFrame := Frame.start m random, outputs }

theorem Reaction.Leads.imp {P Q : Array Float → Machine → Prop} {r : Reaction}
    (h : r.Leads m P inputs) (himp : ∀ inputs s, P inputs s → Q inputs s) :
    r.Leads m Q inputs := by
  match r, h with
  | .next s, h => exact himp _ _ h
  | .stop .halt s, h => exact h
  | .stop (.wait seconds) s, h =>
    exact fun inputs outputs hsizes => himp _ _ (h inputs outputs hsizes)
  | .stop (.pause i) s, ⟨p, hp, h⟩ =>
    exact ⟨p, hp, fun inputs outputs hsizes => himp _ _ (h inputs outputs hsizes)⟩

namespace Machine

variable {f : Fitness m} {s t : Machine} {k n : Nat}

theorem HaltsWithin.succ (h : s.HaltsWithin m n inputs) : s.HaltsWithin m (n + 1) inputs := by
  induction n generalizing inputs s with
  | zero => exact h.elim
  | succ n ih =>
    obtain ⟨word, hw, h⟩ := h
    exact ⟨word, hw, h.imp fun _ _ h => ih h⟩

theorem HaltsWithin.mono (h : s.HaltsWithin m k inputs) (hle : k ≤ n) :
    s.HaltsWithin m n inputs := by
  induction hle with
  | refl => exact h
  | step _ ih => exact ih.succ

theorem HaltsWithin.next {word : Word} (hw : m.code[s.ip]? = some word)
    (hstep : s.step m inputs word = .next t) (h : t.HaltsWithin m n inputs) :
    s.HaltsWithin m (n + 1) inputs := by
  refine ⟨word, hw, ?_⟩
  rw [hstep]
  exact h

theorem HaltsWithin.ofSteps {xs ys : List Float} (hsteps : Steps m inputs k xs s ys t)
    (h : t.HaltsWithin m n inputs) :
    s.HaltsWithin m (k + n) inputs := by
  induction hsteps with
  | refl => rwa [Nat.zero_add]
  | step hw hstep _ ih =>
    rw [Nat.add_right_comm]
    exact .next hw hstep (ih h)

/-- A run with fuel for all instructions there can be stops, and what it leaves of the fuel is
enough for the rest. -/
theorem HaltsWithin.run (hs : s.Safe f) (hi : inputs.size = m.inputSize)
    (h : s.HaltsWithin m n inputs) {fuel : Nat} (hle : n ≤ fuel) (limit : Nat) (skipWaits : Bool) :
    ∃ signal t rest left, s.run m inputs limit skipWaits fuel = .stopped signal t rest ∧
      left < n ∧ left ≤ rest ∧ (Reaction.stop signal t).Leads m (HaltsWithin m left) inputs := by
  induction n generalizing s fuel with
  | zero => exact h.elim
  | succ n ih =>
    obtain ⟨fuel, rfl⟩ := Nat.exists_eq_add_of_le' (Nat.lt_of_lt_of_le n.succ_pos hle)
    have hle := Nat.le_of_succ_le_succ hle
    obtain ⟨word, hw, hleads⟩ := h
    obtain ⟨word', hw', hsafe⟩ := hs.step hi
    cases hw.symm.trans hw'
    cases hstep : s.step m inputs word with
    | next t =>
      rw [hstep] at hleads hsafe
      rw [run_of_next hw hstep]
      obtain ⟨signal, t, rest, left, hrun, hlt, hrest⟩ := ih hsafe hleads hle
      exact ⟨signal, t, rest, left, hrun, Nat.lt_succ_of_lt hlt, hrest⟩
    | fault fault t =>
      rw [hstep] at hleads
      exact hleads.elim
    | stop signal t =>
      rw [hstep] at hleads hsafe
      by_cases hpasses : skipWaits = true ∧ ∃ seconds, signal = .wait seconds
      · obtain ⟨rfl, seconds, rfl⟩ := hpasses
        rw [run_of_wait hw hstep, if_pos rfl]
        have hsizes := Evaluator.checkVectors_eq_ok.2 ⟨hi, hsafe.outputs⟩
        obtain ⟨signal, t, rest, left, hrun, hlt, hrest⟩ := ih hsafe (hleads _ _ hsizes) hle
        exact ⟨signal, t, rest, left, hrun, Nat.lt_succ_of_lt hlt, hrest⟩
      · refine ⟨signal, t, fuel, n, run_of_stop hw hstep fun seconds h => ?_, n.lt_succ_self, hle,
          hleads⟩
        exact Bool.eq_false_of_not_eq_true fun hskip => hpasses ⟨hskip, seconds, h⟩

end Machine

/-! ## From trails to instructions -/

namespace Assembled

variable {g : BlockGraph} {points : Array Typed.Point} {A : Assembled m g points} {x : Extent}
  {f : Fitness m} {s : Machine} {w : Walk} {site : Site} {k : Nat}

/-- The machine halts when the trail of its walk has ended, at the pace of so many instructions for
a step. The induction is on the length of the trail. -/
theorem Follows.haltsWithin (hx : x.Encodable) (hg : g.Within x) (hs : s.Safe f)
    (h : A.Follows x site w s) (hends : w.trail.EndsWithin g k) (hi : inputs.size = m.inputSize) :
    s.HaltsWithin m (pace * k) inputs := by
  induction k generalizing site w s inputs with
  | zero => exact hends.elim
  | succ k ih =>
    have hanswer := h.step hx hg hi hs
    have hpace := h.cost_le inputs site.ahead.head?
    cases hstep : w.step g inputs with
    | next v =>
      rw [hstep] at hanswer
      obtain ⟨site', t, -, hl, hfollows, -⟩ := hanswer
      have hrest := ih (hl.safe hs hi) hfollows (hends _ (Walk.moves_of_next hstep)) hi
      refine (Machine.HaltsWithin.ofSteps hl hrest).mono ?_
      rw [Nat.mul_succ, Nat.add_comm]
      exact Nat.add_le_add_left hpace _
    | stop signal v =>
      rw [hstep] at hanswer
      obtain ⟨l, t, word, signal', t', hcost, hl, hw, -, ht, hstopped⟩ := hanswer
      rw [hcost] at hpace
      obtain ⟨word', hw', hsafe⟩ := (hl.safe hs hi).step hi
      cases hw.symm.trans hw'
      -- the instruction that suspends, and all that comes after it
      have hlast : t.HaltsWithin m (pace * k + 1) inputs := by
        refine ⟨word, hw, ?_⟩
        rw [ht] at hsafe ⊢
        have hmoves := Walk.moves_of_stop hstep
        match signal, signal', hstopped with
        | .halt, .halt, _ => exact trivial
        | .wait _, .wait _, ⟨_, hfollows⟩ =>
          intro inputs outputs hsizes
          obtain ⟨hi, ho⟩ := Evaluator.checkVectors_eq_ok.1 hsizes
          exact ih ⟨hsafe.toSafe, ho⟩ (hfollows.withOutputs outputs) (hends _ (hmoves nofun)) hi
        | .pause _, .pause _, ⟨p, hp, _, _, site', hfollows⟩ =>
          refine ⟨p, hp, fun inputs outputs hsizes => ?_⟩
          obtain ⟨hi, ho⟩ := Evaluator.checkVectors_eq_ok.1 hsizes
          obtain ⟨p', hp', hsafe⟩ := hsafe
          cases hp.symm.trans hp'
          exact ih ⟨hsafe.toSafe, ho⟩ (hfollows.withOutputs outputs) (hends _ (hmoves nofun)) hi
      refine (Machine.HaltsWithin.ofSteps hl hlast).mono ?_
      rw [Nat.mul_succ, ← Nat.add_assoc, Nat.add_right_comm, Nat.add_comm]
      exact Nat.add_le_add_left hpace _

end Assembled

/-! ## Evaluations -/

/-- An evaluation whose limit leaves time to halt ends well. -/
theorem Evaluator.evaluate_of_finishesWithin {n : Nat} {e : Evaluator}
    (hcheck : e.model.check = .ok ()) (hpoints : e.model.points = #[])
    (h : e.model.FinishesWithin n) (hle : n ≤ e.limit)
    (hsizes : e.model.checkVectors inputs outputs = .ok ()) :
    (e.evaluate inputs outputs).fault? = none := by
  obtain ⟨f⟩ := Model.fitness_of_check hcheck
  obtain ⟨hi, -⟩ := checkVectors_eq_ok.1 hsizes
  have hzeros : (Array.replicate e.model.outputSize 0.0).size = e.model.outputSize :=
    Array.size_replicate
  obtain ⟨signal, t, rest, left, hrun, -, -, hleads⟩ :=
    (h e.random inputs _ (checkVectors_eq_ok.2 ⟨hi, hzeros⟩)).run (f := f)
      ⟨Frame.Safe.start f e.random, hzeros⟩ hi hle e.limit true
  rw [evaluate_eq hsizes, start, hrun]
  match signal, hleads with
  | .halt, _ => rfl
  | .wait seconds, _ => rfl
  | .pause i, ⟨p, hp, _⟩ =>
    rw [hpoints] at hp
    cases hp

/-! ## Streams -/

namespace Stream

variable {f : Fitness m} {n : Nat} {s : Stream}

/-- Whatever the stream has to wait for is over. -/
def Due (s : Stream) : Prop :=
  (s.waitUntil?.all fun stop => stop.nanos ≤ s.clock.nanos) ∧
    s.awaiting?.all fun a => a.deadline.nanos ≤ s.clock.nanos

/-- Each cue has vectors that fit and comes once the stream need not wait any more. -/
def Timely (s : Stream) (outputs : Array Float) : List Cue → Prop
  | [] => True
  | cue :: rest =>
    let a := s.advance cue.dt cue.inputs (cue.prepare outputs)
    s.root.checkVectors cue.inputs (cue.prepare outputs) = .ok () ∧ (s.later cue.dt).Due ∧
      a.stream.Timely a.outputs rest

instance (s : Stream) : Decidable s.Due :=
  inferInstanceAs (Decidable (_ ∧ _))

instance decidableTimely (s : Stream) (outputs : Array Float) :
    (cues : List Cue) → Decidable (s.Timely outputs cues)
  | [] => isTrue trivial
  | _ :: rest =>
    have := fun s outputs => decidableTimely s outputs rest
    inferInstanceAs (Decidable (_ ∧ _ ∧ _))

theorem Due.blocked?_eq_none (h : s.Due) :
    blocked? s.clock s.waitUntil? (s.awaiting?.map (·.deadline)) = none := by
  obtain ⟨hwait, hdeadline⟩ := h
  have hwait : (s.waitUntil?.any fun stop => s.clock.nanos < stop.nanos) = false := by
    cases hw : s.waitUntil? with
    | none => rfl
    | some stop =>
      rw [hw] at hwait
      exact decide_eq_false (Nat.not_lt.2 (of_decide_eq_true hwait))
  have hdeadline : ((s.awaiting?.map (·.deadline)).any
      fun deadline => s.clock.nanos < deadline.nanos) = false := by
    cases ha : s.awaiting? with
    | none => rfl
    | some a =>
      rw [ha] at hdeadline
      exact decide_eq_false (Nat.not_lt.2 (of_decide_eq_true hdeadline))
  rw [blocked?, hwait, hdeadline]
  rfl

/-- The stream runs its own model and no extension is about to take over, and from where it goes on
the machine halts within the given number of instructions. -/
structure Finishing (f : Fitness m) (n : Nat) (s : Stream) : Prop where
  root : s.root = m
  model : s.stage.model = m
  bridge : s.stage.bridge? = none
  incoming : s.incoming? = none
  hasFault : s.hasFault = false
  safe : s.nextFrame.Safe f
  halts : ∀ inputs outputs, m.checkVectors inputs outputs = .ok () →
    Machine.HaltsWithin m n inputs { toFrame := s.nextFrame, outputs }

/-- A stream whose stage has stopped is done, or finishing from where it is suspended. -/
def Stopping (f : Fitness m) (n : Nat) (s : Stream) (stage : Stage) : Signal → Prop
  | .halt => True
  | .wait _ => Finishing f n { s with stage }
  | .pause i => ∃ p, stage.model.points[i]? = some p ∧ Finishing f n (s.pausedAt stage i p)

/-- An advance has come to the end, or to where the machine halts within no more instructions than
the given number, and within less if nothing was to be waited for. -/
def Advance.Nears (f : Fitness m) (n : Nat) (due : Prop) (a : Advance) : Prop :=
  a.result = .ok .terminal ∧ a.stream.hasFault = false ∨
    ∃ phase left, a.result = .ok phase ∧ phase ≠ .terminal ∧ left ≤ n ∧ (due → left < n) ∧
      a.stream.Finishing f left

theorem Advance.Nears.of_lt {a : Advance} {left : Nat} {due due' : Prop}
    (h : a.Nears f left due') (hlt : left < n) : a.Nears f n due := by
  refine h.imp_right ?_
  rintro ⟨phase, left', hresult, hphase, hle, -, hfinishing⟩
  have hlt' := Nat.lt_of_le_of_lt hle hlt
  exact ⟨phase, left', hresult, hphase, hlt'.le, fun _ => hlt', hfinishing⟩

namespace Finishing

theorem pos (h : s.Finishing f n) : 0 < n := by
  cases n with
  | zero =>
    refine (h.halts (Array.replicate m.inputSize 0.0) (Array.replicate m.outputSize 0.0) ?_).elim
    exact Evaluator.checkVectors_eq_ok.2 ⟨Array.size_replicate, Array.size_replicate⟩
  | succ n => exact n.succ_pos

/-- Only the model, the next frame and the faults of the stream matter. -/
theorem of_eq (h : s.Finishing f n) {t : Stream} (hroot : t.root = s.root)
    (hstage : t.stage = s.stage) (hawaiting : t.awaiting? = s.awaiting?)
    (hincoming : t.incoming? = s.incoming?) (hfault : t.hasFault = s.hasFault) :
    t.Finishing f n := by
  have hframe : t.nextFrame = s.nextFrame := by rw [nextFrame, hstage, hawaiting, nextFrame]
  exact ⟨hroot.trans h.root, hstage ▸ h.model, hstage ▸ h.bridge, hincoming.trans h.incoming,
    hfault.trans h.hasFault, hframe ▸ h.safe, hframe ▸ h.halts⟩

/-- A stage that runs with time enough halts, or comes to where it is suspended with time enough
for the rest. -/
theorem run (h : s.Finishing f n) (hawaiting : s.awaiting? = none)
    (hsizes : m.checkVectors inputs outputs = .ok ()) {fuel : Nat} (hle : n ≤ fuel) (limit : Nat) :
    ∃ signal stage outputs' rest left,
      s.stage.run limit fuel inputs outputs = .stopped signal stage outputs' rest ∧
      left < n ∧ left ≤ rest ∧ m.checkVectors inputs outputs' = .ok () ∧
      s.Stopping f left stage signal := by
  obtain ⟨hi, ho⟩ := Evaluator.checkVectors_eq_ok.1 hsizes
  have hframe : s.nextFrame = s.stage.frame := by rw [nextFrame, hawaiting]
  have hsafe : Machine.Safe f { toFrame := s.stage.frame, outputs } := ⟨hframe ▸ h.safe, ho⟩
  have hhalts := h.halts inputs outputs hsizes
  rw [hframe] at hhalts
  obtain ⟨signal, t, rest, left, hrun, hlt, hrest, hleads⟩ := hhalts.run hsafe hi hle limit false
  have hend := hsafe.run hi limit false fuel
  rw [hrun] at hend
  refine ⟨signal, { s.stage with frame := t.toFrame }, t.outputs, rest, left, ?_, hlt, hrest, ?_⟩
  · simp only [Stage.run, h.bridge, h.model, hrun]
  cases signal with
  | halt => exact ⟨Evaluator.checkVectors_eq_ok.2 ⟨hi, hend⟩, trivial⟩
  | wait seconds =>
    have hframe : nextFrame { s with stage := { s.stage with frame := t.toFrame } } = t.toFrame := by
      rw [nextFrame, hawaiting]
    exact ⟨Evaluator.checkVectors_eq_ok.2 ⟨hi, hend.outputs⟩, h.root, h.model, h.bridge,
      h.incoming, h.hasFault, by rw [hframe]; exact hend.toSafe, by rw [hframe]; exact hleads⟩
  | pause i =>
    obtain ⟨p, hp, hleads⟩ := hleads
    obtain ⟨p', hp', hend⟩ := hend
    cases hp.symm.trans hp'
    refine ⟨Evaluator.checkVectors_eq_ok.2 ⟨hi, hend.outputs⟩, p, ?_, h.root, h.model, h.bridge,
      h.incoming, h.hasFault, hend.toSafe, hleads⟩
    rw [h.model]
    exact hp

/-- Nothing but a wait or a point holds the stream up. -/
theorem ready (h : s.Finishing f n) :
    (¬ s.Due ∧ ∃ phase, phase ≠ .terminal ∧ s.ready = .error phase) ∨
      ∃ t, s.ready = .ok t ∧ t.awaiting? = none ∧ t.settings = s.settings ∧ t.Finishing f n := by
  have hready := ready_of_incoming h.incoming
  cases hblocked : blocked? s.clock s.waitUntil? (s.awaiting?.map (·.deadline)) with
  | some phase =>
    rw [hblocked] at hready
    refine .inl ⟨fun hdue => ?_, phase, blocked?_ne_terminal hblocked, hready⟩
    rw [hdue.blocked?_eq_none] at hblocked
    cases hblocked
  | none =>
    rw [hblocked] at hready
    exact .inr ⟨_, hready, rfl, rfl, h.root, h.model, h.bridge, h.incoming, h.hasFault, h.safe,
      h.halts⟩

/-- An advance comes to the end or brings the stream nearer to it, unless it has to wait. -/
theorem proceed (h : s.Finishing f n) (hsizes : m.checkVectors inputs outputs = .ok ())
    {fuel : Nat} (hle : n ≤ fuel) :
    let a := s.proceed fuel inputs outputs
    a.stream.settings = s.settings ∧ a.Nears f n s.Due := by
  induction n using Nat.strongRecOn generalizing s outputs fuel with
  | ind n ih =>
    rcases h.ready with ⟨hdue, phase, hphase, hready⟩ | ⟨t, hready, hawaiting, hsettings, ht⟩
    · rw [proceed_of_error hready]
      exact ⟨rfl, .inr ⟨phase, n, rfl, hphase, le_rfl, fun h => absurd h hdue, h⟩⟩
    · rw [proceed_of_ok hready, ← hsettings]
      obtain ⟨signal, stage, outputs', rest, left, hrun, hlt, hrest, hsizes', hnext⟩ :=
        ht.run hawaiting hsizes hle t.settings.run.instructionLimit.toNat
      rw [hrun]
      -- what the rest of the advance comes to is nearer to the end than where it started
      have hstep {u : Stream} (hu : u.Finishing f left) (hsame : u.settings = t.settings) :
          let a := u.proceed rest inputs outputs'
          a.stream.settings = t.settings ∧ a.Nears f n s.Due := by
        obtain ⟨hkept, hends⟩ := ih left hlt hu hsizes' hrest
        exact ⟨hkept.trans hsame, hends.of_lt hlt⟩
      match signal, hnext with
      | .halt, _ => exact ⟨rfl, .inl ⟨rfl, ht.hasFault⟩⟩
      | .wait seconds, hu => exact hstep (hu.of_eq rfl rfl rfl rfl rfl) rfl
      | .pause i, ⟨p, hp, hu⟩ =>
        rw [afterRun_pause hp]
        exact hstep hu rfl

/-- The clock moves on and nothing else does. -/
theorem later (h : s.Finishing f n) (dt : Duration) : (s.later dt).Finishing f n :=
  h.of_eq rfl rfl rfl rfl rfl

end Finishing

/-- A stream that is done stays done. -/
theorem drive_of_terminal (hphase : s.phase = .terminal) (hfault : s.hasFault = false)
    (outputs : Array Float) (cues : List Cue) :
    (s.drive outputs cues).2 = s ∧
      ∀ o ∈ (s.drive outputs cues).1, o.result = .ok .terminal := by
  induction cues generalizing outputs with
  | nil => exact ⟨rfl, nofun⟩
  | cons cue rest ih =>
    rw [drive, advance_of_terminal hfault hphase]
    obtain ⟨hlast, hseen⟩ := ih (cue.prepare outputs)
    exact ⟨hlast, List.forall_mem_cons.2 ⟨rfl, hseen⟩⟩

/-- So many timely advances, each with time enough, take the stream to its end. -/
theorem Finishing.drive (h : s.Finishing f n) (hphase : s.phase ≠ .terminal)
    (hlimit : n ≤ s.settings.run.instructionLimit.toNat) {cues : List Cue}
    (htimely : s.Timely outputs cues) (hlength : n ≤ cues.length) :
    let (seen, last) := s.drive outputs cues
    last.phase = .terminal ∧ last.hasFault = false ∧
      ∀ o ∈ seen, ∃ phase, o.result = .ok phase := by
  induction cues generalizing n s outputs with
  | nil => exact absurd hlength (Nat.not_le.2 h.pos)
  | cons cue rest ih =>
    obtain ⟨hsizes, hdue, htimely⟩ := htimely
    have hfits := hsizes
    rw [h.root] at hfits
    obtain ⟨hsettings, hends⟩ := (h.later cue.dt).proceed hfits hlimit
    rw [drive]
    rw [advance_of_ok h.hasFault hphase hsizes] at htimely ⊢
    generalize (s.later cue.dt).proceed _ cue.inputs (cue.prepare outputs) = a at *
    obtain ⟨result, t, outputs'⟩ := a
    rcases hends with ⟨rfl, hfault⟩ | ⟨phase, left, rfl, hnot, -, hlt, hleft⟩
    · obtain ⟨hlast, hseen⟩ :=
        drive_of_terminal (s := { t with phase := .terminal }) rfl hfault outputs' rest
      refine ⟨?_, ?_, List.forall_mem_cons.2 ⟨⟨_, rfl⟩, fun o ho => ⟨_, hseen o ho⟩⟩⟩
      · exact congrArg Stream.phase hlast
      · exact (congrArg Stream.hasFault hlast).trans hfault
    · have hlt := hlt hdue
      have hsame : t.settings = s.settings := hsettings
      obtain ⟨hterminal, hfault, hseen⟩ :=
        ih (s := { t with phase }) (hleft.of_eq rfl rfl rfl rfl rfl) hnot
          (hsame ▸ hlt.le.trans hlimit) htimely (Nat.le_of_lt_succ (hlt.trans_le hlength))
      exact ⟨hterminal, hfault, List.forall_mem_cons.2 ⟨⟨_, rfl⟩, hseen⟩⟩

theorem Finishing.new (h : m.FinishesWithin n) (settings : StreamSettings) :
    (new m settings).Finishing f n :=
  ⟨rfl, rfl, rfl, rfl, rfl, Frame.Safe.start f _, fun inputs outputs => h _ inputs outputs⟩

end Stream

/-! ## Compiled documents -/

theorem Compiled.finishes {registry : Registry} {d : Document} {p : Typed.Program}
    (hp : Typed.check registry d = .ok p) {level : UInt8} (h : Compiled p level m) :
    ∃ n, m.FinishesWithin n := by
  obtain ⟨names, graph, hchecked⟩ := Typed.check_ok hp
  obtain ⟨A⟩ := h.assembled
  obtain ⟨f⟩ := Model.fitness_of_check h.check
  obtain ⟨k, hends⟩ :=
    (hchecked.bounded (Typed.flows_ne_nil_of_check hp)).optimize hchecked.within level
  refine ⟨Assembled.pace * k, fun random inputs outputs hsizes => ?_⟩
  obtain ⟨hi, ho⟩ := Evaluator.checkVectors_eq_ok.1 hsizes
  obtain ⟨ahead, -, hfollows⟩ := Assembled.Follows.start A (within hchecked) outputs random
  exact hfollows.haltsWithin h.encodable (within hchecked) (f := f) ⟨Frame.Safe.start f random, ho⟩
    hends hi

/-- A compiled document has a bound on the instructions of its runs, whatever the random numbers
are and whatever the inputs change to whenever the machine is suspended. Under a limit that is not
below the bound, an evaluation ends well, and a stream without extensions is done without a fault
after that many advances, if each of them comes when what the stream waits for is over. -/
theorem finishesWithin_of_compile {registry : Registry} {o : CompileOptions} {d : Document}
    (h : compile registry o d = .ok m) :
    (∃ n, m.FinishesWithin n) ∧
      ∀ n, m.FinishesWithin n →
        (∀ (settings : RunSettings) (e : Evaluator), Evaluator.new m settings = .ok e →
          n ≤ settings.instructionLimit.toNat → ∀ seed inputs outputs,
          m.checkVectors inputs outputs = .ok () →
            ((e.reseed seed).evaluate inputs outputs).fault? = none) ∧
        ∀ (settings : StreamSettings) (outputs : Array Float) (cues : List Stream.Cue),
          n ≤ settings.run.instructionLimit.toNat →
          (Stream.new m settings).Timely outputs cues → n ≤ cues.length →
            let (seen, last) := (Stream.new m settings).drive outputs cues
            last.phase = .terminal ∧ last.hasFault = false ∧
              ∀ o ∈ seen, ∃ phase, o.result = .ok phase := by
  obtain ⟨p, hp, hcompiled⟩ := compile_ok h
  refine ⟨hcompiled.finishes hp, fun n hn => ⟨?_, ?_⟩⟩
  · intro settings e hnew hlimit seed inputs outputs hsizes
    obtain ⟨hpoints, rfl⟩ := Evaluator.new_ok hnew
    exact Evaluator.evaluate_of_finishesWithin hcompiled.check hpoints hn hlimit hsizes
  · intro settings outputs cues hlimit htimely hlength
    obtain ⟨f⟩ := Model.fitness_of_check hcompiled.check
    exact (Stream.Finishing.new (f := f) hn settings).drive nofun hlimit htimely hlength

/-- Writes its input, waits, and writes it again. -/
def twice : Document where
  name := "twice"
  flows := [⟨"main", [.call {} "rest", .wait {} (.var {} "a"), .goto {} "rest"], {}⟩,
    ⟨"rest", [.assign {} "b" (.var {} "a")], {}⟩]

def twiceRegistry : Registry where
  declared := [("a", ⟨.number, .input⟩), ("b", ⟨.number, .output⟩)]

def twiceModel : Model where
  id := ⟨1⟩
  version := Model.formatVersion
  flags := {}
  maxStack := 1
  maxCallDepth := 1
  localCount := 0
  entry := 0
  schema := { inputs := [⟨"a", .number, 0⟩], outputs := [⟨"b", .number, 0⟩] }
  points := #[]
  constants := #[]
  strings := #["a", "b"]
  code := #[Word.encode .call 3, Word.encode .loadInput 0, Word.encode .wait 0,
    Word.encode .loadInput 0, Word.encode .storeOutput 0, Word.encode .ret 0]
  extends? := none
  debug? := none

theorem finishesWithin_twiceModel : twiceModel.FinishesWithin 9 := by
  have hsizes {inputs outputs : Array Float}
      (h : twiceModel.checkVectors inputs outputs = .ok ()) :
      ∃ a b, inputs = #[a] ∧ outputs = #[b] := by
    obtain ⟨hi, ho⟩ := Evaluator.checkVectors_eq_ok.1 h
    obtain ⟨a, rfl⟩ := Array.size_eq_one_iff.1 hi
    obtain ⟨b, rfl⟩ := Array.size_eq_one_iff.1 ho
    exact ⟨a, b, rfl, rfl⟩
  have hnext {inputs : Array Float} {n : Nat} {s t : Machine} (op : Opcode) (operand : Nat)
      (hw : twiceModel.code[s.ip]? = some (Word.encode op operand))
      (hle : operand ≤ Word.maxOperand) (hstep : s.execute twiceModel inputs op operand = .next t)
      (h : t.HaltsWithin twiceModel n inputs) : s.HaltsWithin twiceModel (n + 1) inputs :=
    .next hw ((Machine.step_of_encode hle).trans hstep) h
  intro random inputs outputs h
  obtain ⟨a, b, rfl, rfl⟩ := hsizes h
  -- as far as the wait, and from there with other inputs
  refine hnext .call 3 rfl (by decide) rfl (hnext .loadInput 0 rfl (by decide) rfl
    (hnext .storeOutput 0 rfl (by decide) rfl (hnext .ret 0 rfl (by decide) rfl
    (hnext .loadInput 0 rfl (by decide) rfl ⟨Word.encode .wait 0, rfl, ?_⟩))))
  rw [Machine.step_of_encode (by decide)]
  intro inputs outputs h
  obtain ⟨a', b', rfl, rfl⟩ := hsizes h
  refine hnext .loadInput 0 rfl (by decide) rfl (hnext .storeOutput 0 rfl (by decide) rfl
    ⟨Word.encode .ret 0, rfl, ?_⟩)
  rw [Machine.step_of_encode (by decide)]
  trivial

theorem finishesWithin_of_compile_twice :
    let e : Evaluator := ⟨twiceModel, 100000, ⟨0⟩⟩
    let s := Stream.new twiceModel {}
    let cues := List.replicate 9 ⟨.ofMillis 2000, #[1.5], id⟩
    compile twiceRegistry { level := 3, id? := some ⟨1⟩ } twice = .ok twiceModel ∧
      twiceModel.FinishesWithin 9 ∧ Evaluator.new twiceModel {} = .ok e ∧
      (∀ seed, ((e.reseed seed).evaluate #[1.5] #[0.0]).fault? = none) ∧ s.Timely #[0.0] cues ∧
      (s.drive #[0.0] cues).2.phase = .terminal ∧ (s.drive #[0.0] cues).2.hasFault = false := by
  intro e s cues
  have hcompile : compile twiceRegistry { level := 3, id? := some ⟨1⟩ } twice = .ok twiceModel := by
    cbv
  have hnew : Evaluator.new twiceModel {} = .ok e := by cbv
  have hfits : twiceModel.checkVectors #[1.5] #[0.0] = .ok () :=
    Evaluator.checkVectors_eq_ok.2 ⟨rfl, rfl⟩
  have htimely : s.Timely #[0.0] cues := by decide +kernel
  obtain ⟨hevaluates, hdrives⟩ :=
    (finishesWithin_of_compile hcompile).2 9 finishesWithin_twiceModel
  obtain ⟨hphase, hfault, -⟩ := hdrives {} #[0.0] cues (by decide) htimely (by decide)
  exact ⟨hcompile, finishesWithin_twiceModel, hnew,
    fun seed => hevaluates {} e hnew (by decide) seed _ _ hfits, htimely, hphase, hfault⟩

end Behavior
