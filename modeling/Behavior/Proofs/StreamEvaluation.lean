import Behavior.Proofs.StreamSafety

/-!
Evaluating a model and advancing a stream of it.

An evaluation passes over waits, a stream stops at them and goes on once they are over. Without
continuation points that is the only difference, so with the same inputs throughout both execute the
same instructions. An advance has the instruction limit to itself and executes only a part of them.
-/

namespace Behavior

namespace Machine

variable {m : Model} {inputs : Array Float} {limit fuel rest : Nat} {s t : Machine}

theorem run_stopped {skipWaits : Bool} {signal : Signal}
    (h : s.run m inputs limit skipWaits (fuel + 1) = .stopped signal t rest) :
    ∃ word, m.code[s.ip]? = some word ∧
      ((∃ u, s.step m inputs word = .next u ∧
          u.run m inputs limit skipWaits fuel = .stopped signal t rest) ∨
        (∃ seconds u, s.step m inputs word = .stop (.wait seconds) u ∧ skipWaits = true ∧
          u.run m inputs limit skipWaits fuel = .stopped signal t rest) ∨
        s.step m inputs word = .stop signal t ∧ rest = fuel ∧
          ∀ seconds, signal = .wait seconds → skipWaits = false) := by
  rw [run] at h
  split at h
  · cases h
  · next word hw =>
    refine ⟨word, hw, ?_⟩
    split at h
    · next u hstep => exact .inl ⟨u, hstep, h⟩
    · next seconds u hstep =>
      split at h
      · next hskip => exact .inr (.inl ⟨seconds, u, hstep, hskip, h⟩)
      · next hskip =>
        cases h
        exact .inr (.inr ⟨hstep, rfl, fun _ _ => Bool.eq_false_of_not_eq_true hskip⟩)
    · next signal u hwait hstep =>
      cases h
      exact .inr (.inr ⟨hstep, rfl, fun seconds h => absurd h (hwait seconds)⟩)
    · cases h

/-- More fuel than a run needs is left over. -/
theorem run_add {skipWaits : Bool} {signal : Signal}
    (h : s.run m inputs limit skipWaits fuel = .stopped signal t rest) (extra : Nat) :
    s.run m inputs limit skipWaits (fuel + extra) = .stopped signal t (rest + extra) := by
  induction fuel generalizing s with
  | zero => exact absurd (fuel_lt_of_run h) (Nat.not_lt_zero _)
  | succ fuel ih =>
    rw [Nat.add_right_comm]
    obtain ⟨word, hw, ⟨u, hstep, h⟩ | ⟨seconds, u, hstep, rfl, h⟩ | ⟨hstep, rfl, hwait⟩⟩ :=
      run_stopped h
    · rw [run_of_next hw hstep, ih h]
    · rw [run_of_wait hw hstep, if_pos rfl, ih h]
    · exact run_of_stop hw hstep hwait

/-- A run that passes over waits does not stop at one. -/
theorem run_skipping_ne_wait {seconds : Float} :
    s.run m inputs limit true fuel ≠ .stopped (.wait seconds) t rest := by
  intro h
  induction fuel generalizing s with
  | zero => exact absurd (fuel_lt_of_run h) (Nat.not_lt_zero _)
  | succ fuel ih =>
    obtain ⟨word, hw, ⟨u, -, h⟩ | ⟨seconds, u, -, -, h⟩ | ⟨-, -, hwait⟩⟩ := run_stopped h
    · exact ih h
    · exact ih h
    · exact Bool.noConfusion (hwait seconds rfl)

/-- A run that passes over waits, seen by one that does not: it is the same as far as the first
wait, from where the rest of it is still to come. -/
theorem run_of_skipping (h : s.run m inputs limit true fuel = .stopped .halt t rest) :
    s.run m inputs limit false fuel = .stopped .halt t rest ∨
    ∃ seconds s' rest', s.run m inputs limit false fuel = .stopped (.wait seconds) s' rest' ∧
      s'.run m inputs limit true rest' = .stopped .halt t rest := by
  induction fuel generalizing s with
  | zero => exact absurd (fuel_lt_of_run h) (Nat.not_lt_zero _)
  | succ fuel ih =>
    obtain ⟨word, hw, ⟨u, hstep, h⟩ | ⟨seconds, u, hstep, -, h⟩ | ⟨hstep, rfl, -⟩⟩ := run_stopped h
    · rw [run_of_next hw hstep]
      exact ih h
    · exact .inr ⟨seconds, u, fuel, run_of_wait hw hstep false, h⟩
    · exact .inl (run_of_stop hw hstep nofun)

end Machine

namespace Stream

variable {m : Model} {f : Fitness m} {inputs final outputs : Array Float} {s : Stream}

/-- The stream runs its own model and waits at no point, and what there is still to execute, waits
passed over, takes at most the fuel and ends with the given outputs. -/
structure Nearing (f : Fitness m) (inputs final : Array Float) (fuel : Nat) (s : Stream)
    (outputs : Array Float) : Prop where
  root : s.root = m
  model : s.stage.model = m
  bridge : s.stage.bridge? = none
  awaiting : s.awaiting? = none
  hasFault : s.hasFault = false
  safe : Machine.Safe f { toFrame := s.stage.frame, outputs }
  halts : ∃ t rest, ({ toFrame := s.stage.frame, outputs } : Machine).run m inputs
    s.settings.run.instructionLimit.toNat true fuel = .stopped .halt t rest ∧ t.outputs = final

namespace Nearing

variable {fuel : Nat} {s : Stream} {outputs : Array Float}

theorem mono (h : Nearing f inputs final fuel s outputs) {fuel' : Nat} (hle : fuel ≤ fuel') :
    Nearing f inputs final fuel' s outputs := by
  obtain ⟨extra, rfl⟩ := Nat.le.dest hle
  obtain ⟨t, rest, hrun, hfinal⟩ := h.halts
  exact { h with halts := ⟨t, _, Machine.run_add hrun extra, hfinal⟩ }

theorem of_eq (h : Nearing f inputs final fuel s outputs) {t : Stream} (hroot : t.root = s.root)
    (hsettings : t.settings = s.settings) (hstage : t.stage = s.stage)
    (hawaiting : t.awaiting? = s.awaiting?) (hfault : t.hasFault = s.hasFault) :
    Nearing f inputs final fuel t outputs :=
  ⟨hroot.trans h.root, hstage ▸ h.model, hstage ▸ h.bridge, hawaiting.trans h.awaiting,
    hfault.trans h.hasFault, hstage ▸ h.safe, by rw [hstage, hsettings]; exact h.halts⟩

/-- Nothing but a wait holds the stream up. -/
theorem ready (h : Nearing f inputs final fuel s outputs) :
    s.ready = .error .running ∨ s.ready = .ok { s with waitUntil? := none } := by
  rw [ready_eq, h.awaiting]
  split
  · exact .inl rfl
  · exact .inr rfl

/-- The stage runs to the end, or to a wait from where the rest is to come. -/
theorem run (h : Nearing f inputs final fuel s outputs) (hi : inputs.size = m.inputSize) :
    let limit := s.settings.run.instructionLimit.toNat
    (∃ stage rest, s.stage.run limit fuel inputs outputs = .stopped .halt stage final rest) ∨
    ∃ seconds stage outputs' rest,
      s.stage.run limit fuel inputs outputs = .stopped (.wait seconds) stage outputs' rest ∧
      Nearing f inputs final rest { s with stage } outputs' := by
  intro limit
  obtain ⟨t, rest, hrun, hfinal⟩ := h.halts
  have hend := h.safe.run hi limit false fuel
  simp only [Stage.run, h.bridge, h.model]
  rcases Machine.run_of_skipping hrun with hstop | ⟨seconds, s', rest', hstop, hrest⟩
  · subst hfinal
    rw [hstop]
    exact .inl ⟨_, _, rfl⟩
  · rw [hstop] at hend ⊢
    exact .inr ⟨_, _, _, _, rfl, h.root, rfl, rfl, h.awaiting, h.hasFault, hend, t, rest, hrest,
      hfinal⟩

/-- An advance comes to the end, or to a wait. -/
theorem proceed (h : Nearing f inputs final fuel s outputs) (hi : inputs.size = m.inputSize) :
    let a := s.proceed fuel inputs outputs
    a.stream.settings = s.settings ∧ a.stream.hasFault = false ∧
      (a.result = .ok .terminal ∧ a.outputs = final ∨
        a.result = .ok .running ∧ ∃ left ≤ fuel, Nearing f inputs final left a.stream a.outputs) := by
  induction fuel using Nat.strongRecOn generalizing s outputs with
  | ind fuel ih =>
    rcases h.ready with hready | hready
    · rw [proceed_of_error hready]
      exact ⟨rfl, h.hasFault, .inr ⟨rfl, fuel, le_rfl, h⟩⟩
    · rw [proceed_of_ok hready]
      have ht : Nearing f inputs final fuel { s with waitUntil? := none } outputs :=
        h.of_eq rfl rfl rfl rfl rfl
      rcases ht.run hi with ⟨stage, rest, hrun⟩ | ⟨seconds, stage, outputs', rest, hrun, hrest⟩
      · rw [hrun]
        exact ⟨rfl, h.hasFault, .inl ⟨rfl, rfl⟩⟩
      · -- the advance goes on from the wait with less fuel
        have hlt := Stage.fuel_lt_of_run hrun
        rw [hrun]
        obtain ⟨hsettings, hfault, hends⟩ := ih rest hlt
          (hrest.of_eq (t := { s with
            stage, waitUntil? := some (s.clock.add (.ofSeconds seconds)) }) rfl rfl rfl rfl rfl)
        refine ⟨hsettings, hfault, hends.imp_right ?_⟩
        rintro ⟨hresult, left, hle, hleft⟩
        exact ⟨hresult, left, hle.trans hlt.le, hleft⟩

end Nearing

/-- The stream is done and has left the given outputs, or an advance can bring it nearer to that. -/
def Follows (f : Fitness m) (inputs final : Array Float) (s : Stream) (outputs : Array Float) :
    Prop :=
  s.phase = .terminal ∧ s.hasFault = false ∧ outputs = final ∨
    s.phase ≠ .terminal ∧
      Nearing f inputs final s.settings.run.instructionLimit.toNat s outputs

theorem Follows.hasFault (h : s.Follows f inputs final outputs) : s.hasFault = false :=
  h.elim (·.2.1) (·.2.hasFault)

theorem Follows.advance (h : s.Follows f inputs final outputs) (hi : inputs.size = m.inputSize)
    (dt : Duration) :
    let a := s.advance dt inputs outputs
    a.stream.Follows f inputs final a.outputs ∧
      ∃ phase, a.result = .ok phase ∧ (phase = .terminal → a.outputs = final) := by
  rcases h with ⟨hphase, hfault, rfl⟩ | ⟨hphase, hs⟩
  · rw [advance_of_terminal hfault hphase]
    exact ⟨.inl ⟨hphase, hfault, rfl⟩, _, rfl, fun _ => rfl⟩
  · have hsizes : s.root.checkVectors inputs outputs = .ok () := by
      rw [hs.root]
      exact Evaluator.checkVectors_eq_ok.2 ⟨hi, hs.safe.outputs⟩
    rw [advance_of_ok hs.hasFault hphase hsizes]
    have hlater : Nearing f inputs final s.settings.run.instructionLimit.toNat (s.later dt)
        outputs := hs.of_eq rfl rfl rfl rfl rfl
    obtain ⟨hsettings, hfault, hends⟩ := hlater.proceed hi
    generalize (s.later dt).proceed _ inputs outputs = a at *
    obtain ⟨result, t, outputs'⟩ := a
    rcases hends with ⟨rfl, houtputs⟩ | ⟨rfl, left, hle, hleft⟩
    · exact ⟨.inl ⟨rfl, hfault, houtputs⟩, _, rfl, fun _ => houtputs⟩
    · refine ⟨.inr ⟨nofun, ?_⟩, _, rfl, nofun⟩
      have hleft := hleft.mono hle
      rw [← show t.settings = s.settings from hsettings] at hleft
      exact hleft.of_eq rfl rfl rfl rfl rfl

theorem Follows.drive (h : s.Follows f inputs final outputs) (hi : inputs.size = m.inputSize)
    (dts : List Duration) :
    let (seen, last) := s.drive outputs (dts.map fun dt => ⟨dt, inputs, id⟩)
    last.hasFault = false ∧
      ∀ o ∈ seen, ∃ phase, o.result = .ok phase ∧ (phase = .terminal → o.outputs = final) := by
  induction dts generalizing s outputs with
  | nil => exact ⟨h.hasFault, nofun⟩
  | cons dt rest ih =>
    obtain ⟨hnext, hresult⟩ := h.advance hi dt
    obtain ⟨hfault, hseen⟩ := ih hnext
    refine ⟨hfault, fun o ho => ?_⟩
    rcases List.mem_cons.1 ho with rfl | ho
    · exact hresult
    · exact hseen o ho

end Stream

/-- An evaluation that ends well runs to a halt. -/
theorem Evaluator.evaluate_halts {e : Evaluator} {inputs outputs : Array Float}
    (h : (e.evaluate inputs outputs).fault? = none) :
    inputs.size = e.model.inputSize ∧ ∃ t rest,
      ({ toFrame := Frame.start e.model e.random,
         outputs := Array.replicate e.model.outputSize 0.0 } : Machine).run e.model inputs e.limit
          true e.limit = .stopped .halt t rest ∧
      t.outputs = (e.evaluate inputs outputs).outputs := by
  unfold evaluate at h ⊢
  split at h
  · cases h
  · next hsizes =>
    refine ⟨(checkVectors_eq_ok.1 hsizes).1, ?_⟩
    dsimp only at h ⊢
    split at h
    · cases h
    · cases h
    · next signal t rest hpause hrun =>
      rw [hrun]
      cases signal with
      | halt => exact ⟨t, rest, rfl, rfl⟩
      | wait seconds => exact absurd hrun Machine.run_skipping_ne_wait
      | pause point => exact absurd rfl (hpause point)

namespace Stream

/-- Evaluating a model without continuation points and advancing a stream of it come to the same. If
the evaluation ends well, then a stream with the same settings and inputs, whose outputs start at
zero, never faults, whatever time its advances are told to have passed, and has written what the
evaluation has whenever it is done. -/
theorem drive_of_evaluate {m : Model} (hcheck : m.check = .ok ()) {settings : StreamSettings}
    {e : Evaluator} (hnew : Evaluator.new m settings.run = .ok e) {inputs outputs : Array Float}
    (hok : (e.evaluate inputs outputs).fault? = none) (dts : List Duration) :
    let zeros := Array.replicate m.outputSize 0.0
    let (seen, last) := (new m settings).drive zeros (dts.map fun dt => ⟨dt, inputs, id⟩)
    last.hasFault = false ∧
      ∀ o ∈ seen, ∃ phase, o.result = .ok phase ∧
        (phase = .terminal → o.outputs = (e.evaluate inputs outputs).outputs) := by
  obtain ⟨f⟩ := Model.fitness_of_check hcheck
  obtain ⟨-, rfl⟩ := Evaluator.new_ok hnew
  obtain ⟨hi, hhalts⟩ := Evaluator.evaluate_halts hok
  have hphase : (new m settings).phase ≠ .terminal := by
    show Phase.running ≠ .terminal
    nofun
  refine Follows.drive (f := f) (.inr ⟨hphase, rfl, rfl, rfl, rfl, rfl, ?_, hhalts⟩) hi dts
  exact ⟨Frame.Safe.start f _, Array.size_replicate⟩

/-- Waits for as many seconds as its input says and then writes it. -/
def delaying : Model where
  id := ⟨1⟩
  version := Model.formatVersion
  flags := {}
  maxStack := 1
  maxCallDepth := 0
  localCount := 0
  entry := 0
  schema := { inputs := [⟨"x", .number, 0⟩], outputs := [⟨"y", .number, 0⟩] }
  points := #[]
  constants := #[]
  strings := #["x", "y"]
  code := #[Word.encode .loadInput 0, Word.encode .wait 0, Word.encode .loadInput 0,
    Word.encode .storeOutput 0, Word.encode .halt 0]
  extends? := none
  debug? := none

theorem drive_of_evaluate_delaying :
    let e : Evaluator := ⟨delaying, 100000, ⟨0⟩⟩
    delaying.check = .ok () ∧ Evaluator.new delaying {} = .ok e ∧
      (e.evaluate #[1.5] #[0.0]).fault? = none ∧
      ∀ dt dt', let (seen, last) :=
          (new delaying {}).drive #[0.0] [⟨dt, #[1.5], id⟩, ⟨dt', #[1.5], id⟩]
        last.hasFault = false ∧
          ∀ o ∈ seen, ∃ phase, o.result = .ok phase ∧ (phase = .terminal → o.outputs = #[1.5]) := by
  intro e
  have hcheck : delaying.check = .ok () := by cbv
  have hnew : Evaluator.new delaying {} = .ok e := by cbv
  have hok : (e.evaluate #[1.5] #[0.0]).fault? = none := by decide +kernel
  have houtputs : (e.evaluate #[1.5] #[0.0]).outputs = #[1.5] := by decide +kernel
  refine ⟨hcheck, hnew, hok, fun dt dt' => ?_⟩
  have h := @drive_of_evaluate _ hcheck {} _ hnew _ _ hok [dt, dt']
  rw [houtputs] at h
  exact h

end Stream

end Behavior
