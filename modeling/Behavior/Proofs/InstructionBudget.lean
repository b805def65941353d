import Behavior.Proofs.Compiled
import Behavior.Proofs.StreamStates

/-!
How many instructions a call executes. A machine counts them in a word of 32 bits and checks the
count against its limit before each one. What a call does is said here with that counter and without
any other bound, so it need not come to an end; every stage has a counter of its own, and an advance
clears that of its current stage.

A call comes to an end within its limit, unless the limit is the largest that the counter can hold:
then the counter wraps around and never exceeds it.
-/

namespace Behavior

variable {limit : UInt32} {inputs outputs : Array Float} {n : Nat}
variable {counter : UInt32} {n' : Nat} {o : Stage.Outcome} {e : Evaluator}

/-! ## Counting -/

/-- The largest limit, at which the counter wraps around. -/
def maxLimit : UInt32 := 0xffffffff

/-- Count one more instruction, unless that exceeds the limit. -/
def countUp? (limit counter : UInt32) : Option UInt32 :=
  if counter + 1 ≤ limit then some (counter + 1) else none

/-- The counter once all but `rest` instructions of the limit are executed. -/
def counterFor (limit : UInt32) (rest : Nat) : UInt32 :=
  limit - rest.toUInt32

/-- Whether a machine goes on after an instruction, and with how many left it has stopped
otherwise. -/
def Reaction.goesOn (skipWaits : Bool) (left : Nat) : Reaction → Machine ⊕ Machine.Outcome
  | .next s => .inl s
  | .stop (.wait seconds) s => if skipWaits then .inl s else .inr (.stopped (.wait seconds) s left)
  | .stop signal s => .inr (.stopped signal s left)
  | .fault f s => .inr (.faulted f s)

/-- A machine whose counter stands at a number executes `n` instructions until it comes to an
outcome. -/
inductive Machine.Counted (m : Model) (inputs : Array Float) (limit : UInt32) (skipWaits : Bool) :
    UInt32 → Machine → Nat → Outcome → Prop
  | astray {counter : UInt32} {s : Machine} (hw : m.code[s.ip]? = none) :
      Counted m inputs limit skipWaits counter s 0 (.faulted (.programCounter s.ip) s)
  | exceeded {counter : UInt32} {s : Machine} {word : Word} (hw : m.code[s.ip]? = some word)
      (hc : countUp? limit counter = none) :
      Counted m inputs limit skipWaits counter s 0 (.faulted (.instructionLimit limit.toNat) s)
  | next {counter counter' : UInt32} {s t : Machine} {word : Word} {n : Nat} {o : Outcome}
      (hw : m.code[s.ip]? = some word) (hc : countUp? limit counter = some counter')
      (hstep : (s.step m inputs word).goesOn skipWaits (limit - counter').toNat = .inl t)
      (rest : Counted m inputs limit skipWaits counter' t n o) :
      Counted m inputs limit skipWaits counter s (n + 1) o
  | stop {counter counter' : UInt32} {s : Machine} {word : Word} {o : Outcome}
      (hw : m.code[s.ip]? = some word) (hc : countUp? limit counter = some counter')
      (hstep : (s.step m inputs word).goesOn skipWaits (limit - counter').toNat = .inr o) :
      Counted m inputs limit skipWaits counter s 1 o

/-- An evaluation executes `n` instructions. -/
inductive Evaluator.Executes (e : Evaluator) (limit : UInt32) (inputs outputs : Array Float) :
    Nat → Evaluation → Prop
  | refused {f : Fault} (h : e.model.checkVectors inputs outputs = .error f) :
      Executes e limit inputs outputs 0 ⟨some f, outputs, e⟩
  | run {n : Nat} {o : Machine.Outcome} (h : e.model.checkVectors inputs outputs = .ok ())
      (hrun : Machine.Counted e.model inputs limit true 0 e.start n o) :
      Executes e limit inputs outputs n (e.ofOutcome o)

/-- A stage whose counter stands at a number executes `n` instructions. -/
def Stage.Counts (stage : Stage) (limit counter : UInt32) (inputs outputs : Array Float) (n : Nat)
    (o : Stage.Outcome) : Prop :=
  ∃ r, Machine.Counted stage.model (stage.enter inputs outputs).1 limit false counter
    { toFrame := stage.frame, outputs := (stage.enter inputs outputs).2 } n r ∧
      o = stage.leave outputs r

namespace Stream

/-- The counter of the stage that runs next: one that takes over has not executed anything. -/
def counterOf (s : Stream) (counter : UInt32) : UInt32 :=
  if s.awaiting?.isSome ∧ s.incoming?.isSome then 0 else counter

/-- What follows the run of a stage: the stream is done, or it is to run on. -/
def followUp (s : Stream) : Stage.Outcome → Advance ⊕ Turn
  | .faulted f stage outputs => .inl ⟨.error f, { s with stage }, outputs⟩
  | .stopped .halt stage outputs _ => .inl ⟨.ok .terminal, { s with stage }, outputs⟩
  | .stopped (.wait seconds) stage outputs rest =>
    .inr ⟨{ s with stage, waitUntil? := some (s.clock.add (.ofSeconds seconds)) }, rest, outputs⟩
  | .stopped (.pause point) stage outputs rest =>
    match pauseAt { s with stage } point with
    | .error f => .inl ⟨.error f, { s with stage }, outputs⟩
    | .ok s => .inr ⟨s, rest, outputs⟩

/-- A stream whose current stage has its counter at a number executes `n` instructions until it has
to wait or is done. -/
inductive Counts (inputs : Array Float) : UInt32 → Stream → Array Float → Nat → Advance → Prop
  | blocked {counter : UInt32} {s : Stream} {outputs : Array Float} {phase : Phase}
      (hready : s.ready = .error phase) : Counts inputs counter s outputs 0 ⟨.ok phase, s, outputs⟩
  | done {counter : UInt32} {s t : Stream} {outputs : Array Float} {n : Nat} {o : Stage.Outcome}
      {a : Advance} (hready : s.ready = .ok t)
      (hrun : t.stage.Counts t.settings.run.instructionLimit (s.counterOf counter) inputs outputs n o)
      (ho : t.followUp o = .inl a) : Counts inputs counter s outputs n a
  | next {counter : UInt32} {s t : Stream} {outputs : Array Float} {n n' : Nat} {o : Stage.Outcome}
      {c : Turn} {a : Advance} (hready : s.ready = .ok t)
      (hrun : t.stage.Counts t.settings.run.instructionLimit (s.counterOf counter) inputs outputs n o)
      (ho : t.followUp o = .inr c)
      (rest : Counts inputs (counterFor t.settings.run.instructionLimit c.fuel) c.stream c.outputs n'
        a) :
      Counts inputs counter s outputs (n + n') a

/-- An advance executes `n` instructions. -/
inductive Executes (s : Stream) (dt : Duration) (inputs outputs : Array Float) :
    Nat → Advance → Prop
  | refused (h : ¬ s.Runs inputs outputs) :
      Executes s dt inputs outputs 0 (s.advance dt inputs outputs)
  | run {n : Nat} {a : Advance} (h : s.Runs inputs outputs)
      (hrun : Counts inputs 0 (s.later dt) outputs n a) : Executes s dt inputs outputs n a.settle

end Stream

/-! ## The counter -/

section

variable {limit : UInt32} {fuel : Nat}

theorem toNat_counterFor (h : fuel ≤ limit.toNat) :
    (counterFor limit fuel).toNat = limit.toNat - fuel := by
  have hlt := limit.toNat_lt
  have hfuel : fuel.toUInt32.toNat = fuel := by
    rw [Nat.toUInt32_eq, UInt32.toNat_ofNat_of_lt']
    exact Nat.lt_of_le_of_lt h hlt
  rw [counterFor, UInt32.toNat_sub_of_le, hfuel]
  rw [UInt32.le_iff_toNat_le, hfuel]
  exact h

/-- The counter does not wrap around below the largest number it can hold. -/
theorem toNat_add_one (h : counter.toNat < maxLimit.toNat) :
    (counter + 1).toNat = counter.toNat + 1 := by
  rw [UInt32.toNat_add]
  exact Nat.mod_eq_of_lt (Nat.succ_lt_succ h)

theorem countUp?_counterFor (h : fuel + 1 ≤ limit.toNat) :
    countUp? limit (counterFor limit (fuel + 1)) = some (counterFor limit fuel) := by
  have hmax : limit.toNat ≤ maxLimit.toNat := Nat.le_of_lt_succ limit.toNat_lt_size
  have hcounter := toNat_counterFor h
  have hsucc : (counterFor limit (fuel + 1) + 1).toNat = limit.toNat - fuel := by
    rw [toNat_add_one (by omega), hcounter]
    omega
  have heq : counterFor limit (fuel + 1) + 1 = counterFor limit fuel :=
    UInt32.toNat_inj.1 (hsucc.trans (toNat_counterFor (Nat.le_of_succ_le h)).symm)
  rw [countUp?, if_pos, heq]
  rw [UInt32.le_iff_toNat_le, hsucc]
  exact Nat.sub_le ..

theorem countUp?_of_spent (h : limit ≠ maxLimit) : countUp? limit (counterFor limit 0) = none := by
  have hmax : limit.toNat ≤ maxLimit.toNat := Nat.le_of_lt_succ limit.toNat_lt_size
  have hlt : limit.toNat < maxLimit.toNat :=
    Nat.lt_of_le_of_ne hmax fun heq => h (UInt32.toNat_inj.1 heq)
  have hcounter := toNat_counterFor (Nat.zero_le limit.toNat)
  rw [countUp?, if_neg]
  rw [UInt32.le_iff_toNat_le, toNat_add_one (by omega), hcounter]
  omega

theorem toNat_sub_counterFor (h : fuel ≤ limit.toNat) :
    (limit - counterFor limit fuel).toNat = fuel := by
  have hcounter := toNat_counterFor h
  rw [UInt32.toNat_sub_of_le, hcounter]
  · omega
  · rw [UInt32.le_iff_toNat_le, hcounter]
    exact Nat.sub_le ..

theorem counterFor_full (limit : UInt32) : counterFor limit limit.toNat = 0 := by
  rw [← UInt32.toNat_inj, toNat_counterFor (Nat.le_refl _), Nat.sub_self]
  rfl

end

/-! ## Machines -/

namespace Machine

variable {s : Machine} {fuel : Nat}

/-- Instructions that an outcome leaves. -/
def Outcome.left : Outcome → Nat
  | .stopped _ _ rest => rest
  | .faulted _ _ => 0

variable {m : Model} {inputs : Array Float} {limit : UInt32} {skipWaits : Bool}

theorem Counted.unique {n : Nat} {o o' : Outcome}
    (h : Counted m inputs limit skipWaits counter s n o)
    (h' : Counted m inputs limit skipWaits counter s n' o') : n = n' ∧ o = o' := by
  induction h generalizing n' o' with
  | astray hw | exceeded hw hc | stop hw hc hstep => cases h' <;> simp_all
  | next hw hc hstep _ ih =>
    cases h' with
    | next hw' hc' hstep' hrest' =>
      cases hw.symm.trans hw'
      cases hc.symm.trans hc'
      cases hstep.symm.trans hstep'
      obtain ⟨rfl, rfl⟩ := ih hrest'
      exact ⟨rfl, rfl⟩
    | _ => simp_all

/-- Running goes on with one instruction less, or has come to its outcome. -/
theorem run_succ {limit : Nat} {word : Word} (hw : m.code[s.ip]? = some word) :
    s.run m inputs limit skipWaits (fuel + 1) =
      match (s.step m inputs word).goesOn skipWaits fuel with
      | .inl t => t.run m inputs limit skipWaits fuel
      | .inr o => o := by
  rw [run, hw]
  dsimp only
  cases s.step m inputs word with
  | next t => rfl
  | fault f t => rfl
  | stop signal t =>
    cases signal with
    | halt => rfl
    | pause point => rfl
    | wait seconds => cases skipWaits <;> rfl

theorem left_le_of_goesOn {r : Reaction} {left : Nat} {o : Outcome}
    (h : r.goesOn skipWaits left = .inr o) : o.left ≤ left := by
  unfold Reaction.goesOn at h
  split at h
  · cases h
  · split at h
    · cases h
    · cases h
      exact Nat.le_refl _
  · cases h
    exact Nat.le_refl _
  · cases h
    exact Nat.zero_le _

/-- A run for at most some instructions is what counting comes to, unless the largest limit is
reached. -/
theorem counted_run (hfuel : fuel ≤ limit.toNat) (s : Machine)
    (hlimit : limit ≠ maxLimit ∨ ∀ t, s.run m inputs limit.toNat skipWaits fuel ≠
      .faulted (.instructionLimit limit.toNat) t) :
    ∃ n, Counted m inputs limit skipWaits (counterFor limit fuel) s n
        (s.run m inputs limit.toNat skipWaits fuel) ∧
      n + (s.run m inputs limit.toNat skipWaits fuel).left ≤ fuel := by
  induction fuel generalizing s with
  | zero =>
    rw [run] at hlimit ⊢
    cases hw : m.code[s.ip]? with
    | none => exact ⟨0, .astray hw, Nat.le_refl 0⟩
    | some word =>
      simp only [hw] at hlimit
      refine ⟨0, .exceeded hw (countUp?_of_spent ?_), Nat.le_refl 0⟩
      exact hlimit.resolve_right fun hne => hne s rfl
  | succ fuel ih =>
    have hrest := Nat.le_of_succ_le hfuel
    cases hw : m.code[s.ip]? with
    | none =>
      rw [run, hw]
      exact ⟨0, .astray hw, Nat.zero_le _⟩
    | some word =>
      have hcount := countUp?_counterFor hfuel
      have hleft := toNat_sub_counterFor hrest
      rw [run_succ hw] at hlimit ⊢
      cases hstep : (s.step m inputs word).goesOn skipWaits fuel with
      | inl t =>
        rw [hstep] at hlimit
        obtain ⟨n, hcounted, hle⟩ := ih hrest t hlimit
        exact ⟨n + 1, .next hw hcount (hleft.symm ▸ hstep) hcounted, by dsimp only; omega⟩
      | inr o =>
        refine ⟨1, .stop hw hcount (hleft.symm ▸ hstep), ?_⟩
        rw [Nat.add_comm]
        exact Nat.succ_le_succ (left_le_of_goesOn hstep)

end Machine

/-! ## Evaluations -/

theorem Evaluator.Executes.unique {a a' : Evaluation} (h : e.Executes limit inputs outputs n a)
    (h' : e.Executes limit inputs outputs n' a') : n = n' ∧ a = a' := by
  cases h with
  | refused hsizes =>
    cases h' with
    | refused hsizes' =>
      cases hsizes.symm.trans hsizes'
      exact ⟨rfl, rfl⟩
    | run hsizes' => cases hsizes.symm.trans hsizes'
  | run hsizes hrun =>
    cases h' with
    | refused hsizes' => cases hsizes.symm.trans hsizes'
    | run _ hrun' =>
      obtain ⟨rfl, rfl⟩ := hrun.unique hrun'
      exact ⟨rfl, rfl⟩

theorem Evaluator.executes_evaluate (he : e.limit = limit.toNat) (hlimit : limit ≠ maxLimit ∨
      (e.evaluate inputs outputs).fault? ≠ some (.instructionLimit limit.toNat)) :
    ∃ n ≤ limit.toNat, e.Executes limit inputs outputs n (e.evaluate inputs outputs) := by
  cases hsizes : e.model.checkVectors inputs outputs with
  | error f =>
    refine ⟨0, Nat.zero_le _, ?_⟩
    rw [evaluate, hsizes]
    exact .refused hsizes
  | ok _ =>
    rw [evaluate_eq hsizes, he] at hlimit ⊢
    have hrun : limit ≠ maxLimit ∨ ∀ t, e.start.run e.model inputs limit.toNat true limit.toNat ≠
        .faulted (.instructionLimit limit.toNat) t := by
      refine hlimit.imp_right fun hne t hrun => ?_
      rw [hrun] at hne
      exact hne rfl
    obtain ⟨n, hcounted, hle⟩ := Machine.counted_run (Nat.le_refl _) _ hrun
    rw [counterFor_full] at hcounted
    exact ⟨n, Nat.le_trans (Nat.le_add_right ..) hle, .run hsizes hcounted⟩

/-! ## Streams -/

theorem Stage.Counts.unique {stage : Stage} {o' : Stage.Outcome}
    (h : stage.Counts limit counter inputs outputs n o)
    (h' : stage.Counts limit counter inputs outputs n' o') : n = n' ∧ o = o' := by
  obtain ⟨r, hrun, rfl⟩ := h
  obtain ⟨r', hrun', rfl⟩ := h'
  obtain ⟨rfl, rfl⟩ := hrun.unique hrun'
  exact ⟨rfl, rfl⟩

/-- Instructions that an outcome leaves. -/
def Stage.Outcome.left : Stage.Outcome → Nat
  | .stopped _ _ _ rest => rest
  | .faulted _ _ _ => 0

theorem Stage.counts_run {fuel : Nat} (hfuel : fuel ≤ limit.toNat) (stage : Stage)
    (hlimit : limit ≠ maxLimit ∨ ∀ next after, stage.run limit.toNat fuel inputs outputs ≠
      .faulted (.instructionLimit limit.toNat) next after) :
    ∃ n, stage.Counts limit (counterFor limit fuel) inputs outputs n
        (stage.run limit.toNat fuel inputs outputs) ∧
      n + (stage.run limit.toNat fuel inputs outputs).left ≤ fuel := by
  rw [run_eq] at hlimit ⊢
  generalize hs : Machine.mk stage.frame (stage.enter inputs outputs).2 = s at hlimit ⊢
  obtain ⟨n, hcounted, hle⟩ := Machine.counted_run hfuel s <| hlimit.imp_right <| by
    intro hne t hrun
    rw [hrun] at hne
    exact hne _ _ rfl
  refine ⟨n, ⟨_, hs ▸ hcounted, rfl⟩, ?_⟩
  cases hrun : s.run stage.model (stage.enter inputs outputs).1 limit.toNat false fuel with
  | stopped signal t rest | faulted f t =>
    rw [hrun] at hle
    exact hle

namespace Stream

variable {s : Stream} {inputs outputs : Array Float}
variable {t : Stream} {c : Turn} {fuel : Nat} {a' a : Advance}

theorem counterOf_of_incoming (h : s.incoming? = none) (counter : UInt32) :
    s.counterOf counter = counter := by
  rw [counterOf, h, if_neg]
  simp

theorem counterOf_zero (s : Stream) : s.counterOf 0 = 0 := by
  rw [counterOf]
  split <;> rfl

theorem afterRun_eq (s : Stream) (inputs : Array Float) (o : Stage.Outcome) :
    s.afterRun inputs o =
      match s.followUp o with
      | .inl a => a
      | .inr c => c.proceed inputs := by
  match o with
  | .faulted f stage outputs => rfl
  | .stopped .halt stage outputs rest => rfl
  | .stopped (.wait seconds) stage outputs rest => rfl
  | .stopped (.pause point) stage outputs rest =>
    rw [afterRun, followUp]
    cases pauseAt { s with stage } point <;> rfl

/-- A stream that runs on awaits an extension only where it holds none. -/
theorem followUp_inr (ht : t.Tidy) (hincoming : t.incoming? = none) (h : t.followUp o = .inr c) :
    c.stream.Tidy ∧ c.stream.incoming? = none ∧ c.stream.settings = t.settings ∧
      c.fuel = o.left := by
  match o with
  | .stopped (.wait seconds) stage outputs rest =>
    cases h
    exact ⟨⟨ht.pending, ht.incoming⟩, hincoming, rfl, rfl⟩
  | .stopped (.pause point) stage outputs rest =>
    cases hp : stage.model.points[point]? with
    | none =>
      simp only [followUp, pauseAt, hp] at h
      cases h
    | some p =>
      simp only [followUp, pauseAt, hp] at h
      cases h
      exact ⟨.pausedAt hincoming stage point p, hincoming, rfl, rfl⟩

theorem fuel_lt_of_followUp {limit : Nat} (hrun : t.stage.run limit fuel inputs outputs = o)
    (h : t.followUp o = .inr c) (hleft : c.fuel = o.left) : c.fuel < fuel := by
  rw [hleft]
  cases o with
  | faulted f stage after => cases h
  | stopped signal stage after rest => exact Stage.fuel_lt_of_run hrun

/-- Running on is what counting comes to, if nothing has been executed yet where an extension is to
take over. -/
theorem counts_proceed {limit : UInt32} (hfuel : fuel ≤ limit.toNat) (hs : s.Tidy)
    (hsettings : s.settings.run.instructionLimit = limit)
    (hstart : s.incoming? = none ∨ fuel = limit.toNat) (hlimit : limit ≠ maxLimit ∨
      (s.proceed fuel inputs outputs).result ≠ .error (.instructionLimit limit.toNat)) :
    ∃ n ≤ fuel, Counts inputs (counterFor limit fuel) s outputs n
      (s.proceed fuel inputs outputs) := by
  induction fuel using Nat.strongRecOn generalizing s outputs with
  | ind fuel ih =>
    cases hready : s.ready with
    | error phase =>
      rw [proceed_of_error hready]
      exact ⟨0, Nat.zero_le _, .blocked hready⟩
    | ok t =>
      obtain ⟨-, -, hincoming, ht⟩ := hs.ready hready
      have hcounter : s.counterOf (counterFor limit fuel) = counterFor limit fuel := by
        rcases hstart with hnone | rfl
        · exact counterOf_of_incoming hnone _
        · rw [counterFor_full]
          exact counterOf_zero s
      have hsame : limit = t.settings.run.instructionLimit := by
        rw [(Same.of_ready hready).settings, hsettings]
      subst hsame
      rw [proceed_of_ok hready] at hlimit ⊢
      generalize hrun : t.stage.run _ fuel inputs outputs = o at hlimit ⊢
      have hfault : t.settings.run.instructionLimit ≠ maxLimit ∨ ∀ next after,
          t.stage.run t.settings.run.instructionLimit.toNat fuel inputs outputs ≠
            .faulted (.instructionLimit t.settings.run.instructionLimit.toNat) next after := by
        refine hlimit.imp_right fun hne next after hfault => ?_
        cases hrun.symm.trans hfault
        exact hne rfl
      obtain ⟨n, hcounts, hle⟩ := Stage.counts_run hfuel t.stage hfault
      rw [hrun] at hcounts hle
      rw [← hcounter] at hcounts
      rw [afterRun_eq] at hlimit ⊢
      cases ho : t.followUp o with
      | inl a => exact ⟨n, Nat.le_trans (Nat.le_add_right ..) hle, .done hready hcounts ho⟩
      | inr c =>
        rw [ho] at hlimit
        obtain ⟨hc, hnone, hsettings', hleft⟩ := followUp_inr ht hincoming ho
        have hless := fuel_lt_of_followUp hrun ho hleft
        obtain ⟨n', hle', hrest⟩ := ih c.fuel hless (Nat.le_trans (Nat.le_of_lt hless) hfuel) hc
          (by rw [hsettings']) (.inl hnone) hlimit
        rw [← hleft] at hle
        exact ⟨n + n', Nat.le_trans (Nat.add_le_add_left hle' n) hle,
          .next hready hcounts ho hrest⟩

theorem Counts.unique {n : Nat} (h : Counts inputs counter s outputs n a)
    (h' : Counts inputs counter s outputs n' a') : n = n' ∧ a = a' := by
  induction h generalizing n' a' with
  | blocked hready =>
    cases h' with
    | blocked hready' =>
      cases hready.symm.trans hready'
      exact ⟨rfl, rfl⟩
    | done hready' | next hready' => cases hready.symm.trans hready'
  | done hready hrun ho =>
    cases h' with
    | blocked hready' => cases hready.symm.trans hready'
    | done hready' hrun' ho' =>
      cases hready.symm.trans hready'
      obtain ⟨rfl, rfl⟩ := hrun.unique hrun'
      cases ho.symm.trans ho'
      exact ⟨rfl, rfl⟩
    | next hready' hrun' ho' =>
      cases hready.symm.trans hready'
      obtain ⟨-, rfl⟩ := hrun.unique hrun'
      cases ho.symm.trans ho'
  | next hready hrun ho _ ih =>
    cases h' with
    | blocked hready' => cases hready.symm.trans hready'
    | done hready' hrun' ho' =>
      cases hready.symm.trans hready'
      obtain ⟨-, rfl⟩ := hrun.unique hrun'
      cases ho.symm.trans ho'
    | next hready' hrun' ho' hrest' =>
      cases hready.symm.trans hready'
      obtain ⟨rfl, rfl⟩ := hrun.unique hrun'
      cases ho.symm.trans ho'
      obtain ⟨rfl, rfl⟩ := ih hrest'
      exact ⟨rfl, rfl⟩

theorem Executes.unique {dt : Duration} {n : Nat} (h : s.Executes dt inputs outputs n a)
    (h' : s.Executes dt inputs outputs n' a') : n = n' ∧ a = a' := by
  cases h with
  | refused hruns =>
    cases h' with
    | refused => exact ⟨rfl, rfl⟩
    | run hruns' => exact absurd hruns' hruns
  | run hruns hrun =>
    cases h' with
    | refused hruns' => exact absurd hruns hruns'
    | run _ hrun' =>
      obtain ⟨rfl, rfl⟩ := hrun.unique hrun'
      exact ⟨rfl, rfl⟩

/-- An advance records how it has ended without changing it. -/
theorem Advance.result_settle (a : Advance) : a.settle.result = a.result := by
  unfold Advance.settle
  split <;> rfl

theorem executes_advance (hs : s.Tidy) (dt : Duration)
    (hlimit : s.settings.run.instructionLimit ≠ maxLimit ∨ (s.advance dt inputs outputs).result ≠
      .error (.instructionLimit s.settings.run.instructionLimit.toNat)) :
    ∃ n ≤ s.settings.run.instructionLimit.toNat,
      s.Executes dt inputs outputs n (s.advance dt inputs outputs) := by
  by_cases hruns : s.Runs inputs outputs
  · rw [hruns.advance_eq dt, Advance.result_settle] at hlimit
    obtain ⟨n, hle, hcounts⟩ := counts_proceed (Nat.le_refl _) (hs.later dt) rfl (.inr rfl) hlimit
    rw [counterFor_full] at hcounts
    rw [hruns.advance_eq dt]
    exact ⟨n, hle, .run hruns hcounts⟩
  · exact ⟨0, Nat.zero_le _, .refused hruns⟩

end Stream

/-- Within any settings but the largest limit, every evaluation of a model and every advance of its
stream, after whatever calls, comes to one end, and executes at most as many instructions as the
limit allows until then, over all stages. With the largest limit the same is true of every call that
does not reach it. Calls come one after the other: an extension that is attached while an advance
runs, by another thread, is not covered. -/
theorem budget_of_settings (m : Model) (settings : StreamSettings) :
    let limit := settings.run.instructionLimit
    (∀ e, Evaluator.new m settings.run = .ok e → ∀ seed inputs outputs,
      let a := (e.reseed seed).evaluate inputs outputs
      limit ≠ maxLimit ∨ a.fault? ≠ some (.instructionLimit limit.toNat) →
      ∃ n ≤ limit.toNat, ∀ k b,
        (e.reseed seed).Executes limit inputs outputs k b ↔ k = n ∧ b = a) ∧
    ∀ events dt inputs outputs,
      let s := (Stream.new m settings).after events
      let a := s.advance dt inputs outputs
      limit ≠ maxLimit ∨ a.result ≠ .error (.instructionLimit limit.toNat) →
      ∃ n ≤ limit.toNat, ∀ k b, s.Executes dt inputs outputs k b ↔ k = n ∧ b = a := by
  intro limit
  constructor
  · intro e hnew seed inputs outputs a hlimit
    obtain ⟨-, rfl⟩ := Evaluator.new_ok hnew
    obtain ⟨n, hle, hexecutes⟩ := Evaluator.executes_evaluate rfl hlimit
    refine ⟨n, hle, fun k b => ⟨fun h => h.unique hexecutes, ?_⟩⟩
    rintro ⟨rfl, rfl⟩
    exact hexecutes
  · intro events dt inputs outputs s a hlimit
    have hkept := (Stream.Kept.new m settings).after events
    have hsettings : s.settings.run.instructionLimit = limit :=
      congrArg (·.run.instructionLimit) hkept.settings_eq
    rw [← hsettings] at hlimit
    obtain ⟨n, hle, hexecutes⟩ := Stream.executes_advance hkept.tracked.toTidy dt hlimit
    rw [hsettings] at hle
    refine ⟨n, hle, fun k b => ⟨fun h => h.unique hexecutes, ?_⟩⟩
    rintro ⟨rfl, rfl⟩
    exact hexecutes

/-- Jumps to itself. -/
def spinning : Model where
  id := ⟨1⟩
  version := Model.formatVersion
  flags := {}
  maxStack := 0
  maxCallDepth := 0
  localCount := 0
  entry := 0
  schema := {}
  points := #[]
  constants := #[]
  strings := #[]
  code := #[Word.encode .jump 0]
  extends? := none
  debug? := none

/-- Pauses at a point that times out at once and leads back to itself. -/
def relapsing : Model :=
  { spinning with
    flags := .continuationPoints
    points := #[⟨"again", nameHash "again", 0, 0, 0⟩]
    strings := #["again"]
    code := #[Word.encode .pause 0] }

theorem budget_of_settings_spinning :
    let settings : StreamSettings := { run := { instructionLimit := 5 } }
    let e : Evaluator := ⟨spinning, 5, ⟨0⟩⟩
    let s := Stream.new relapsing settings
    Evaluator.new spinning settings.run = .ok e ∧
      (e.evaluate #[] #[]).fault? = some (.instructionLimit 5) ∧
      (∃ n ≤ 5, ∀ k b, (e.reseed 0).Executes 5 #[] #[] k b ↔
        k = n ∧ b = (e.reseed 0).evaluate #[] #[]) ∧
      (s.advance .zero #[] #[]).result = .error (.instructionLimit 5) ∧
      ∃ n ≤ 5, ∀ k b, s.Executes .zero #[] #[] k b ↔ k = n ∧ b = s.advance .zero #[] #[] := by
  intro settings e s
  have hnew : Evaluator.new spinning settings.run = .ok e := by cbv
  have hlimit : (5 : UInt32) ≠ maxLimit := by decide
  refine ⟨hnew, by decide +kernel, ?_, by decide +kernel, ?_⟩
  · exact (budget_of_settings spinning settings).1 e hnew 0 #[] #[] (.inl hlimit)
  · exact (budget_of_settings relapsing settings).2 [] .zero #[] #[] (.inl hlimit)

/-- The largest limit is never exceeded. -/
theorem countUp?_maxLimit (counter : UInt32) : countUp? maxLimit counter = some (counter + 1) := by
  rw [countUp?, if_pos]
  exact UInt32.le_iff_toNat_le.2 (Nat.le_of_lt_succ (counter + 1).toNat_lt_size)

theorem Machine.ip_ne_zero_of_counted {skipWaits : Bool} {s : Machine} {o : Outcome}
    (h : Counted spinning inputs maxLimit skipWaits counter s n o) : s.ip ≠ 0 := by
  -- from the only instruction a machine goes on to that instruction
  have hword {s : Machine} (hip : s.ip = 0) {word : Word} (hw : spinning.code[s.ip]? = some word)
      (left : Nat) : (s.step spinning inputs word).goesOn skipWaits left =
        .inl { s with ip := 0 } := by
    rw [hip] at hw
    cases hw
    rfl
  induction h with
  | astray hw =>
    intro hip
    rw [hip] at hw
    cases hw
  | exceeded hw hc =>
    rw [countUp?_maxLimit] at hc
    cases hc
  | next hw hc hstep _ ih =>
    intro hip
    rw [hword hip hw] at hstep
    cases hstep
    exact ih rfl
  | stop hw hc hstep =>
    intro hip
    rw [hword hip hw] at hstep
    cases hstep

/-- With the largest limit there are evaluations that do not come to an end. -/
theorem not_executes_spinning :
    let settings : RunSettings := { instructionLimit := maxLimit }
    let e : Evaluator := ⟨spinning, maxLimit.toNat, ⟨0⟩⟩
    spinning.check = .ok () ∧ Evaluator.new spinning settings = .ok e ∧
      ∀ n a, ¬ e.Executes maxLimit #[] #[] n a := by
  intro settings e
  refine ⟨by cbv, by cbv, fun n a h => ?_⟩
  have hsizes : e.model.checkVectors #[] #[] = .ok () := by cbv
  cases h with
  | refused hrefused => cases hsizes.symm.trans hrefused
  | run _ hrun => exact Machine.ip_ne_zero_of_counted hrun rfl

end Behavior
