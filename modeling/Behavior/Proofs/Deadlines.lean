import Behavior.Proofs.StreamStates

/-!
The deadline of a continuation point on two clocks.

A stream compares its clock with the deadline of its point in durations. What it tells those who
attach extensions has sixty-four bits: both the clock and the deadline stop at `Duration.clockEnd`.
The two comparisons agree until the clock is there. From then on every deadline counts as elapsed,
so that a stream that still awaits an extension accepts none.
-/

namespace Behavior

/-- Where a clock of sixty-four bits stops. -/
def Duration.clockEnd : Nat := 0xffffffffffffffff

/-- With sixty-four bits everything has elapsed once the clock has stopped. -/
theorem Duration.clockNanos_le_clockNanos {a b : Duration} :
    a.clockNanos ≤ b.clockNanos ↔ a.nanos ≤ b.nanos ∨ clockEnd ≤ b.nanos := by
  unfold clockNanos clockEnd
  omega

namespace Stream

variable {s : Stream}

/-- At a point a stream waits for nothing else, and has recorded the point's deadline. -/
def Dated (s : Stream) : Prop :=
  ∀ a, s.awaiting? = some a → s.waitUntil? = none ∧
    ∃ p, s.pending? = some p ∧ p.deadline = a.deadline.clockNanos

/-- The deadline of the point that a stream waits at is still to come. -/
def Early (s : Stream) : Prop :=
  ∀ a, s.awaiting? = some a → s.clock.nanos < a.deadline.nanos

/-- A stream that has to wait at its point is before the deadline. -/
theorem Dated.early (hs : s.Dated) {phase : Phase} (h : s.ready = .error phase) :
    s.Early := by
  intro a ha
  obtain ⟨hwait, -⟩ := hs a ha
  simp only [ready_eq, hwait, ha, Option.any_none, Bool.false_eq_true, if_false] at h
  split at h
  · cases h
  next hresolve =>
    by_contra hle
    unfold resolve? at hresolve
    rw [if_neg fun hlt => hle hlt.1] at hresolve
    dsimp only at hresolve
    split at hresolve
    · cases hresolve
    · rw [if_pos (Nat.not_lt.1 hle)] at hresolve
      cases hresolve

theorem Dated.proceed (hs : s.Dated) (fuel : Nat) (inputs outputs : Array Float) :
    (s.proceed fuel inputs outputs).stream.Dated ∧
      (s.proceed fuel inputs outputs).stream.Early := by
  refine proceed_ends (P := Dated) (R := fun t => t.awaiting? = none ∧ t.waitUntil? = none)
    (E := fun _ t => t.Dated ∧ t.Early) ?_ ?_ ?_ ?_ ?_ hs
  · exact fun ht hready => ⟨ht, ht.early hready⟩
  · rintro t u - hready
    rcases ready_ok hready with ⟨hawaiting, rfl⟩ | ⟨_, _, -, -, rfl⟩ | ⟨_, -, -, -, rfl⟩
    · exact ⟨hawaiting, rfl⟩
    · exact ⟨rfl, rfl⟩
    · exact ⟨rfl, rfl⟩
  · rintro t stage ⟨hawaiting, -⟩ - result -
    have hnone (a : Awaiting) : t.awaiting? ≠ some a := by simp [hawaiting]
    exact ⟨fun a ha => (hnone a ha).elim, fun a ha => (hnone a ha).elim⟩
  · rintro t stage stop ⟨hawaiting, -⟩ - a ha
    cases hawaiting.symm.trans ha
  · rintro t stage point p ⟨-, hwait⟩ - - _ ⟨⟩
    exact ⟨hwait, _, rfl, rfl⟩

/-- Between two calls a stream at a point is before its deadline. -/
theorem Dated.step (hs : s.Dated) (hearly : s.Early) (e : Event) :
    (s.step e).Dated ∧ (s.step e).Early := by
  cases e with
  | advance dt inputs outputs =>
    obtain hruns | ⟨result, hadvance⟩ := s.advance_cases dt inputs outputs
    · have hlater : (s.later dt).Dated := hs
      show (s.advance dt inputs outputs).stream.Dated ∧ (s.advance dt inputs outputs).stream.Early
      rw [hruns.advance_eq dt]
      obtain ⟨hdated, hearly⟩ :=
        hlater.proceed s.settings.run.instructionLimit.toNat inputs outputs
      unfold Advance.settle
      split <;> exact ⟨hdated, hearly⟩
    · show (s.advance dt inputs outputs).stream.Dated ∧ (s.advance dt inputs outputs).stream.Early
      rw [hadvance]
      exact ⟨hs, hearly⟩
  | attach m =>
    cases h : s.attach m with
    | error r =>
      rw [step_of_attach_error h]
      exact ⟨hs, hearly⟩
    | ok t =>
      rw [step_of_attach_ok h]
      obtain ⟨_, p, _, _, -, haccept, -, rfl⟩ := attach_ok h
      refine ⟨fun a ha => ?_, hearly⟩
      -- the accepted point keeps its deadline
      obtain ⟨hwait, q, hq, hdeadline⟩ := hs a ha
      cases hq.symm.trans (accept_ok haccept).1
      exact ⟨hwait, _, rfl, hdeadline⟩

theorem Dated.after (hs : s.Dated) (hearly : s.Early) (events : List Event) :
    (s.after events).Dated ∧ (s.after events).Early := by
  induction events generalizing s with
  | nil => exact ⟨hs, hearly⟩
  | cons e rest ih =>
    obtain ⟨hstep, hearly'⟩ := hs.step hearly e
    exact ih hstep hearly'

/-- A failure that a condition does not throw comes after it. -/
theorem error_of_guard {ε α : Type} {c : Prop} [Decidable c] {e r : ε} {k : PUnit → Except ε α}
    (h : (if c then throw e >>= k else k ⟨⟩) = .error r) (hne : e ≠ r) : k ⟨⟩ = .error r := by
  split at h
  · cases h
    exact absurd rfl hne
  · exact h

/-- An extension is refused as too late only if the recorded deadline has passed. -/
theorem deadline_le_of_accept {id : ModelId} {a : Attachment}
    (h : s.accept id a = .error .deadlineElapsed) :
    ∃ p, s.pending? = some p ∧ p.deadline ≤ s.clock.clockNanos := by
  unfold accept at h
  cases hp : s.pending? with
  | none =>
    rw [hp] at h
    cases h
  | some p =>
    rw [hp] at h
    -- only one of the conditions refuses an extension for the time
    replace h := error_of_guard h nofun
    replace h := error_of_guard h nofun
    replace h := error_of_guard h nofun
    by_cases hle : p.deadline ≤ s.clock.clockNanos
    · exact ⟨p, rfl, hle⟩
    · rw [if_neg hle] at h
      replace h := error_of_guard h nofun
      replace h := error_of_guard h nofun
      cases h

theorem deadline_le_of_attach {m : Model} (h : s.attach m = .error .deadlineElapsed) :
    ∃ p, s.pending? = some p ∧ p.deadline ≤ s.clock.clockNanos := by
  unfold attach at h
  split at h
  next a ha =>
    dsimp only at h
    split at h
    · cases haccept : s.accept m.id a with
      | ok p =>
        rw [haccept] at h
        cases h
      | error r =>
        rw [haccept] at h
        cases h
        exact deadline_le_of_accept haccept
    · cases h
  · cases h

/-- A stream that awaits an extension is before the deadline on its own clock, after whatever calls.
The comparison on the clock of sixty-four bits agrees with that just until this clock stops: from
then on it finds every deadline elapsed, so that no extension is accepted, and before that none is
refused as too late. -/
theorem deadlines_of_history (root : Model) (settings : StreamSettings) (events : List Event) :
    let s := (new root settings).after events
    (s.phase = .awaitingExtension ↔ s.awaiting?.isSome) ∧
    ∀ a, s.awaiting? = some a → ∃ p, s.pending? = some p ∧
      ¬ a.deadline.nanos ≤ s.clock.nanos ∧
      ((p.deadline ≤ s.clock.clockNanos ↔ a.deadline.nanos ≤ s.clock.nanos) ↔
        s.clock.nanos < Duration.clockEnd) ∧
      (s.clock.nanos < Duration.clockEnd → ∀ m, s.attach m ≠ .error .deadlineElapsed) ∧
      (Duration.clockEnd ≤ s.clock.nanos → ∀ m t, s.attach m ≠ .ok t) := by
  intro s
  obtain ⟨hdated, hearly⟩ : s.Dated ∧ s.Early :=
    Dated.after (s := new root settings) nofun nofun events
  refine ⟨((Kept.new root settings).after events).phase, fun a ha => ?_⟩
  obtain ⟨-, p, hp, hdeadline⟩ := hdated a ha
  have hlt := hearly a ha
  have hpassed : p.deadline ≤ s.clock.clockNanos ↔ Duration.clockEnd ≤ s.clock.nanos := by
    rw [hdeadline, Duration.clockNanos_le_clockNanos, or_iff_right (Nat.not_le.2 hlt)]
  refine ⟨p, hp, Nat.not_le.2 hlt, ?_, fun hclock m h => ?_, fun hclock m t h => ?_⟩
  · rw [hpassed, iff_false_right (Nat.not_le.2 hlt), Nat.not_le]
  · obtain ⟨q, hq, hle⟩ := deadline_le_of_attach h
    cases hp.symm.trans hq
    exact Nat.not_le.2 hclock (hpassed.1 hle)
  · obtain ⟨_, q, _, _, -, haccept, -, -⟩ := attach_ok h
    obtain ⟨hq, -, -, -, hbefore, -⟩ := accept_ok haccept
    cases hp.symm.trans hq
    exact Nat.not_le.2 hbefore (hpassed.2 hclock)

theorem deadlines_of_history_pausing :
    let s := (new pausing {}).after [.advance .zero #[1.5] #[0.0]]
    s.awaiting?.isSome ∧ s.clock.nanos < Duration.clockEnd ∧
      s.attach relaying ≠ .error .deadlineElapsed := by
  intro s
  have hawaiting : s.awaiting?.isSome := by decide +kernel
  have hclock : s.clock.nanos < Duration.clockEnd := by decide +kernel
  obtain ⟨a, ha⟩ := Option.isSome_iff_exists.1 hawaiting
  obtain ⟨p, -, -, -, hattach, -⟩ := (deadlines_of_history pausing {} _).2 a ha
  exact ⟨hawaiting, hclock, hattach hclock relaying⟩

/-- The clock of sixty-four bits has stopped while a stream awaits an extension: it is refused as
too late, ten milliseconds before the deadline. -/
theorem deadlineElapsed_pausing :
    let s := (new pausing {}).after [.advance ⟨Duration.clockEnd⟩ #[1.5] #[0.0]]
    s.phase = .awaitingExtension ∧
      s.awaiting?.map (·.deadline) = some (s.clock.add (.ofMillis 10)) ∧
      s.clock.add (.ofMillis 10) = ⟨s.clock.nanos + 10000000⟩ ∧
      (s.attach relaying).map (fun _ => ()) = .error .deadlineElapsed := by
  decide +kernel

end Stream

end Behavior
