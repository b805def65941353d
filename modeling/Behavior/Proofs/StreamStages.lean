import Behavior.Proofs.StreamStates

/-!
The stages that a stream goes through.

The stages of a stream change in two places only: where an extension is accepted, and where one that
has been accepted takes over. All else moves the frame of the current stage at most. So what these
two keep is true after whatever calls, and at every turn of an advance.
-/

namespace Behavior

namespace Stream

/-! ## Turns of an advance -/

theorem Advance.outputs_settle (a : Advance) : a.settle.outputs = a.outputs := by
  unfold Advance.settle
  split <;> rfl

/-- An advance comes to a turn. -/
structure ComesTo (s : Stream) (dt : Duration) (inputs outputs : Array Float) (c : Turn) : Prop
    extends s.Runs inputs outputs where
  turns : Relation.ReflTransGen (Turn.Next inputs) (s.enter dt outputs) c

/-! ## Where stages change -/

/-- Streams with the same stages, but for the frame of the current one. -/
structure SameStages (s t : Stream) : Prop where
  root : t.root = s.root
  stage : ∃ frame, t.stage = { s.stage with frame }
  incoming : t.incoming? = s.incoming?
  strings : t.strings = s.strings
  lineage : t.lineage = s.lineage

section

variable {s t : Stream} {inputs : Array Float} {c d : Turn}

/-- On the way to run, an extension takes over or the stages stay as they are. -/
theorem ready_cases (h : s.ready = .ok t) :
    SameStages s t ∨
      ∃ stage, s.incoming? = some stage ∧ SameStages { s with stage, incoming? := none } t := by
  rcases ready_ok h with ⟨-, rfl⟩ | ⟨_, stage, -, hincoming, rfl⟩ | ⟨_, -, -, -, rfl⟩
  · exact .inl ⟨rfl, ⟨_, rfl⟩, rfl, rfl, rfl⟩
  · exact .inr ⟨stage, hincoming, rfl, ⟨_, rfl⟩, rfl, rfl, rfl⟩
  · exact .inl ⟨rfl, ⟨_, rfl⟩, rfl, rfl, rfl⟩

theorem exists_ready_of_any {p : Stream → Bool} (h : s.ready.toOption.any p = true) :
    ∃ t, s.ready = .ok t ∧ p t = true := by
  cases hready : s.ready with
  | error phase =>
    rw [hready] at h
    cases h
  | ok t =>
    rw [hready] at h
    exact ⟨t, rfl, h⟩

theorem SameStages.settle (a : Advance) : SameStages a.stream a.settle.stream := by
  unfold Advance.settle
  split <;> exact ⟨rfl, ⟨_, rfl⟩, rfl, rfl, rfl⟩

namespace Turn

theorem Next.exists_run (h : c.Next inputs d) : ∃ t, c.stream.ready = .ok t ∧
    SameStages t d.stream ∧ d.outputs =
      (t.stage.run t.settings.run.instructionLimit.toNat c.fuel inputs c.outputs).outputs := by
  rcases h with ⟨p, hready, hrun, -⟩ | ⟨hready, hrun⟩
  · exact ⟨_, hready, ⟨rfl, Stage.stage_run hrun, rfl, rfl, rfl⟩, by rw [hrun]; rfl⟩
  · exact ⟨_, hready, ⟨rfl, Stage.stage_run hrun, rfl, rfl, rfl⟩, by rw [hrun]; rfl⟩

theorem Next.proceed_eq (h : c.Next inputs d) : c.proceed inputs = d.proceed inputs := by
  rcases h with ⟨p, hready, hrun, hp⟩ | ⟨hready, hrun⟩
  · rw [proceed, proceed_of_ok hready, hrun, afterRun_pause hp]
    rfl
  · rw [proceed, proceed_of_ok hready, hrun]
    rfl

theorem not_next_of_halt (hready : c.stream.ready = .ok t) {stage : Stage} {outputs : Array Float}
    {rest : Nat}
    (hrun : t.stage.run t.settings.run.instructionLimit.toNat c.fuel inputs c.outputs =
      .stopped .halt stage outputs rest) (d : Turn) : ¬ c.Next inputs d := by
  rintro (⟨p, hready', hrun', -⟩ | ⟨hready', hrun'⟩)
  · cases hready.symm.trans hready'
    cases hrun.symm.trans hrun'
  · cases hready.symm.trans hready'
    cases hrun.symm.trans hrun'

/-- What every stage that runs does to the outputs, all of them together do. -/
theorem outputs_proceed {R : Array Float → Array Float → Prop} (hrefl : ∀ o, R o o)
    (htrans : ∀ {a b c}, R a b → R b c → R a c)
    (hrun : ∀ d t, Relation.ReflTransGen (Next inputs) c d → d.stream.ready = .ok t → R d.outputs
      (t.stage.run t.settings.run.instructionLimit.toNat d.fuel inputs d.outputs).outputs) :
    R c.outputs (c.proceed inputs).outputs := by
  refine proceed_induction (motive := fun c a => (∀ d t, Relation.ReflTransGen (Next inputs) c d →
    d.stream.ready = .ok t → R d.outputs (t.stage.run t.settings.run.instructionLimit.toNat d.fuel
      inputs d.outputs).outputs) → R c.outputs a.outputs) ?_ ?_ ?_ c hrun
  · exact fun _ _ => hrefl _
  · rintro c t _ result hready rfl _ hrun
    exact hrun c t .refl hready
  · intro c d hnext ih hrun
    obtain ⟨t, hready, -, houtputs⟩ := hnext.exists_run
    exact htrans (houtputs ▸ hrun c t .refl hready) (ih fun e t he => hrun e t (.head hnext he))

theorem proceed_eq_of_turns (h : Relation.ReflTransGen (Next inputs) c d) :
    d.proceed inputs = c.proceed inputs := by
  induction h with
  | refl => rfl
  | tail _ hnext ih => exact hnext.proceed_eq.symm.trans ih

end Turn

end

/-! ## What stays true of the stages -/

/-- A property of the stages that stays true, if only such extensions are accepted. -/
structure Invariant (good : Model → Prop) (P : Stream → Prop) : Prop where
  same : ∀ {s t}, P s → SameStages s t → P t
  takeOver : ∀ {s stage}, P s → s.incoming? = some stage → P { s with stage, incoming? := none }
  attach : ∀ {s t m}, P s → good m → s.attach m = .ok t → P t

namespace Invariant

variable {good : Model → Prop} {P : Stream → Prop} {s t : Stream} {inputs : Array Float}
  {c d : Turn}

theorem ready (hP : Invariant good P) (hs : P s) (h : s.ready = .ok t) : P t := by
  obtain hsame | ⟨stage, hincoming, hsame⟩ := ready_cases h
  · exact hP.same hs hsame
  · exact hP.same (hP.takeOver hs hincoming) hsame

theorem next (hP : Invariant good P) (hc : P c.stream) (h : c.Next inputs d) : P d.stream := by
  obtain ⟨t, hready, hsame, -⟩ := h.exists_run
  exact hP.same (hP.ready hc hready) hsame

theorem turns (hP : Invariant good P) (hc : P c.stream)
    (h : Relation.ReflTransGen (Turn.Next inputs) c d) : P d.stream := by
  induction h with
  | refl => exact hc
  | tail _ hnext ih => exact hP.next ih hnext

/-- A stage that has run is the same but for its frame. -/
theorem run (hP : Invariant good P) (hs : P s) {limit fuel : Nat} {outputs : Array Float}
    {o : Stage.Outcome} (h : s.stage.run limit fuel inputs outputs = o) :
    P { s with stage := o.stage } :=
  hP.same hs ⟨rfl, Stage.stage_run h, rfl, rfl, rfl⟩

theorem proceed (hP : Invariant good P) (hc : P c.stream) : P (c.proceed inputs).stream := by
  refine Turn.proceed_induction (motive := fun c a => P c.stream → P a.stream)
    (fun _ hc => hc) ?_ ?_ c hc
  · intro c t o result hready hrun _ hc
    exact hP.run (hP.ready hc hready) hrun
  · intro c d hnext ih hc
    exact ih (hP.next hc hnext)

/-- It is enough that it is true of the stream once it can run. -/
theorem proceed_of_ready (hP : Invariant good P) (hready : c.stream.ready = .ok t) (ht : P t) :
    P (c.proceed inputs).stream := by
  refine Turn.proceed_induction (motive := fun c a => c.stream.ready = .ok t → P a.stream)
    ?_ ?_ ?_ c hready
  · intro c phase hblocked hready
    cases hblocked.symm.trans hready
  · intro c t' o result hready' hrun _ hready
    cases hready'.symm.trans hready
    exact hP.run ht hrun
  · intro c d hnext _ hready
    obtain ⟨t', hready', hsame, -⟩ := hnext.exists_run
    cases hready'.symm.trans hready
    exact hP.proceed (hP.same ht hsame)

theorem enter (hP : Invariant good P) (hs : P s) (dt : Duration) (outputs : Array Float) :
    P (s.enter dt outputs).stream :=
  hP.same hs ⟨rfl, ⟨_, rfl⟩, rfl, rfl, rfl⟩

theorem step (hP : Invariant good P) (hs : P s) {e : Event}
    (he : ∀ m, s.accepted? e = some m → good m) : P (s.step e) := by
  cases e with
  | advance dt inputs outputs =>
    show P (s.advance dt inputs outputs).stream
    obtain hruns | ⟨result, hadvance⟩ := s.advance_cases dt inputs outputs
    · rw [hruns.advance_eq dt]
      exact hP.same (hP.proceed (hP.enter hs dt outputs)) (.settle _)
    · rw [hadvance]
      exact hs
  | attach m =>
    cases h : s.attach m with
    | error r => rwa [step_of_attach_error h]
    | ok t =>
      rw [step_of_attach_ok h]
      exact hP.attach hs (he m (by rw [accepted?, h])) h

theorem after (hP : Invariant good P) (hs : P s) {events : List Event}
    (hevents : ∀ m ∈ s.accepted events, good m) : P (s.after events) := by
  induction events generalizing s with
  | nil => exact hs
  | cons e rest ih =>
    rw [accepted] at hevents
    refine ih (hP.step hs fun m hm => ?_) fun m hm => hevents m (List.mem_append_right _ hm)
    exact hevents m (List.mem_append_left _ (Option.mem_toList.2 hm))

end Invariant

end Stream

/-! ## Joined stages -/

/-- A slot of the stage leads to a slot of the stream. -/
def Stage.LeadsTo (stage : Stage) (own slot : Nat) : Prop :=
  match stage.bridge? with
  | some b => b.outputs[own]? = some slot
  | none => own = slot

/-- A stage as a stream has it: the first model, or an extension that has been joined to it. -/
def Stage.Joined (root : Model) (good : Model → Prop) (stage : Stage) : Prop :=
  ∀ b, stage.bridge? = some b → good stage.model ∧
    ∃ table, b.Joins root.schema table stage.model stage.strings

namespace Stream

/-- The stages of a stream are its first model and extensions joined to it. -/
structure Joined (root : Model) (good : Model → Prop) (s : Stream) : Prop where
  root_eq : s.root = root
  stage : s.stage.Joined root good
  incoming : ∀ stage, s.incoming? = some stage → stage.Joined root good

theorem Joined.new (m : Model) (settings : StreamSettings) (good : Model → Prop) :
    (new m settings).Joined m good :=
  ⟨rfl, nofun, nofun⟩

theorem Joined.imp {root : Model} {good good' : Model → Prop} {s : Stream} (hs : s.Joined root good)
    (h : ∀ m, good m → good' m) : s.Joined root good' where
  root_eq := hs.root_eq
  stage b hb := (hs.stage b hb).imp_left (h _)
  incoming stage hstage b hb := (hs.incoming stage hstage b hb).imp_left (h _)

theorem Joined.invariant (root : Model) (good : Model → Prop) :
    Invariant good (Joined root good) where
  same := by
    rintro s t hs ⟨hroot, ⟨frame, hstage⟩, hincoming, -, -⟩
    exact ⟨hroot.trans hs.root_eq, by rw [hstage]; exact hs.stage, hincoming ▸ hs.incoming⟩
  takeOver hs hincoming := ⟨hs.root_eq, hs.incoming _ hincoming, nofun⟩
  attach := by
    intro s t m hs hm h
    obtain ⟨a, p, strings, bridge, -, -, hjoins, rfl⟩ := attach_ok h
    refine ⟨hs.root_eq, hs.stage, ?_⟩
    rintro stage ⟨⟩ b ⟨⟩
    exact ⟨hm, s.strings, hs.root_eq ▸ hjoins⟩

end Stream

end Behavior
