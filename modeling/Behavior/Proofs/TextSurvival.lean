import Behavior.Proofs.StreamStages
import Behavior.Proofs.StringMaps

/-!
What becomes of values that an extension does not touch.

An extension runs in vectors of its own. Texts are recoded on the way in and out, in every slot,
whether the extension uses it or not. Here a value is followed through the runs of an advance: if
nothing stores to the slots that lead to it, it is still there when the advance ends, unless it was
a whole number below zero, which the recoding takes for one of its own.
-/

namespace Behavior

/-! ## Stores -/

/-- The machine after an instruction. -/
def Reaction.machine : Reaction → Machine
  | .next s => s
  | .stop _ s => s
  | .fault _ s => s

namespace Machine

/-- The machine that a run leaves behind. -/
def Outcome.machine : Outcome → Machine
  | .stopped _ s _ => s
  | .faulted _ s => s

/-- The slot that an instruction stores to, if it does. -/
def stored (word : Word) : List Nat :=
  if Word.opcode? word = some .storeOutput then [Word.operand word] else []

/-- The output slots that a run stores to, in order. -/
def stores (m : Model) (inputs : Array Float) : (fuel : Nat) → Machine → List Nat
  | 0, _ => []
  | fuel + 1, s =>
    match m.code[s.ip]? with
    | none => []
    | some word =>
      match s.step m inputs word with
      | .next t => stored word ++ t.stores m inputs fuel
      | _ => []

section

variable {m : Model} {inputs : Array Float} {s : Machine}

theorem outputs_push (value : Float) : (push m s value).machine.outputs = s.outputs := by
  unfold push
  split <;> rfl

theorem outputs_load (vector : Array Float) (index : Nat) :
    (load m s vector index).machine.outputs = s.outputs := by
  unfold load
  split
  · exact outputs_push _
  · rfl

theorem outputs_pop {k : Float → Machine → Reaction}
    (h : ∀ value rest, (k value { s with stack := rest }).machine.outputs = s.outputs) :
    (s.pop k).machine.outputs = s.outputs := by
  unfold pop
  split
  · exact h _ _
  · rfl

/-- Only a store changes the outputs, and only in its slot. -/
theorem outputs_execute (op : Opcode) (operand : Nat) :
    (op = .storeOutput ∧ ∃ value t, s.execute m inputs op operand = .next t ∧
        t.outputs = s.outputs.setIfInBounds operand value) ∨
      (s.execute m inputs op operand).machine.outputs = s.outputs := by
  unfold execute
  cases op with
  | storeOutput =>
    dsimp only [pop]
    split
    · split
      · exact .inl ⟨rfl, _, _, rfl, rfl⟩
      · exact .inr rfl
    · exact .inr rfl
  | pushConst | dup =>
    dsimp only
    split
    · exact .inr (outputs_push _)
    · exact .inr rfl
  | pop | wait => exact .inr (outputs_pop fun _ _ => rfl)
  | swap | call | ret => dsimp only; split <;> exact .inr rfl
  | loadInput | loadLocal => exact .inr (outputs_load _ _)
  | storeLocal | jumpIfFalse | jumpIfTrue =>
    exact .inr (outputs_pop fun _ _ => by dsimp only; split <;> rfl)
  | unary f => exact .inr (outputs_pop fun _ _ => outputs_push _)
  | binary f => exact .inr (outputs_pop fun _ _ => outputs_pop fun _ _ => outputs_push _)
  | ternary f =>
    exact .inr (outputs_pop fun _ _ => outputs_pop fun _ _ => outputs_pop fun _ _ => outputs_push _)
  | jump | halt | pause | nop => exact .inr rfl
  | random => exact .inr (outputs_push _)

theorem outputs_step (word : Word) :
    (∃ k value t, k ∈ stored word ∧ s.step m inputs word = .next t ∧
        t.outputs = s.outputs.setIfInBounds k value) ∨
      (s.step m inputs word).machine.outputs = s.outputs := by
  unfold step
  cases hop : Word.opcode? word with
  | none => exact .inr rfl
  | some op =>
    obtain ⟨rfl, value, t, hnext, houtputs⟩ | hsame := outputs_execute op (Word.operand word)
    · refine .inl ⟨Word.operand word, value, t, ?_, hnext, houtputs⟩
      rw [stored, if_pos hop]
      exact List.mem_singleton_self _
    · exact .inr hsame

/-- What holds of the outputs still holds after a run if no store of the run changes it. -/
theorem outputs_run {P : Array Float → Prop} (limit : Nat) {fuel : Nat} (hs : P s.outputs)
    (hstore : ∀ k ∈ s.stores m inputs fuel, ∀ outputs value, P outputs →
      P (outputs.setIfInBounds k value)) :
    P (run m inputs limit false fuel s).machine.outputs := by
  induction fuel generalizing s with
  | zero =>
    unfold run
    split <;> exact hs
  | succ fuel ih =>
    unfold run
    unfold stores at hstore
    cases hword : m.code[s.ip]? with
    | none => exact hs
    | some word =>
      rw [hword] at hstore
      dsimp only at hstore ⊢
      have hstep : P (s.step m inputs word).machine.outputs := by
        obtain ⟨k, value, t, hk, hnext, houtputs⟩ | hsame := outputs_step (s := s) word
        · rw [hnext] at hstore ⊢
          show P t.outputs
          rw [houtputs]
          exact hstore k (List.mem_append_left _ hk) _ value hs
        · rwa [hsame]
      cases hreaction : s.step m inputs word with
      | next t =>
        rw [hreaction] at hstore hstep
        exact ih hstep fun k hk => hstore k (List.mem_append_right _ hk)
      | stop signal t =>
        rw [hreaction] at hstep
        cases signal <;> exact hstep
      | fault f t =>
        rw [hreaction] at hstep
        exact hstep

/-- A run leaves the slots alone that it does not store to. -/
theorem getElem?_outputs_run {k : Nat} (limit : Nat) {fuel : Nat}
    (h : k ∉ s.stores m inputs fuel) :
    (run m inputs limit false fuel s).machine.outputs[k]? = s.outputs[k]? := by
  refine outputs_run (P := fun outputs => outputs[k]? = s.outputs[k]?) limit rfl ?_
  intro j hj outputs value houtputs
  have hne : j ≠ k := fun heq => h (heq ▸ hj)
  rw [Array.getElem?_setIfInBounds_ne hne, houtputs]

theorem size_outputs_run (limit fuel : Nat) :
    (run m inputs limit false fuel s).machine.outputs.size = s.outputs.size := by
  refine outputs_run (P := fun outputs => outputs.size = s.outputs.size) limit rfl ?_
  intro k _ outputs value houtputs
  rw [Array.size_setIfInBounds, houtputs]

end

end Machine

/-- A value of a slot is still there afterwards, unless it was a whole number below zero. -/
def Survives (slot : Nat) (before after : Array Float) : Prop :=
  ∀ v, before[slot]? = some v → ¬ Binary64.IsNegativeWhole v →
    ∃ w, after[slot]? = some w ∧ Binary64.Alike w v

theorem Survives.refl (slot : Nat) (values : Array Float) : Survives slot values values :=
  fun v hv _ => ⟨v, hv, .refl v⟩

theorem Survives.trans {slot : Nat} {a b c : Array Float} (h : Survives slot a b)
    (h' : Survives slot b c) : Survives slot a c := by
  intro v hslot hv
  obtain ⟨w, hw, halike⟩ := h v hslot hv
  obtain ⟨x, hx, halike'⟩ := h' w hw fun hneg => hv (halike.isNegativeWhole hneg)
  exact ⟨x, hx, halike'.trans halike⟩

/-- No two texts of a model share a slot, and its strings can be numbered. -/
structure Model.TextsApart (m : Model) : Prop where
  inputs : m.schema.textInputs.Nodup
  outputs : m.schema.textOutputs.Nodup
  strings : m.strings.size < StringMap.indexBound

/-! ## One stage -/

namespace Stage

/-- The machine of a stage, before it runs. -/
def start (stage : Stage) (inputs outputs : Array Float) : Machine :=
  { toFrame := stage.frame, outputs := (stage.enter inputs outputs).2 }

/-- The machine of a stage, after it has run. -/
def final (stage : Stage) (limit fuel : Nat) (inputs outputs : Array Float) : Machine :=
  (Machine.run stage.model (stage.enter inputs outputs).1 limit false fuel
    (stage.start inputs outputs)).machine

/-- The slots of its own that a stage stores to. -/
def stores (stage : Stage) (fuel : Nat) (inputs outputs : Array Float) : List Nat :=
  (stage.start inputs outputs).stores stage.model (stage.enter inputs outputs).1 fuel

theorem outputs_run (stage : Stage) (limit fuel : Nat) (inputs outputs : Array Float) :
    (stage.run limit fuel inputs outputs).outputs =
      stage.write outputs (stage.final limit fuel inputs outputs).outputs := by
  rw [run_eq, final, start]
  generalize Machine.run _ _ _ _ _ _ = o
  cases o <;> rfl

/-- The stream's outputs stay as many as they are. -/
theorem size_outputs_run (stage : Stage) (limit fuel : Nat) (inputs outputs : Array Float) :
    (stage.run limit fuel inputs outputs).outputs.size = outputs.size := by
  rw [outputs_run]
  cases hb : stage.bridge? with
  | none =>
    simp only [write, final, start, enter, hb]
    exact Machine.size_outputs_run limit fuel
  | some b =>
    simp only [write, hb]
    exact b.size_writeOutputs _ _

section

variable {stage : Stage} {root : Model} {limit fuel : Nat} {inputs outputs : Array Float}
  {v : Float}

/-- Slots of texts are recoded both ways, all others neither way. -/
theorem alike_recoded {b : Bridge} {table : Array String}
    (hjoins : b.Joins root.schema table stage.model stage.strings) (htexts : stage.model.TextsApart)
    (hv : ¬ Binary64.IsNegativeWhole v) {n : Nat} (hn : n ≤ 1) :
    Binary64.Alike (b.strings.leave^[n] (b.strings.enter^[n] v)) v := by
  obtain ⟨hmatches, -⟩ := StringMap.Matches.of_build hjoins.strings
  rcases Nat.le_one_iff_eq_zero_or_eq_one.1 hn with rfl | rfl
  · exact .refl v
  · exact (hmatches.alike_leave_enter htexts.strings v).2 hv

/-- A slot that nothing stores to keeps its value. -/
theorem survives_of_spares (hstage : stage.Joined root Model.TextsApart) {slot : Nat}
    (hspares : ∀ own, stage.LeadsTo own slot → own ∉ stage.stores fuel inputs outputs) :
    Survives slot outputs (stage.run limit fuel inputs outputs).outputs := by
  intro v hslot hv
  have hkept (own : Nat) (hown : stage.LeadsTo own slot) :
      (stage.final limit fuel inputs outputs).outputs[own]? =
        (stage.enter inputs outputs).2[own]? :=
    Machine.getElem?_outputs_run limit (hspares own hown)
  rw [outputs_run]
  cases hb : stage.bridge? with
  | none =>
    simp only [LeadsTo, enter, write, hb] at hkept ⊢
    exact ⟨v, (hkept slot rfl).trans hslot, .refl v⟩
  | some b =>
    obtain ⟨htexts, table, hjoins⟩ := hstage b hb
    simp only [LeadsTo, enter, write, hb] at hkept ⊢
    obtain ⟨k, value, hk, hvalue, hafter⟩ | ⟨-, hafter⟩ := b.writeOutputs_cases
      (stage.final limit fuel inputs outputs).outputs (Array.getElem?_eq_some_iff.1 hslot).1
    · refine ⟨_, hafter, ?_⟩
      have hread := hkept k hk
      rw [hvalue, b.getElem?_readOutputs, hk, Option.map_some, Array.getD_eq_getD_getElem?, hslot,
        Option.getD_some] at hread
      rw [Option.some.inj hread]
      refine alike_recoded hjoins htexts hv (List.nodup_iff_count_le_one.1 ?_ k)
      rw [(Bridge.build_ok hjoins.built).2.2.2]
      exact htexts.outputs
    · exact ⟨v, hafter.trans hslot, .refl v⟩

/-- The machine of an extension ends with the text of an input in the only slot that leads to some
output. -/
structure Copies (stage : Stage) (limit fuel : Nat) (inputs outputs : Array Float)
    (source target : Nat) : Prop where
  exists_slots : ∃ b ownSource ownTarget, stage.bridge? = some b ∧
    ownSource ∈ stage.model.schema.textInputs ∧ b.inputs[ownSource]? = some source ∧
    ownTarget ∈ stage.model.schema.textOutputs ∧ b.outputs[ownTarget]? = some target ∧
    (∀ k : Nat, b.outputs[k]? = some target → k = ownTarget) ∧
    (stage.final limit fuel inputs outputs).outputs[ownTarget]? =
      (stage.enter inputs outputs).1[ownSource]?

theorem alike_of_copies (hstage : stage.Joined root Model.TextsApart) {source target : Nat}
    (hsource : inputs[source]? = some v) (hv : ¬ Binary64.IsNegativeWhole v)
    (htarget : target < outputs.size)
    (hcopies : stage.Copies limit fuel inputs outputs source target) :
    ∃ w, (stage.run limit fuel inputs outputs).outputs[target]? = some w ∧ Binary64.Alike w v := by
  obtain ⟨b, ownSource, ownTarget, hb, hsourceText, hin, htargetText, hout, hsole, hcopied⟩ :=
    hcopies.exists_slots
  obtain ⟨htexts, table, hjoins⟩ := hstage b hb
  obtain ⟨-, -, hinputs, houtputs⟩ := Bridge.build_ok hjoins.built
  rw [outputs_run]
  simp only [enter, write, hb] at hcopied ⊢
  rw [b.getElem?_readInputs, hin, Option.map_some, Array.getD_eq_getD_getElem?, hsource,
    Option.getD_some, hinputs, List.count_eq_one_of_mem htexts.inputs hsourceText] at hcopied
  obtain ⟨k, value, hk, hvalue, hafter⟩ | ⟨hnone, -⟩ := b.writeOutputs_cases
    (stage.final limit fuel inputs outputs).outputs htarget
  · obtain rfl := hsole k hk
    refine ⟨_, hafter, ?_⟩
    rw [houtputs, List.count_eq_one_of_mem htexts.outputs htargetText,
      Option.some.inj (hvalue.symm.trans hcopied)]
    exact alike_recoded hjoins htexts hv (Nat.le_refl 1)
  · cases (hnone ownTarget hout).symm.trans hcopied

end

end Stage

namespace Stream

/-! ## Turns -/

namespace Turn

/-- The stage that runs next does not store to any slot that leads to this one. -/
def Spares (inputs : Array Float) (slot : Nat) (c : Turn) : Prop :=
  ∀ t, c.stream.ready = .ok t → ∀ own, t.stage.LeadsTo own slot →
    own ∉ t.stage.stores c.fuel inputs c.outputs

/-- The stage that runs next copies the text of an input to an output. -/
def Copies (inputs : Array Float) (source target : Nat) (c : Turn) : Prop :=
  ∃ t, c.stream.ready = .ok t ∧
    t.stage.Copies t.settings.run.instructionLimit.toNat c.fuel inputs c.outputs source target

section

variable {root : Model} {inputs : Array Float} {c d : Turn} {slot : Nat}

/-- A value stays where it is while nothing stores to it. -/
theorem survives_proceed (hc : c.stream.Joined root Model.TextsApart)
    (hspares : ∀ d, Relation.ReflTransGen (Next inputs) c d → d.Spares inputs slot) :
    Survives slot c.outputs (c.proceed inputs).outputs := by
  have hjoined := Joined.invariant root Model.TextsApart
  refine outputs_proceed (Survives.refl slot) Survives.trans fun d t hd hready => ?_
  exact Stage.survives_of_spares (hjoined.ready (hjoined.turns hc hd) hready).stage
    (hspares d hd t hready)

/-- What a stage has left in a slot stays there while nothing else is stored there. -/
theorem survives_of_run {t : Stream} (hc : c.stream.Joined root Model.TextsApart)
    (hready : c.stream.ready = .ok t)
    (hspares : ∀ d, Relation.TransGen (Next inputs) c d → d.Spares inputs slot) :
    Survives slot
      (t.stage.run t.settings.run.instructionLimit.toNat c.fuel inputs c.outputs).outputs
      (c.proceed inputs).outputs := by
  let motive (c : Turn) (a : Advance) : Prop :=
    c.stream.Joined root Model.TextsApart → c.stream.ready = .ok t →
      (∀ d, Relation.TransGen (Next inputs) c d → d.Spares inputs slot) →
      Survives slot (t.stage.run t.settings.run.instructionLimit.toNat c.fuel inputs
        c.outputs).outputs a.outputs
  refine proceed_induction (motive := motive) ?_ ?_ ?_ c hc hready hspares
  · intro c phase hblocked _ hready _
    cases hblocked.symm.trans hready
  · rintro c t' _ result hready' rfl _ _ hready _
    cases hready'.symm.trans hready
    exact .refl _ _
  · intro c d hnext _ hc hready hspares
    obtain ⟨t', hready', -, houtputs⟩ := hnext.exists_run
    cases hready'.symm.trans hready
    rw [← houtputs]
    exact survives_proceed ((Joined.invariant root Model.TextsApart).next hc hnext)
      fun e he => hspares e (.head' hnext he)

theorem size_outputs_of_turns (h : Relation.ReflTransGen (Next inputs) c d) :
    d.outputs.size = c.outputs.size := by
  induction h with
  | refl => rfl
  | tail _ hnext ih =>
    obtain ⟨t, -, -, houtputs⟩ := hnext.exists_run
    rw [houtputs, Stage.size_outputs_run, ih]

end

end Turn

section

variable {root : Model} {s t : Stream} {dt : Duration} {inputs outputs : Array Float} {c : Turn}

/-- The slots that an extension leads to are there. -/
theorem ComesTo.lt_size {good : Model → Prop} (hc : s.ComesTo dt inputs outputs c)
    (hs : s.Joined root good) (hready : c.stream.ready = .ok t) {b : Bridge}
    (hb : t.stage.bridge? = some b) {own slot : Nat} (hown : b.outputs[own]? = some slot) :
    slot < c.outputs.size := by
  have hjoined := Joined.invariant root good
  have ht := hjoined.ready (hjoined.turns (hjoined.enter hs dt outputs) hc.turns) hready
  obtain ⟨-, table, hjoins⟩ := ht.stage b hb
  have hlt := (Bridge.Fits.of_build hjoins.built).outputs_lt _ (Array.mem_of_getElem? hown)
  rw [Turn.size_outputs_of_turns hc.turns]
  exact lt_of_lt_of_eq hlt (hs.root_eq ▸ hc.outputs_size.symm)

theorem ComesTo.survives_of_run (hc : s.ComesTo dt inputs outputs c)
    (hs : s.Joined root Model.TextsApart) (hready : c.stream.ready = .ok t) {slot : Nat}
    (hspares : ∀ d, Relation.TransGen (Turn.Next inputs) c d → d.Spares inputs slot) :
    Survives slot
      (t.stage.run t.settings.run.instructionLimit.toNat c.fuel inputs c.outputs).outputs
      (s.advance dt inputs outputs).outputs := by
  have hjoined := Joined.invariant root Model.TextsApart
  rw [hc.toRuns.advance_eq dt, Advance.outputs_settle, ← Turn.proceed_eq_of_turns hc.turns]
  exact Turn.survives_of_run (hjoined.turns (hjoined.enter hs dt outputs) hc.turns) hready hspares

end

/-- Whatever calls a stream has seen, a value that is not a whole number below zero survives an
advance in every slot that nothing stores to, whether it is a text or not, and the text of an input
that is copied to an output is there after the advance. What is recoded on the way into an extension
and on the way out of it comes back just if it is no whole number below zero. -/
theorem texts_survive {root : Model} {settings : StreamSettings} {events : List Event}
    (hevents : ∀ m ∈ (new root settings).accepted events, m.TextsApart) (dt : Duration)
    (inputs outputs : Array Float) :
    let s := (new root settings).after events
    let after := (s.advance dt inputs outputs).outputs
    (∀ (slot : Nat) (v : Float), outputs[slot]? = some v → ¬ Binary64.IsNegativeWhole v →
      (∀ c, s.ComesTo dt inputs outputs c → c.Spares inputs slot) →
      ∃ w, after[slot]? = some w ∧ Binary64.Alike w v) ∧
    (∀ (c : Turn) (source target : Nat) (v : Float), s.ComesTo dt inputs outputs c →
      inputs[source]? = some v → ¬ Binary64.IsNegativeWhole v → c.Copies inputs source target →
      (∀ d, Relation.TransGen (Turn.Next inputs) c d → d.Spares inputs target) →
      ∃ w, after[target]? = some w ∧ Binary64.Alike w v) ∧
    ∀ (table extension : Array String) (v : Float), extension.size < StringMap.indexBound →
      let map := (StringMap.build table extension).2
      (Binary64.Alike (map.leave (map.enter v)) v ↔ ¬ Binary64.IsNegativeWhole v) := by
  intro s after
  have hjoined := Joined.invariant root Model.TextsApart
  have hs : s.Joined root Model.TextsApart := hjoined.after (.new root settings _) hevents
  refine ⟨?_, ?_, ?_⟩
  · intro slot v hslot hv hspares
    obtain hruns | ⟨result, hadvance⟩ := s.advance_cases dt inputs outputs
    · rw [show after = _ from congrArg Advance.outputs (hruns.advance_eq dt),
        Advance.outputs_settle]
      exact Turn.survives_proceed (hjoined.enter hs dt outputs)
        (fun d hd => hspares d ⟨hruns, hd⟩) v hslot hv
    · rw [show after = _ from congrArg Advance.outputs hadvance]
      exact ⟨v, hslot, .refl v⟩
  · rintro c source target v hc hsource hv ⟨t, hready, hcopies⟩ hspares
    have ht := hjoined.ready (hjoined.turns (hjoined.enter hs dt outputs) hc.turns) hready
    have htarget : target < c.outputs.size := by
      obtain ⟨b, _, _, hb, -, -, -, hout, -⟩ := hcopies
      exact hc.lt_size hs hready hb hout
    obtain ⟨w, hw, halike⟩ := Stage.alike_of_copies ht.stage hsource hv htarget hcopies
    obtain ⟨x, hx, halike'⟩ := hc.survives_of_run hs hready hspares w hw
      fun hneg => hv (halike.isNegativeWhole hneg)
    exact ⟨x, hx, halike'.trans halike⟩
  · intro table extension v hsize
    obtain ⟨hmatches, -⟩ :=
      StringMap.Matches.of_build (Prod.eta (StringMap.build table extension)).symm
    exact hmatches.alike_leave_enter hsize v

/-- Waits for a continuation, with two lines of text to show. -/
def prompting : Model where
  id := ⟨1⟩
  version := Model.formatVersion
  flags := .continuationPoints
  maxStack := 0
  maxCallDepth := 0
  localCount := 0
  entry := 0
  schema := {
    inputs := [⟨"cue", .string, 0⟩]
    outputs := [⟨"line", .string, 0⟩, ⟨"echo", .string, 1⟩] }
  points := #[⟨"p", nameHash "p", 10, 1, 0⟩]
  constants := #[]
  strings := #["cue", "line", "echo", "p"]
  code := #[Word.encode .pause 0, Word.encode .halt 0]
  extends? := none
  debug? := none

/-- Continues `prompting` in a layout of its own: the line stays, the cue is echoed. -/
def echoing : Model where
  id := ⟨2⟩
  version := Model.formatVersion
  flags := .isExtension
  maxStack := 1
  maxCallDepth := 0
  localCount := 0
  entry := 0
  schema := {
    inputs := [⟨"cue", .string, 0⟩]
    outputs := [⟨"echo", .string, 0⟩, ⟨"line", .string, 1⟩] }
  points := #[]
  constants := #[]
  strings := #["echo", "cue"]
  code := #[Word.encode .loadInput 0, Word.encode .storeOutput 0, Word.encode .halt 0]
  extends? := some ⟨⟨1⟩, nameHash "p"⟩
  debug? := none

/-- `prompting` at its pause, with `echoing` attached. -/
def prompted : Stream :=
  (new prompting {}).after [.advance .zero #[0.0] #[0.0, 0.0], .attach echoing]

/-- What `echoing` does when it runs: it stores the cue in the slot that leads to `echo`, and is
done. -/
def echoes (c : Turn) (inputs : Array Float) (t : Stream) : Bool :=
  let limit := t.settings.run.instructionLimit.toNat
  t.stage.bridge?.any (fun b => b.inputs == #[0] && b.outputs == #[1, 0]) &&
    t.stage.model.schema.textInputs == [0] && t.stage.model.schema.textOutputs == [0, 1] &&
    t.stage.stores c.fuel inputs c.outputs == [0] &&
    decide ((t.stage.final limit c.fuel inputs c.outputs).outputs[0]? =
      (t.stage.enter inputs c.outputs).1[0]?) &&
    match t.stage.run limit c.fuel inputs c.outputs with
    | .stopped .halt _ _ _ => true
    | _ => false

theorem echoes_of_comesTo {inputs outputs : Array Float}
    (h : (prompted.enter .zero outputs).stream.ready.toOption.any
      (echoes (prompted.enter .zero outputs) inputs) = true) {c : Turn}
    (hc : prompted.ComesTo .zero inputs outputs c) :
    c.Spares inputs 0 ∧ c.Copies inputs 0 1 ∧ ∀ d, ¬ c.Next inputs d := by
  obtain ⟨t, hready, hechoes⟩ := exists_ready_of_any h
  simp only [echoes, Bool.and_eq_true, beq_iff_eq, decide_eq_true_eq] at hechoes
  obtain ⟨⟨⟨⟨⟨hbridge, hins⟩, houts⟩, hstores⟩, hfinal⟩, hhalts⟩ := hechoes
  obtain ⟨b, hb, hslots⟩ := (Option.any_eq_true _ _).1 hbridge
  obtain ⟨hinputs, houtputs⟩ := Bool.and_eq_true_iff.1 hslots
  rw [beq_iff_eq] at hinputs houtputs
  have hlast : ∀ d, ¬ (prompted.enter .zero outputs).Next inputs d := by
    split at hhalts
    · next hrun => exact Turn.not_next_of_halt hready hrun
    · cases hhalts
  obtain rfl | ⟨d, hd, -⟩ := hc.turns.cases_head
  · refine ⟨?_, ⟨t, hready, b, 0, 0, hb, ?_, ?_, ?_, ?_, ?_, hfinal⟩, hlast⟩
    · intro u hu own hown
      cases hready.symm.trans hu
      have hown' : own = 1 := by
        simp only [Stage.LeadsTo, hb, houtputs] at hown
        match own with
        | 0 => cases hown
        | 1 => rfl
      rw [hown', hstores]
      decide
    · rw [hins]
      exact List.mem_singleton_self 0
    · rw [hinputs]
      rfl
    · rw [houts]
      exact List.mem_cons_self
    · rw [houtputs]
      rfl
    · intro k hk
      rw [houtputs] at hk
      match k with
      | 0 => rfl
      | 1 => cases hk
  · exact absurd hd (hlast d)

/-- `echoing` is an extension whose texts have slots of their own, and `prompted` has accepted
nothing else. -/
theorem textsApart_of_prompted : ∀ m ∈ (new prompting {}).accepted
    [.advance .zero #[0.0] #[0.0, 0.0], .attach echoing], m.TextsApart := by
  intro m hm
  rcases List.mem_cons.1 (attach_mem_of_accepted hm) with hm | hm
  · cases hm
  · cases List.mem_singleton.1 hm
    exact ⟨by decide, by decide, by decide⟩

theorem texts_survive_echoing :
    echoing.TextsApart ∧ prompted.Runs #[2.0] #[1.0, 7.0] ∧
      (∃ w, (prompted.advance .zero #[2.0] #[1.0, 7.0]).outputs[0]? = some w ∧
        Binary64.Alike w 1.0) ∧
      ∃ w, (prompted.advance .zero #[2.0] #[1.0, 7.0]).outputs[1]? = some w ∧
        Binary64.Alike w 2.0 := by
  have hruns : prompted.Runs #[2.0] #[1.0, 7.0] :=
    ⟨by decide +kernel, by decide +kernel, by decide +kernel, by decide +kernel⟩
  have hchecked : (prompted.enter .zero #[1.0, 7.0]).stream.ready.toOption.any
      (echoes (prompted.enter .zero #[1.0, 7.0]) #[2.0]) = true := by decide +kernel
  obtain ⟨hkept, hcopied, -⟩ := texts_survive textsApart_of_prompted .zero #[2.0] #[1.0, 7.0]
  refine ⟨⟨by decide, by decide, by decide⟩, hruns, ?_, ?_⟩
  · exact hkept 0 1.0 rfl (by decide +kernel) fun c hc => (echoes_of_comesTo hchecked hc).1
  · obtain ⟨-, hcopies, hlast⟩ := echoes_of_comesTo hchecked ⟨hruns, .refl⟩
    refine hcopied _ 0 1 2.0 ⟨hruns, .refl⟩ rfl (by decide +kernel) hcopies fun d hd => ?_
    obtain ⟨e, he, -⟩ := Relation.TransGen.head'_iff.1 hd
    exact absurd he (hlast e)

/-- A whole number below zero is lost, both where nothing is stored and where it is copied to. -/
theorem below_zero_lost :
    echoing.TextsApart ∧ prompted.Runs #[-1.0] #[-1.0, 7.0] ∧
      (∀ c, prompted.ComesTo .zero #[-1.0] #[-1.0, 7.0] c →
        c.Spares #[-1.0] 0 ∧ c.Copies #[-1.0] 0 1 ∧ ∀ d, ¬ c.Next #[-1.0] d) ∧
      (prompted.advance .zero #[-1.0] #[-1.0, 7.0]).outputs = #[0.0, 0.0] ∧
      ¬ Binary64.Alike 0.0 (-1.0) := by
  have hchecked : (prompted.enter .zero #[-1.0, 7.0]).stream.ready.toOption.any
      (echoes (prompted.enter .zero #[-1.0, 7.0]) #[-1.0]) = true := by decide +kernel
  exact ⟨⟨by decide, by decide, by decide⟩,
    ⟨by decide +kernel, by decide +kernel, by decide +kernel, by decide +kernel⟩,
    fun c hc => echoes_of_comesTo hchecked hc, by decide +kernel, by decide +kernel⟩

end Stream

end Behavior
