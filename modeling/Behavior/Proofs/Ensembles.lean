import Behavior.Proofs.Compiled
import Behavior.Proofs.Merging
import Behavior.Proofs.SignedNumbers
import Behavior.Proofs.Snapshots

/-!
An ensemble against models that are evaluated each on its own. Members share a state, keep vectors
from cycle to cycle, and may join at any time; still, each of them computes what its model would
compute alone on the values stored under the names of its inputs, and a cycle decides what merging
their wishes decides.
-/

namespace Behavior

variable {decisions : Decisions} {e' : Ensemble}

/-- A call that can change an ensemble. -/
inductive Call where
  | register (m : Model) (settings : RunSettings)
  | setNumber (name : String) (x : Float)
  | setBool (name : String) (b : Bool)
  | setVector (name : String) (x y z : Float)
  | reseed (seed : UInt64)
  | evaluate

/-- What is stored under each name after a call. -/
def Call.store (call : Call) (value : String → List Float) : String → List Float :=
  match call with
  | setNumber name x => Function.update value name [x]
  | setBool name b => Function.update value name [if b then 1.0 else 0.0]
  | setVector name x y z => Function.update value name [x, y, z]
  | register .. | reseed _ | evaluate => value

/-- What is stored under each name after some calls. -/
def stored (calls : List Call) : String → List Float :=
  calls.foldl (fun value call => call.store value) fun _ => []

namespace Ensemble

/-- The ensemble after a call. A model that does not fit leaves it as it was. -/
def perform (e : Ensemble) : Call → Ensemble
  | .register m settings =>
    match e.register m settings with
    | .ok e => e
    | .error _ => e
  | .setNumber name x => { e with state := e.state.setNumber name x }
  | .setBool name b => { e with state := e.state.setBool name b }
  | .setVector name x y z => { e with state := e.state.setVector name x y z }
  | .reseed seed => e.reseed seed
  | .evaluate => e.evaluate.2

/-- A new ensemble after some calls. -/
def after (channels : Channels) (calls : List Call) : Ensemble :=
  calls.foldl perform (new channels)

theorem after_concat (channels : Channels) (calls : List Call) (call : Call) :
    after channels (calls ++ [call]) = (after channels calls).perform call := by
  rw [after, List.foldl_concat]
  rfl

/-- No evaluation has ended in a fault. -/
def Faultless (channels : Channels) (calls : List Call) : Prop :=
  ∀ before, before ++ [.evaluate] <+: calls →
    ∃ decisions, (after channels before).evaluate.1 = .ok decisions

variable {calls : List Call} {call : Call}

theorem faultless_concat {channels : Channels} :
    Faultless channels (calls ++ [call]) ↔ Faultless channels calls ∧
      (call = .evaluate → ∃ decisions, (after channels calls).evaluate.1 = .ok decisions) := by
  constructor
  · refine fun h => ⟨fun before hbefore => h before (hbefore.trans (List.prefix_append ..)), ?_⟩
    rintro rfl
    exact h calls (List.prefix_refl _)
  · rintro ⟨h, hcall⟩ before hbefore
    rcases List.prefix_concat_iff.1 hbefore with heq | hbegins
    · obtain ⟨rfl, hlast⟩ := List.append_inj' heq rfl
      cases hlast
      exact hcall rfl
    · exact h before hbegins

end Ensemble

/-! ## Models on their own -/

/-- A model that is evaluated on its own. -/
structure Soloist where
  /-- How many others had come before. -/
  source : Nat
  evaluator : Evaluator
  /-- The outputs of the last evaluation. -/
  outputs : Array Float

namespace Soloist

/-- What a call does to a model on its own, after others before. It is evaluated on what is stored
under the names of its inputs, and draws random numbers of its own. -/
def hear (before : List Call) (solo : Soloist) : Call → Soloist
  | .reseed seed => { solo with evaluator := solo.evaluator.reseed (seed + solo.source.toUInt64) }
  | .evaluate =>
    let m := solo.evaluator.model
    let e := solo.evaluator.evaluate (m.schema.inputVector (stored before))
      (Array.replicate m.outputSize 0.0)
    { solo with evaluator := e.evaluator, outputs := e.outputs }
  | _ => solo

/-- The model that a call adds, if it is accepted. -/
def newcomer (channels : Channels) (before : List Call) (source : Nat) : Call → List Soloist
  | .register m settings =>
    match (Ensemble.after channels before).register m settings, Evaluator.new m settings with
    | .ok _, .ok evaluator => [⟨source, evaluator, Array.replicate m.outputSize 0.0⟩]
    | _, _ => []
  | _ => []

/-- The models on their own after some calls: each hears all calls since it was accepted. -/
def all (channels : Channels) (calls : List Call) : List Soloist :=
  (calls.foldl
    (fun (before, solos) call =>
      (before ++ [call],
        solos.map (·.hear before call) ++ newcomer channels before solos.length call))
    (([] : List Call), ([] : List Soloist))).2

theorem all_concat (channels : Channels) (calls : List Call) (call : Call) :
    all channels (calls ++ [call]) = (all channels calls).map (·.hear calls call) ++
      newcomer channels calls (all channels calls).length call := by
  have hbefore : ∀ calls : List Call, (calls.foldl
      (fun (before, solos) call =>
        (before ++ [call],
          solos.map (·.hear before call) ++ newcomer channels before solos.length call))
      (([] : List Call), ([] : List Soloist))).1 = calls := by
    intro calls
    induction calls using List.reverseRecOn with
    | nil => rfl
    | append_singleton calls call ih =>
      rw [List.foldl_concat]
      dsimp only
      rw [ih]
  rw [all, List.foldl_concat]
  dsimp only
  rw [hbefore]
  rfl

end Soloist

/-! ## Wishes -/

/-- An urgency is a number brought into range. What is no number is brought to zero. -/
def Urgency.Clamps (u : Urgency) (x : Float) : Prop :=
  0.0 ≤ x ∧ x ≤ 1.0 ∧ u.value = x ∨ 1.0 < x ∧ u.value = 1.0 ∨ ¬ 0.0 ≤ x ∧ u.value = 0.0

theorem Urgency.clamps_ofFloat (x : Float) : (ofFloat x).Clamps x := by
  unfold ofFloat
  split
  · next hrange => exact .inl ⟨hrange.1, hrange.2, rfl⟩
  · next hrange =>
    split
    · next hlt => exact .inr (.inl ⟨hlt, rfl⟩)
    · next hlt =>
      refine .inr (.inr ⟨fun hle => hrange ⟨hle, ?_⟩, rfl⟩)
      obtain ⟨p, hp, -⟩ := Binary64.place?_of_nonneg hle
      rw [Binary64.lt_iff] at hlt
      push Not at hlt
      exact Binary64.le_iff.2 ⟨p, hp, _, one.place?_value, hlt _ one.place?_value p hp⟩

/-- What a model asks of one of its channels by its outputs. A number where a text is meant is the
number of the text, or an abstention if no text can have it. -/
inductive Schema.Channel.Asks (layout : Channel) (outputs : Array Float) :
    IntentValue → Urgency → Prop
  | scalar {x y : Float} {u : Urgency} (htype : layout.type = .number ∨ layout.type = .bool)
      (hx : outputs[layout.valueSlot.toNat]? = some x)
      (hy : outputs[layout.urgencySlot.toNat]? = some y) (hu : u.Clamps y) :
      Asks layout outputs (.scalar x) u
  | vector {x₁ x₂ x₃ y : Float} {u : Urgency} (htype : layout.type = .vector3)
      (hx₁ : outputs[layout.valueSlot.toNat]? = some x₁)
      (hx₂ : outputs[layout.valueSlot.toNat + 1]? = some x₂)
      (hx₃ : outputs[layout.valueSlot.toNat + 2]? = some x₃)
      (hy : outputs[layout.urgencySlot.toNat]? = some y) (hu : u.Clamps y) :
      Asks layout outputs (.vector x₁ x₂ x₃) u
  | symbol {x y : Float} {i : UInt32} {u : Urgency} (htype : layout.type = .string)
      (hx : outputs[layout.valueSlot.toNat]? = some x)
      (hi : Binary64.Alike x (Float.ofNat i.toNat))
      (hy : outputs[layout.urgencySlot.toNat]? = some y) (hu : u.Clamps y) :
      Asks layout outputs (.symbol i) u
  | abstention {x : Float} (htype : layout.type = .string)
      (hx : outputs[layout.valueSlot.toNat]? = some x)
      (hnone : ∀ i : UInt32, ¬ Binary64.Alike x (Float.ofNat i.toNat)) :
      Asks layout outputs (.symbol 0) .zero

/-- A contribution of a source to a channel of its model. The channel is the first of the entity's
that has the name. -/
structure Contribution.Wants (channels : Channels) (source : Nat) (outputs : Array Float)
    (layout : Schema.Channel) (c : Contribution) : Prop where
  source : c.source = source.toUInt32
  channel : channels.specs.findIdx? (·.name == layout.name) = some c.channel.toNat
  asks : layout.Asks outputs c.value c.urgency

/-- A double is the number of a text just if it is that number. -/
theorem alike_ofNat_iff {x : Float} {k : Nat} (hk : k < 2 ^ 53) :
    Binary64.Alike x (Float.ofNat k) ↔ Binary64.toNat? x = some k := by
  constructor
  · exact fun h => h.toNat?_eq.trans (Binary64.toNat?_ofNat hk)
  · intro h
    rcases Binary64.eq_ofNat_of_toNat? h hk with rfl | ⟨rfl, rfl⟩
    · exact .refl _
    · exact .inr (by decide +kernel)

namespace BoundChannel

variable {b : BoundChannel} {outputs : Array Float}

theorem labels_contribution (b : BoundChannel) (source : UInt32) (outputs : Array Float) :
    (b.contribution source outputs).source = source ∧
      (b.contribution source outputs).channel = b.channel := by
  unfold contribution
  split <;> exact ⟨rfl, rfl⟩

theorem asks_contribution (hvalue : b.layout.valueStop ≤ outputs.size)
    (hurgency : b.layout.urgencySlot.toNat < outputs.size) (source : UInt32) :
    b.layout.Asks outputs (b.contribution source outputs).value
      (b.contribution source outputs).urgency := by
  have hslot (i : Nat) (hi : i < b.layout.type.width) :
      ∃ x, outputs[b.layout.valueSlot.toNat + i]? = some x :=
    ⟨_, Array.getElem?_eq_getElem (Nat.lt_of_lt_of_le (Nat.add_lt_add_left hi _) hvalue)⟩
  obtain ⟨x, hx⟩ := hslot 0 b.layout.type.width_pos
  have hy := Array.getElem?_eq_getElem hurgency
  have hu := Urgency.clamps_ofFloat outputs[b.layout.urgencySlot.toNat]
  have hread :
      outputs.getD b.layout.urgencySlot.toNat 0.0 = outputs[b.layout.urgencySlot.toNat] := by
    rw [Array.getD_eq_getD_getElem?, hy, Option.getD_some]
  rw [Nat.add_zero] at hx
  unfold contribution value?
  cases htype : b.layout.type with
  | number =>
    simp only [hx, hread]
    exact .scalar (.inl htype) hx hy hu
  | bool =>
    simp only [hx, hread]
    exact .scalar (.inr htype) hx hy hu
  | vector3 =>
    rw [htype] at hslot
    obtain ⟨x₂, hx₂⟩ := hslot 1 (by decide)
    obtain ⟨x₃, hx₃⟩ := hslot 2 (by decide)
    simp only [hx, hx₂, hx₃, hread]
    exact .vector htype hx hx₂ hx₃ hy hu
  | string =>
    have hindex (i : UInt32) : Binary64.Alike x (Float.ofNat i.toNat) ↔
        Binary64.toNat? x = some i.toNat :=
      alike_ofNat_iff (i.toNat_lt.trans (by decide))
    simp only [hx, Option.bind_eq_bind, Option.bind_some]
    cases hk : Binary64.toNat? x with
    | none => exact .abstention htype hx fun i hi => by cases hk.symm.trans ((hindex i).1 hi)
    | some k =>
      by_cases hlt : k < UInt32.size
      · simp only [Option.bind_some, if_pos hlt, hread]
        refine .symbol htype hx ((hindex _).2 ?_) hy hu
        rw [hk, UInt32.toNat_ofNat_of_lt' hlt]
      · simp only [Option.bind_some, if_neg hlt]
        refine .abstention htype hx fun i hi => hlt ?_
        obtain rfl := Option.some.inj (hk.symm.trans ((hindex i).1 hi))
        exact i.toNat_lt

end BoundChannel

theorem Channels.channel?_eq_some {channels : Channels} {name : String} {i : UInt16}
    (h : channels.channel? name = some i) :
    channels.specs.findIdx? (·.name == name) = some i.toNat := by
  obtain ⟨k, hk, h⟩ := Option.bind_eq_some_iff.1 h
  split at h
  · next hlt =>
    cases h
    rw [hk, UInt16.toNat_ofNat_of_lt' hlt]
  · cases h

/-- What is collected of a model, one contribution for each of its channels. -/
theorem wants_contributions {channels : Channels} {s : Schema} {bound : List BoundChannel}
    {outputs : Array Float} (h : channels.bind s = .ok bound) (hsize : outputs.size = s.outputSize)
    (source : Nat) :
    List.Forall₂ (Contribution.Wants channels source outputs) s.channels
      (contributions bound source.toUInt32 outputs) := by
  have hslots := (Schema.outputSize_le_iff.1 hsize.ge).2
  unfold Channels.bind at h
  generalize s.channels = layouts at h hslots
  induction layouts generalizing bound with
  | nil =>
    cases h
    exact .nil
  | cons layout rest ih =>
    obtain ⟨hlayout, hrest⟩ := List.forall_mem_cons.1 hslots
    rw [List.mapM_cons] at h
    obtain ⟨b, hb, h⟩ := bind_eq_ok.1 h
    obtain ⟨bs, hbs, h⟩ := bind_eq_ok.1 h
    cases h
    refine .cons ?_ (ih hbs hrest)
    split at hb
    · next channel hchannel =>
      cases hb
      obtain ⟨hvalue, hurgency⟩ := Nat.max_le.1 hlayout
      obtain ⟨hsource, hindex⟩ :=
        BoundChannel.labels_contribution ⟨channel, layout⟩ source.toUInt32 outputs
      exact ⟨hsource, hindex ▸ Channels.channel?_eq_some hchannel,
        BoundChannel.asks_contribution (b := ⟨channel, layout⟩) hvalue hurgency _⟩
    · cases hb

/-! ## Members in step with soloists -/

/-- A member that does what a model does on its own. -/
structure Member.Plays (channels : Channels) (s : Snapshot) (member : Member) (solo : Soloist) :
    Prop where
  evaluator : member.evaluator = solo.evaluator
  outputs : member.outputVector = solo.outputs
  channels : channels.bind solo.evaluator.model.schema = .ok member.channels
  inputs : List.Forall₂ s.Binds member.inputs solo.evaluator.model.schema.inputs
  compiled : ∃ registry o d, compile registry o d = .ok solo.evaluator.model
  size : solo.outputs.size = solo.evaluator.model.outputSize

/-- An evaluation without fault writes an output vector of the right size. -/
theorem Evaluator.size_outputs {e : Evaluator} {inputs outputs : Array Float}
    (hcheck : e.model.check = .ok ()) (h : (e.evaluate inputs outputs).fault? = none) :
    (e.evaluate inputs outputs).outputs.size = e.model.outputSize := by
  obtain ⟨hi, signal, s, rest, hrun, hpause, heq⟩ := evaluate_ok h
  obtain ⟨f⟩ := Model.fitness_of_check hcheck
  have hstart : e.start.Safe f := ⟨Frame.Safe.start f e.random, Array.size_replicate⟩
  have hsafe := hstart.run hi e.limit true e.limit
  rw [hrun] at hsafe
  rw [heq]
  cases signal with
  | halt => exact hsafe
  | wait seconds => exact hsafe.outputs
  | pause i => exact absurd rfl (hpause i)

namespace Member.Plays

variable {channels : Channels} {s : Snapshot} {member : Member} {solo : Soloist}

theorem put (h : member.Plays channels s solo) (e : Snapshot.Entry) :
    member.Plays channels (s.put e) solo :=
  { h with inputs := h.inputs.imp fun _ _ hb => hb.put e }

theorem reseed (h : member.Plays channels s solo) (before : List Call) (seed : UInt64) :
    Member.Plays channels s
      { member with evaluator := member.evaluator.reseed (seed + solo.source.toUInt64) }
      (solo.hear before (.reseed seed)) where
  evaluator := by rw [h.evaluator]; rfl
  outputs := h.outputs
  channels := h.channels
  inputs := h.inputs
  compiled := h.compiled
  size := h.size

/-- A member that is evaluated does what its model does on its own. -/
theorem cycle (h : member.Plays channels s solo) {before : List Call}
    (hs : s.Holds (stored before)) (hok : (member.cycle s).1 = none) :
    (member.cycle s).2.Plays channels s (solo.hear before .evaluate) := by
  obtain ⟨registry, o, d, hcompile⟩ := h.compiled
  have hcheck : member.evaluator.model.check = .ok () := by
    obtain ⟨_, -, hcompiled⟩ := compile_ok hcompile
    exact h.evaluator ▸ hcompiled.check
  have hi := (Evaluator.evaluate_ok hok).1
  have hsize : member.inputVector.size = solo.evaluator.model.inputSize := by
    rw [← Snapshot.size_readAll s member.inputs, ← h.evaluator]
    exact hi
  have hinputs := Snapshot.readAll_eq hs (suits_of_compile hcompile).layout h.inputs hsize
  have hevaluate : solo.evaluator.evaluate
      (solo.evaluator.model.schema.inputVector (stored before))
      (Array.replicate solo.evaluator.model.outputSize 0.0) =
      member.evaluator.evaluate (member.inputs.foldl
        (fun v b => s.read b.key b.slot b.width v) member.inputVector) member.outputVector := by
    rw [← hinputs, h.outputs, ← h.evaluator]
    exact Evaluator.evaluate_of_sizes _ hi Array.size_replicate (h.evaluator ▸ h.size)
  obtain ⟨random, hkept⟩ := solo.evaluator.evaluate_keeps
    (solo.evaluator.model.schema.inputVector (stored before))
    (Array.replicate solo.evaluator.model.outputSize 0.0)
  have hmodel : (solo.hear before .evaluate).evaluator.model = solo.evaluator.model :=
    congrArg (·.model) hkept
  exact {
    evaluator := (congrArg Evaluation.evaluator hevaluate).symm
    outputs := (congrArg Evaluation.outputs hevaluate).symm
    channels := by rw [hmodel]; exact h.channels
    inputs := by rw [hmodel]; exact h.inputs
    compiled := by rw [hmodel]; exact h.compiled
    size := by
      rw [hmodel, ← h.evaluator]
      exact (congrArg (·.outputs.size) hevaluate).trans (Evaluator.size_outputs hcheck hok) }

theorem wants (h : member.Plays channels s solo) (source : Nat) :
    List.Forall₂ (Contribution.Wants channels source solo.outputs)
      solo.evaluator.model.schema.channels
      (contributions member.channels source.toUInt32 member.outputVector) :=
  h.outputs ▸ wants_contributions h.channels h.size source

end Member.Plays

namespace Ensemble

variable {s : Snapshot}

theorem cycleMembers_ok {members members' : List Member}
    (h : cycleMembers s members = (none, members')) :
    (∀ m ∈ members, (m.cycle s).1 = none) ∧ members' = members.map fun m => (m.cycle s).2 := by
  induction members generalizing members' with
  | nil =>
    cases h
    exact ⟨by simp, rfl⟩
  | cons m rest ih =>
    rw [cycleMembers] at h
    rcases hm : m.cycle s with ⟨_ | fault, m'⟩
    · rw [hm] at h
      rcases hrest : cycleMembers s rest with ⟨fault?, rest'⟩
      rw [hrest] at h
      cases h
      obtain ⟨hnone, rfl⟩ := ih hrest
      exact ⟨List.forall_mem_cons.2 ⟨by rw [hm], hnone⟩, by rw [List.map_cons, hm]⟩
    · rw [hm] at h
      cases h

/-- A cycle without fault evaluates all members and merges what they want then. -/
theorem evaluate_ok {e : Ensemble} (h : e.evaluate.1 = .ok decisions) :
    (∀ m ∈ e.members, (m.cycle e.state).1 = none) ∧
      e.evaluate.2.state = e.state ∧ e.evaluate.2.merger.channels = e.merger.channels ∧
      e.evaluate.2.members = e.members.map (fun m => (m.cycle e.state).2) ∧
      decisions = e.merger.channels.merge e.evaluate.2.wishes := by
  rcases hcycle : cycleMembers e.state e.members.toList with ⟨_ | fault, members⟩
  · obtain ⟨hnone, rfl⟩ := cycleMembers_ok hcycle
    have hall : ∀ m ∈ e.members, (m.cycle e.state).1 = none := fun m hm =>
      hnone m (Array.mem_toList_iff.2 hm)
    let cycled : Ensemble :=
      { e with members := (e.members.toList.map fun m => (m.cycle e.state).2).toArray }
    have heq : e.evaluate = (.ok (cycled.merger.merge cycled.wishes).decisions,
        { cycled with merger := cycled.merger.merge cycled.wishes }) := by
      simp only [evaluate, hcycle, cycled]
    rw [heq] at h ⊢
    cases h
    refine ⟨hall, rfl, rfl, ?_, Merger.decisions_merge _ _⟩
    show (e.members.toList.map _).toArray = _
    rw [← Array.toList_map]
  · simp only [evaluate, hcycle] at h
    cases h

/-- A member for each model, in the order of registration. -/
structure InStep (channels : Channels) (e : Ensemble) (solos : List Soloist) : Prop where
  merger : e.merger.channels = channels
  size : e.members.size = solos.length
  source : ∀ {i : Nat} {solo : Soloist}, solos[i]? = some solo → solo.source = i
  plays : ∀ {i : Nat} {member : Member} {solo : Soloist}, e.members[i]? = some member →
    solos[i]? = some solo → member.Plays channels e.state solo

namespace InStep

variable {channels : Channels} {e : Ensemble} {solos : List Soloist} {before : List Call}

theorem new (channels : Channels) : InStep channels (Ensemble.new channels) [] :=
  ⟨rfl, rfl, by simp, by simp [Ensemble.new]⟩

theorem put (h : InStep channels e solos) (x : Snapshot.Entry) :
    InStep channels { e with state := e.state.put x } solos :=
  { h with plays := fun hi hsolo => (h.plays hi hsolo).put x }

/-- Both sides change member by member. -/
theorem map (h : InStep channels e solos) {f : Nat → Member → Member} {g : Soloist → Soloist}
    (hmerger : e'.merger.channels = e.merger.channels) (hstate : e'.state = e.state)
    (hmembers : e'.members = e.members.mapIdx f) (hsource : ∀ solo, (g solo).source = solo.source)
    (hplays : ∀ {member solo}, member ∈ e.members → member.Plays channels e.state solo →
      (f solo.source member).Plays channels e.state (g solo)) :
    InStep channels e' (solos.map g) where
  merger := hmerger.trans h.merger
  size := by rw [hmembers, Array.size_mapIdx, List.length_map, h.size]
  source {i solo'} hi := by
    rw [List.getElem?_map] at hi
    obtain ⟨solo, hsolo, rfl⟩ := Option.map_eq_some_iff.1 hi
    rw [hsource, h.source hsolo]
  plays {i member' solo'} hi hi' := by
    rw [hmembers, Array.getElem?_mapIdx] at hi
    rw [List.getElem?_map] at hi'
    obtain ⟨member, hmember, rfl⟩ := Option.map_eq_some_iff.1 hi
    obtain ⟨solo, hsolo, rfl⟩ := Option.map_eq_some_iff.1 hi'
    rw [hstate, ← h.source hsolo]
    exact hplays (Array.mem_of_getElem? hmember) (h.plays hmember hsolo)

theorem outputs (h : InStep channels e solos) :
    e.members.toList.map (·.outputVector) = solos.map (·.outputs) := by
  refine List.ext_getElem? fun i => ?_
  rw [List.getElem?_map, List.getElem?_map, Array.getElem?_toList]
  by_cases hlt : i < solos.length
  · have hmember := Array.getElem?_eq_getElem (h.size ▸ hlt)
    have hsolo := List.getElem?_eq_getElem hlt
    rw [hmember, hsolo, Option.map_some, Option.map_some, (h.plays hmember hsolo).outputs]
  · rw [Array.getElem?_eq_none (h.size ▸ Nat.le_of_not_lt hlt),
      List.getElem?_eq_none (Nat.le_of_not_lt hlt)]
    rfl

/-- The members want what their models want, each under its own number. -/
theorem wants (h : InStep channels e solos) :
    ∃ wishes : List (List Contribution), wishes.length = solos.length ∧
      (∀ i solo wish, solos[i]? = some solo → wishes[i]? = some wish →
        List.Forall₂ (Contribution.Wants channels i solo.outputs)
          solo.evaluator.model.schema.channels wish) ∧
      e.wishes = wishes.flatten := by
  refine ⟨e.members.toList.zipIdx.map fun entry =>
    contributions entry.1.channels entry.2.toUInt32 entry.1.outputVector, ?_, ?_, rfl⟩
  · rw [List.length_map, List.length_zipIdx, Array.length_toList, h.size]
  · intro i solo wish hsolo hwish
    rw [List.getElem?_map, List.getElem?_zipIdx, Array.getElem?_toList] at hwish
    obtain ⟨_, hentry, rfl⟩ := Option.map_eq_some_iff.1 hwish
    obtain ⟨member, hmember, rfl⟩ := Option.map_eq_some_iff.1 hentry
    rw [Nat.zero_add]
    exact (h.plays hmember hsolo).wants i

theorem reseed (h : InStep channels e solos) (seed : UInt64) :
    InStep channels (e.reseed seed) (solos.map (·.hear before (.reseed seed))) :=
  h.map rfl rfl rfl (fun _ => rfl) fun _ hplays => hplays.reseed before seed

theorem evaluate (h : InStep channels e solos) (hs : e.state.Holds (stored before))
    (hok : e.evaluate.1 = .ok decisions) :
    InStep channels e.evaluate.2 (solos.map (·.hear before .evaluate)) := by
  obtain ⟨hnone, hstate, hmerger, hmembers, -⟩ := evaluate_ok hok
  refine h.map (f := fun _ m => (m.cycle e.state).2) hmerger hstate ?_ (fun _ => rfl)
    fun hmem hplays => hplays.cycle hs (hnone _ hmem)
  rw [hmembers]
  apply Array.ext_getElem?
  simp

theorem congr (h : InStep channels e solos) {solos' newcomers : List Soloist}
    (hsolos : solos' = solos) (hnewcomers : newcomers = []) :
    InStep channels e (solos' ++ newcomers) := by
  rw [hsolos, hnewcomers, List.append_nil]
  exact h

theorem push (h : InStep channels e solos) {member : Member} {solo : Soloist}
    (hsource : solo.source = solos.length) (hplays : member.Plays channels e.state solo) :
    InStep channels { e with members := e.members.push member } (solos ++ [solo]) where
  merger := h.merger
  size := by rw [Array.size_push, h.size, List.length_append, List.length_singleton]
  source {i solo'} hi := by
    rcases Nat.lt_trichotomy i solos.length with hlt | rfl | hgt
    · rw [List.getElem?_append_left hlt] at hi
      exact h.source hi
    · rw [List.getElem?_concat_length] at hi
      cases hi
      exact hsource
    · rw [List.getElem?_eq_none (by simp; omega)] at hi
      cases hi
  plays {i member' solo'} hi hi' := by
    rcases Nat.lt_trichotomy i solos.length with hlt | rfl | hgt
    · rw [Array.getElem?_push_lt (h.size ▸ hlt), ← Array.getElem?_eq_getElem] at hi
      rw [List.getElem?_append_left hlt] at hi'
      exact h.plays hi hi'
    · rw [← h.size, Array.getElem?_push_size] at hi
      rw [List.getElem?_concat_length] at hi'
      cases hi
      cases hi'
      exact hplays
    · rw [List.getElem?_eq_none (by simp; omega)] at hi'
      cases hi'

end InStep

/-! ## Registration -/

theorem bindInputs_ok {entries : List Schema.Entry} {bound : List BoundInput}
    (h : bindInputs s entries = .ok bound) : List.Forall₂ s.Binds bound entries := by
  induction entries generalizing bound with
  | nil =>
    cases h
    exact .nil
  | cons e rest ih =>
    rw [bindInputs, List.mapM_cons] at h
    obtain ⟨b, hb, h⟩ := bind_eq_ok.1 h
    obtain ⟨bs, hbs, h⟩ := bind_eq_ok.1 h
    cases h
    refine .cons ?_ (ih hbs)
    split at hb
    · next key hkey =>
      cases hb
      obtain ⟨hlt, hfits, -⟩ := Array.findIdx?_eq_some_iff_getElem.1 hkey
      rw [Bool.and_eq_true] at hfits
      refine ⟨?_, rfl, rfl⟩
      rw [Snapshot.nameAt?, Array.getElem?_eq_getElem hlt, Option.map_some, eq_of_beq hfits.1]
    · cases hb

/-- A model that is registered finds its channels and inputs, and becomes the last member. -/
theorem register_ok {e : Ensemble} {m : Model} {settings : RunSettings}
    (h : e.register m settings = .ok e') :
    ∃ channels inputs evaluator, e.merger.channels.bind m.schema = .ok channels ∧
      bindInputs e.state m.schema.inputs = .ok inputs ∧
      Evaluator.new m settings = .ok evaluator ∧
      e' = { e with members := e.members.push {
        evaluator, inputs, channels
        inputVector := Array.replicate m.inputSize 0.0
        outputVector := Array.replicate m.outputSize 0.0 } } := by
  obtain ⟨channels, hchannels, h⟩ := bind_eq_ok.1 h
  obtain ⟨inputs, hinputs, h⟩ := bind_eq_ok.1 h
  obtain ⟨evaluator, hevaluator, h⟩ := bind_eq_ok.1 h
  cases h
  refine ⟨channels, inputs, evaluator, hchannels, hinputs, ?_, rfl⟩
  cases hnew : Evaluator.new m settings with
  | error error =>
    rw [hnew] at hevaluator
    cases hevaluator
  | ok evaluator' =>
    rw [hnew] at hevaluator
    cases hevaluator
    rfl

/-! ## Runs -/

theorem holds_after (channels : Channels) (calls : List Call) :
    (after channels calls).state.Holds (stored calls) := by
  induction calls using List.reverseRecOn with
  | nil => exact .empty
  | append_singleton calls call ih =>
    rw [after_concat, stored, List.foldl_concat]
    cases call with
    | register m settings =>
      rw [perform]
      split
      · next e he =>
        obtain ⟨_, _, _, -, -, -, rfl⟩ := register_ok he
        exact ih
      · exact ih
    | setNumber name x | setBool name b | setVector name x y z => exact ih.put rfl
    | reseed seed => exact ih
    | evaluate =>
      have hstate : (after channels calls).evaluate.2.state = (after channels calls).state := by
        rw [Ensemble.evaluate]
        split
        split <;> rfl
      rw [perform, hstate]
      exact ih

/-- A call keeps the members in step. -/
theorem InStep.perform {channels : Channels}
    (h : InStep channels (after channels calls) (Soloist.all channels calls))
    (hcompiled : ∀ m settings, call = .register m settings →
      ∃ registry o d, compile registry o d = .ok m)
    (hok : call = .evaluate → ∃ decisions, (after channels calls).evaluate.1 = .ok decisions) :
    InStep channels (after channels (calls ++ [call]))
      (Soloist.all channels (calls ++ [call])) := by
  rw [after_concat, Soloist.all_concat]
  cases call with
  | register m settings =>
    have hidle : (Soloist.all channels calls).map (·.hear calls (.register m settings)) =
        Soloist.all channels calls :=
      List.map_id' _
    rw [Ensemble.perform, Soloist.newcomer, hidle]
    cases hregister : (after channels calls).register m settings with
    | error error => simpa using h
    | ok e =>
      obtain ⟨bound, inputs, evaluator, hbound, hinputs, hnew, rfl⟩ := register_ok hregister
      obtain ⟨-, rfl⟩ := Evaluator.new_ok hnew
      rw [h.merger] at hbound
      rw [hnew]
      exact h.push rfl {
        evaluator := rfl
        outputs := rfl
        channels := hbound
        inputs := bindInputs_ok hinputs
        compiled := hcompiled m settings rfl
        size := Array.size_replicate }
  | setNumber name x | setBool name b | setVector name x y z =>
    exact (h.put _).congr (List.map_id' _) rfl
  | reseed seed => exact (h.reseed seed).congr rfl rfl
  | evaluate =>
    obtain ⟨decisions, hdecisions⟩ := hok rfl
    exact (h.evaluate (holds_after channels calls) hdecisions).congr rfl rfl

/-- Members stay in step through any calls without faults. -/
theorem inStep_after {channels : Channels}
    (hcompiled : ∀ m settings, .register m settings ∈ calls →
      ∃ registry o d, compile registry o d = .ok m)
    (hok : Faultless channels calls) :
    InStep channels (after channels calls) (Soloist.all channels calls) := by
  induction calls using List.reverseRecOn with
  | nil => exact .new channels
  | append_singleton calls call ih =>
    obtain ⟨hbefore, hcall⟩ := faultless_concat.1 hok
    have h := ih (fun m settings hm => hcompiled m settings (List.mem_append_left _ hm)) hbefore
    refine h.perform (fun m settings hregister => hcompiled m settings ?_) hcall
    rw [hregister]
    simp

/-- After calls in which no evaluation faults, a cycle gives each member the outputs that its model
has when it is evaluated on its own. What it decides is what merging decides on the wishes of the
members one after the other, each with one contribution under its own number for each channel of its
model. A model that is refused changes nothing, now or later. -/
theorem evaluate_in_step (channels : Channels) (calls : List Call)
    (hcompiled : ∀ m settings, .register m settings ∈ calls →
      ∃ registry o d, compile registry o d = .ok m)
    (hok : Faultless channels (calls ++ [.evaluate])) :
    let solos := Soloist.all channels (calls ++ [.evaluate])
    (after channels (calls ++ [.evaluate])).members.toList.map (·.outputVector) =
        solos.map (·.outputs) ∧
      (∃ wishes : List (List Contribution), wishes.length = solos.length ∧
        (∀ i solo wish, solos[i]? = some solo → wishes[i]? = some wish →
          List.Forall₂ (Contribution.Wants channels i solo.outputs)
            solo.evaluator.model.schema.channels wish) ∧
        (after channels calls).evaluate.1 = .ok (channels.merge wishes.flatten)) ∧
      ∀ m settings error, (after channels calls).register m settings = .error error →
        ∀ later, after channels (calls ++ .register m settings :: later) =
          after channels (calls ++ later) := by
  intro solos
  have hstep : InStep channels (after channels (calls ++ [.evaluate])) solos := by
    exact inStep_after (fun m settings hm => hcompiled m settings (by simpa using hm)) hok
  obtain ⟨decisions, hdecisions⟩ := (faultless_concat.1 hok).2 rfl
  obtain ⟨-, -, hchannels, -, hmerged⟩ := evaluate_ok hdecisions
  have hafter : after channels (calls ++ [.evaluate]) = (after channels calls).evaluate.2 :=
    after_concat ..
  refine ⟨hstep.outputs, ?_, fun m settings error herror later => ?_⟩
  · obtain ⟨wishes, hlength, hwants, hwishes⟩ := hstep.wants
    refine ⟨wishes, hlength, hwants, ?_⟩
    rw [hdecisions, hmerged, ← hchannels, ← hafter, hstep.merger, hwishes]
  · have hrefused :
        (after channels calls).perform (.register m settings) = after channels calls := by
      rw [perform, herror]
    rw [after, after, List.foldl_append, List.foldl_cons, List.foldl_append]
    exact congrArg (List.foldl perform · later) hrefused

/-- Goes where it aims, and wants to turn as much as it fears, more or less urgently. -/
def swerve : Document where
  name := "swerve"
  flows := [⟨"main", [
    .assign {} "spot" (.var {} "aim"),
    .intent {} "turn" (.var {} "fear") (.call {} "random" [])], {}⟩]

def swerveRegistry : Registry where
  declared := [("aim", ⟨.vector3, .input⟩), ("fear", ⟨.number, .input⟩),
    ("spot", ⟨.vector3, .output⟩), ("turn", ⟨.number, .channel⟩)]

def swerveModel : Model where
  id := ⟨1⟩
  version := Model.formatVersion
  flags := {}
  maxStack := 1
  maxCallDepth := 0
  localCount := 0
  entry := 0
  schema := {
    inputs := [⟨"aim", .vector3, 0⟩, ⟨"fear", .number, 3⟩]
    outputs := [⟨"spot", .vector3, 0⟩]
    channels := [⟨"turn", .number, 3, 4⟩] }
  points := #[]
  constants := #[]
  strings := #["aim", "spot", "fear", "turn"]
  code := #[Word.encode .loadInput 0, Word.encode .storeOutput 0, Word.encode .loadInput 1,
    Word.encode .storeOutput 1, Word.encode .loadInput 2, Word.encode .storeOutput 2,
    Word.encode .loadInput 3, Word.encode .storeOutput 3, Word.encode .random 0,
    Word.encode .storeOutput 4, Word.encode .ret 0]
  extends? := none
  debug? := none

/-- A second member joins between two cycles; then the aim is no vector any more, so a third one is
refused. In the last cycle the second member is the more urgent one. -/
def swerveCalls : List Call := [
  .setVector "aim" 1.0 2.0 3.0, .setNumber "fear" 0.5, .register swerveModel {}, .evaluate,
  .register swerveModel { seed := 9 }, .setNumber "aim" 7.0, .register swerveModel {}, .reseed 5]

theorem evaluate_in_step_swerve :
    let channels : Channels := ⟨#[⟨"turn", .exclusive⟩]⟩
    let solos := Soloist.all channels (swerveCalls ++ [.evaluate])
    compile swerveRegistry { level := 0, id? := some ⟨1⟩ } swerve = .ok swerveModel ∧
      Faultless channels (swerveCalls ++ [.evaluate]) ∧ solos.length = 2 ∧
      (after channels (swerveCalls ++ [.evaluate])).members.toList.map (·.outputVector) =
        solos.map (·.outputs) ∧
      (∃ wishes : List (List Contribution), wishes.length = solos.length ∧
        (∀ i solo wish, solos[i]? = some solo → wishes[i]? = some wish →
          List.Forall₂ (Contribution.Wants channels i solo.outputs)
            solo.evaluator.model.schema.channels wish) ∧
        (after channels swerveCalls).evaluate.1 = .ok (channels.merge wishes.flatten)) ∧
      ((after channels swerveCalls).evaluate.1.toOption.bind (·.get? 0)).bind (·.winner?) = some 1 ∧
      (∃ error, (after channels swerveCalls).register swerveModel {} = .error error) ∧
      after channels (swerveCalls ++ [.register swerveModel {}, .evaluate]) =
        after channels (swerveCalls ++ [.evaluate]) := by
  intro channels solos
  have hcompile :
      compile swerveRegistry { level := 0, id? := some ⟨1⟩ } swerve = .ok swerveModel := by
    cbv
  have hmodels : ∀ m settings, Call.register m settings ∈ swerveCalls →
      ∃ registry o d, compile registry o d = .ok m := by
    intro m settings hm
    have hm : m = swerveModel := by
      simp only [swerveCalls, List.mem_cons, List.not_mem_nil, Call.register.injEq, reduceCtorEq,
        false_or, or_false] at hm
      rcases hm with h | h | h <;> exact h.1
    exact ⟨_, _, _, hm ▸ hcompile⟩
  have hall : ∀ n < 9,
      (after channels ((swerveCalls ++ [Call.evaluate]).take n)).evaluate.1.toBool = true := by
    decide +kernel
  have hok : Faultless channels (swerveCalls ++ [Call.evaluate]) := by
    intro before hbefore
    have htake : before = (swerveCalls ++ [Call.evaluate]).take before.length :=
      List.prefix_iff_eq_take.1 ((List.prefix_append _ _).trans hbefore)
    have hlength : (before ++ [Call.evaluate]).length ≤ 9 := hbefore.length_le
    rw [List.length_append, List.length_singleton] at hlength
    have hbool := hall before.length hlength
    rw [← htake] at hbool
    cases heval : (after channels before).evaluate.1 with
    | error fault =>
      rw [heval] at hbool
      cases hbool
    | ok decisions => exact ⟨decisions, rfl⟩
  have hrefused : ∃ error, (after channels swerveCalls).register swerveModel {} = .error error := by
    have hbool : ((after channels swerveCalls).register swerveModel {}).toBool = false := by
      decide +kernel
    cases hregister : (after channels swerveCalls).register swerveModel {} with
    | error error => exact ⟨error, rfl⟩
    | ok e =>
      rw [hregister] at hbool
      cases hbool
  obtain ⟨houtputs, hdecisions, hsame⟩ := evaluate_in_step channels swerveCalls hmodels hok
  exact ⟨hcompile, hok, by decide +kernel, houtputs, hdecisions, by decide +kernel, hrefused,
    hsame _ _ _ hrefused.choose_spec _⟩

end Ensemble

end Behavior
