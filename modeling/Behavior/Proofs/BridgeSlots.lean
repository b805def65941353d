import Behavior.Proofs.BridgeRange

/-!
Slot by slot across a bridge.

What an extension finds in a slot, and what a slot of the stream holds after it, is told for one
slot at a time. Between schemas whose variables and channels lie end to end under names of their
own, a bridge leads from each slot to the same place under the same name, so no two slots of the
extension lead to one of the stream.
-/

namespace Behavior

variable {slot k : Nat}

/-! ## Ranges with names -/

namespace Schema

/-- Where the outputs of a model have what goes by a name. -/
def place? (s : Schema) : Part × String → Option Place
  | (.output, name) => (s.output? name).map fun e => ⟨e.type, e.slot.toNat⟩
  | (.value, name) => (s.channel? name).map fun c => ⟨c.type, c.valueSlot.toNat⟩
  | (.urgency, name) => (s.channel? name).map fun c => ⟨.number, c.urgencySlot.toNat⟩

/-- Names are used once, and slots too. -/
structure Regular (s : Schema) : Prop where
  outputs : (s.outputs.map (·.name)).Nodup
  channels : (s.channels.map (·.name)).Nodup
  urgency : ∀ c ∈ s.channels, c.urgencySlot.toNat = c.valueStop
  layout : s.LaidOut

theorem find?_eq_some_of_nodup {α : Type} {name : α → String} {l : List α}
    (h : (l.map name).Nodup) {a : α} (ha : a ∈ l) : l.find? (name · == name a) = some a := by
  cases hfind : l.find? (name · == name a) with
  | none => exact absurd (beq_self_eq_true (name a)) (List.find?_eq_none.1 hfind a ha)
  | some b =>
    have hname := List.find?_some hfind
    rw [List.inj_on_of_nodup_map h (List.mem_of_find?_eq_some hfind) ha (eq_of_beq hname)]

namespace Regular

variable {s : Schema} {key : Part × String} {p : Place} {a b : (Part × String) × Place}

theorem mem_places_iff (h : s.Regular) : (key, p) ∈ s.places ↔ s.place? key = some p := by
  constructor
  · intro hp
    rcases mem_places.1 hp with ⟨e, he, heq⟩ | ⟨c, hc, hp⟩
    · cases heq
      exact Option.map_eq_some_iff.2 ⟨e, find?_eq_some_of_nodup h.outputs he, rfl⟩
    · rcases List.mem_pair.1 hp with heq | heq <;> cases heq <;>
        exact Option.map_eq_some_iff.2 ⟨c, find?_eq_some_of_nodup h.channels hc, rfl⟩
  · intro hp
    obtain ⟨part, name⟩ := key
    cases part with
    | output =>
      obtain ⟨e, he, rfl⟩ := Option.map_eq_some_iff.1 hp
      obtain ⟨hmem, rfl⟩ := output?_eq_some he
      exact mem_places.2 (.inl ⟨e, hmem, rfl⟩)
    | value | urgency =>
      obtain ⟨c, hc, rfl⟩ := Option.map_eq_some_iff.1 hp
      obtain ⟨hmem, rfl⟩ := channel?_eq_some hc
      exact mem_places.2 (.inr ⟨c, hmem, by simp [Channel.places]⟩)

theorem eq_of_key (h : s.Regular) (ha : a ∈ s.places) (hb : b ∈ s.places) (hkey : a.1 = b.1) :
    a = b := by
  obtain ⟨key, p⟩ := a
  obtain ⟨_, q⟩ := b
  cases hkey
  rw [Option.some.inj ((h.mem_places_iff.1 ha).symm.trans (h.mem_places_iff.1 hb))]

/-- Of two places, one ends before the other starts. -/
theorem pairwise_places (h : s.Regular) : s.places.Pairwise fun a b =>
    a.2.slot + a.2.type.width ≤ b.2.slot ∨ b.2.slot + b.2.type.width ≤ a.2.slot := by
  have hbounds {c : Channel} (hc : c ∈ s.channels) {a : (Part × String) × Place}
      (ha : a ∈ c.places) :
      c.range.1 ≤ a.2.slot ∧ a.2.slot + a.2.type.width ≤ c.range.1 + c.range.2 := by
    have hurgency : c.urgencySlot.toNat = c.valueSlot.toNat + c.type.width := h.urgency c hc
    rcases List.mem_pair.1 ha with rfl | rfl
    · exact ⟨Nat.le_refl _, Nat.le_succ _⟩
    · exact ⟨by simp only [Channel.range]; omega, Nat.le_of_eq (congrArg (· + 1) hurgency)⟩
  obtain ⟨order, hperm, horder⟩ := h.layout.outputs
  have hranges := hperm.pairwise (horder.pairwise.imp fun h => Or.inl h) fun {_ _} h => h.symm
  obtain ⟨houtputs, hchannels, hcross⟩ := List.pairwise_append.1 hranges
  refine List.pairwise_append.2 ⟨List.pairwise_map.2 (List.pairwise_map.1 houtputs),
    List.pairwise_flatMap.2 ⟨fun c hc => ?_, ?_⟩, fun a ha b hb => ?_⟩
  · exact List.pairwise_pair.2 (.inl (Nat.le_of_eq (h.urgency c hc).symm))
  · refine (List.pairwise_map.1 hchannels).imp_of_mem fun hc hc' hapart a ha b hb => ?_
    have := hbounds hc ha
    have := hbounds hc' hb
    omega
  · obtain ⟨e, he, rfl⟩ := List.mem_map.1 ha
    obtain ⟨c, hc, hb⟩ := List.mem_flatMap.1 hb
    have := hcross _ (List.mem_map_of_mem he) _ (List.mem_map_of_mem hc)
    have := hbounds hc hb
    simp only [Entry.place, Entry.range] at *
    omega

/-- No slot is used twice. -/
theorem eq_of_slot (h : s.Regular) (ha : a ∈ s.places) (hb : b ∈ s.places)
    (hslota : Within slot a.2.range) (hslotb : Within slot b.2.range) : a = b := by
  by_contra hne
  obtain ⟨i, hi, rfl⟩ := hslota
  obtain ⟨j, hj, heq⟩ := hslotb
  have : Std.Symm fun a b : (Part × String) × Place => a.2.slot + a.2.type.width ≤ b.2.slot ∨
      b.2.slot + b.2.type.width ≤ a.2.slot := ⟨fun _ _ h => h.symm⟩
  have hapart := h.pairwise_places.forall ha hb hne
  simp only [Place.range] at *
  omega

/-- No two texts share a slot. -/
theorem nodup_texts (h : s.Regular) : s.textInputs.Nodup ∧ s.textOutputs.Nodup := by
  constructor
  · have hfirsts : (s.inputs.map (·.slot.toNat)).Nodup := by
      have hranges := List.pairwise_map.1 h.layout.inputs.pairwise
      refine List.pairwise_map.2 (hranges.imp fun {a b} hle => ?_)
      have hpos := a.type.width_pos
      simp only [Entry.range] at hle
      omega
    exact hfirsts.sublist (List.filter_sublist.map _)
  · rw [textOutputs_eq]
    refine List.pairwise_map.2 ((h.pairwise_places.imp fun {a b} hapart => ?_).filter _)
    have hpos := a.2.type.width_pos
    have hpos' := b.2.type.width_pos
    omega

/-- Every slot is used. -/
theorem exists_place (h : s.Regular) (hslot : slot < s.outputSize) :
    ∃ a ∈ s.places, Within slot a.2.range := by
  obtain ⟨order, hperm, horder⟩ := h.layout.outputs
  obtain ⟨range, hrange, hle, hlt⟩ := horder.exists_mem (Nat.zero_le slot) hslot
  rcases List.mem_append.1 (hperm.mem_iff.1 hrange) with hrange | hrange
  · obtain ⟨e, he, rfl⟩ := List.mem_map.1 hrange
    exact ⟨_, mem_places.2 (.inl ⟨e, he, rfl⟩), slot - e.range.1, Nat.sub_lt_left_of_lt_add hle hlt,
      (Nat.add_sub_cancel' hle).symm⟩
  · obtain ⟨c, hc, rfl⟩ := List.mem_map.1 hrange
    have hurgency : c.urgencySlot.toNat = c.valueSlot.toNat + c.type.width := h.urgency c hc
    have hplace {a : (Part × String) × Place} (ha : a ∈ c.places) : a ∈ s.places :=
      mem_places.2 (.inr ⟨c, hc, ha⟩)
    simp only [Channel.range] at hle hlt
    by_cases hvalue : slot < c.valueSlot.toNat + c.type.width
    · exact ⟨_, hplace List.mem_cons_self, slot - c.valueSlot.toNat,
        Nat.sub_lt_left_of_lt_add hle hvalue, (Nat.add_sub_cancel' hle).symm⟩
    · refine ⟨_, hplace (List.mem_cons_of_mem _ List.mem_cons_self), 0, Nat.one_pos, ?_⟩
      show slot = c.urgencySlot.toNat + 0
      omega

end Regular

end Schema

namespace Bridge

section

variable {root own : Schema} {strings : StringMap} {b : Bridge}

/-- The bridge that joins a model to a stream with a string table, which becomes another one. -/
structure Joins (root : Schema) (before : Array String) (m : Model) (after : Array String)
    (b : Bridge) : Prop where
  built : build root m.schema b.strings = .ok b
  strings : StringMap.build before m.strings = (after, b.strings)

/-- Slots lead to slots of the same name. -/
theorem outputs_named (h : build root own strings = .ok b) (hown : own.Regular)
    (hk : b.outputs[k]? = some slot) :
    ∃ a ∈ own.places, ∃ r ∈ root.places, r.1 = a.1 ∧ r.2.type = a.2.type ∧
      ∃ i < a.2.type.width, k = a.2.slot + i ∧ slot = r.2.slot + i := by
  rcases outputs_cases h hk with hnamed | ⟨hlt, hnone, -⟩
  · exact hnamed
  · obtain ⟨a, ha, hslot⟩ := hown.exists_place hlt
    exact absurd hslot (hnone a ha)

/-- All slots of a name lead to the same places under it. -/
theorem outputs_of_place (h : build root own strings = .ok b) (hroot : root.Regular)
    (hown : own.Regular) {a : (Part × String) × Schema.Place} (ha : a ∈ own.places) :
    ∃ r ∈ root.places, r.1 = a.1 ∧ r.2.type = a.2.type ∧
      ∀ i < a.2.type.width, b.outputs[a.2.slot + i]? = some (r.2.slot + i) := by
  have hleads {i : Nat} (hi : i < a.2.type.width) : ∃ r ∈ root.places, r.1 = a.1 ∧
      r.2.type = a.2.type ∧ b.outputs[a.2.slot + i]? = some (r.2.slot + i) := by
    have hlt : a.2.slot + i < b.outputs.size := by
      rw [(Fits.of_build h).outputs_size]
      exact Nat.lt_of_lt_of_le (Nat.add_lt_add_left hi _) (Schema.place_le ha)
    obtain ⟨a', ha', r, hr, hkey, htype, i', hi', hslot, hslot'⟩ :=
      outputs_named h hown (Array.getElem?_eq_getElem hlt)
    obtain rfl : a = a' := hown.eq_of_slot ha ha' ⟨i, hi, rfl⟩ ⟨i', hi', hslot⟩
    obtain rfl : i = i' := Nat.add_left_cancel hslot
    exact ⟨r, hr, hkey, htype, by rw [Array.getElem?_eq_getElem hlt, hslot']⟩
  obtain ⟨r, hr, hkey, htype, -⟩ := hleads a.2.type.width_pos
  refine ⟨r, hr, hkey, htype, fun i hi => ?_⟩
  obtain ⟨r', hr', hkey', -, hslot⟩ := hleads hi
  rwa [hroot.eq_of_key hr hr' (hkey.trans hkey'.symm)]

/-- Different slots lead to different slots. -/
theorem outputs_inj (h : build root own strings = .ok b) (hroot : root.Regular) (hown : own.Regular)
    {j : Nat} (hj : b.outputs[j]? = some slot) (hk : b.outputs[k]? = some slot) : j = k := by
  obtain ⟨a, ha, r, hr, hkey, htype, i, hi, rfl, hslot⟩ := outputs_named h hown hj
  obtain ⟨a', ha', r', hr', hkey', htype', i', hi', rfl, hslot'⟩ := outputs_named h hown hk
  rw [← htype] at hi
  rw [← htype'] at hi'
  obtain rfl : r = r' := hroot.eq_of_slot hr hr' ⟨i, hi, hslot⟩ ⟨i', hi', hslot'⟩
  obtain rfl : a = a' := hown.eq_of_key ha ha' (hkey.symm.trans hkey')
  omega

end

/-! ## One slot -/

theorem getElem?_recode (f : Float → Float) (slots : List Nat) (values : Array Float) (k : Nat) :
    (recode f slots values)[k]? = values[k]?.map f^[slots.count k] := by
  induction slots generalizing values with
  | nil => simp [recode]
  | cons slot rest ih =>
    show (recode f rest (values.modify slot f))[k]? = _
    rw [ih, Array.getElem?_modify]
    by_cases h : slot = k
    · subst h
      rw [if_pos rfl, List.count_cons_self, Option.map_map, Function.iterate_succ]
    · rw [if_neg h, List.count_cons_of_ne h]

theorem getElem?_readInputs (b : Bridge) (inputs : Array Float) (k : Nat) :
    (b.readInputs inputs)[k]? = b.inputs[k]?.map fun slot =>
      b.strings.enter^[b.stringInputs.count k] (inputs.getD slot 0.0) := by
  rw [readInputs, getElem?_recode, Array.getElem?_map, Option.map_map]
  rfl

theorem getElem?_readOutputs (b : Bridge) (outputs : Array Float) (k : Nat) :
    (b.readOutputs outputs)[k]? = b.outputs[k]?.map fun slot =>
      b.strings.enter^[b.stringOutputs.count k] (outputs.getD slot 0.0) := by
  rw [readOutputs, getElem?_recode, Array.getElem?_map, Option.map_map]
  rfl

/-- A slot of the stream holds what a slot that leads there has left, or what it held before. -/
theorem writeOutputs_cases (b : Bridge) (own : Array Float) {outputs : Array Float}
    (hslot : slot < outputs.size) :
    (∃ (k : Nat) (value : Float), b.outputs[k]? = some slot ∧ own[k]? = some value ∧
        (b.writeOutputs own outputs)[slot]? =
          some (b.strings.leave^[b.stringOutputs.count k] value)) ∨
      (∀ k : Nat, b.outputs[k]? = some slot → own[k]? = none) ∧
        (b.writeOutputs own outputs)[slot]? = outputs[slot]? := by
  have hentry (k : Nat) (value : Float) (target : Nat) :
      ((recode b.strings.leave b.stringOutputs own).toList.zip b.outputs.toList)[k]? =
        some (value, target) ↔
      own[k]?.map b.strings.leave^[b.stringOutputs.count k] = some value ∧
        b.outputs[k]? = some target := by
    rw [List.getElem?_zip_eq_some, Array.getElem?_toList, Array.getElem?_toList, getElem?_recode]
  obtain ⟨⟨value, target⟩, hmem, rfl, hvalue⟩ | ⟨hnone, hkept⟩ :=
    getElem?_foldl_setIfInBounds Prod.snd Prod.fst
      ((recode b.strings.leave b.stringOutputs own).toList.zip b.outputs.toList) hslot
  · obtain ⟨k, hk⟩ := List.mem_iff_getElem?.1 hmem
    obtain ⟨hown, htarget⟩ := (hentry k value target).1 hk
    obtain ⟨x, hx, rfl⟩ := Option.map_eq_some_iff.1 hown
    exact .inl ⟨k, x, htarget, hx, hvalue⟩
  · refine .inr ⟨fun k htarget => ?_, hkept⟩
    cases hown : own[k]? with
    | none => rfl
    | some value =>
      have hmem := (hentry k _ slot).2 ⟨congrArg (Option.map _) hown, htarget⟩
      exact absurd rfl (hnone _ (List.mem_of_getElem? hmem))

end Bridge

end Behavior
