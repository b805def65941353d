import Behavior.Proofs.TextSurvival

/-!
What an extension can change. It writes to the slots of variables and channels that it shares with
the first model, by name. Slots of its own that belong to none of its variables and channels all
lead to the first slot of the stream, and what it stores there ends up in that slot.
-/

namespace Behavior

variable {strings : StringMap} {b : Bridge} {outputs : Array Float} {slots after : Array Nat}

/-! ## Slots by name -/

namespace Schema

/-- The output slots of a model, as ranges, each under what it holds. -/
def spans (s : Schema) : List ((Part × String) × (Nat × Nat)) :=
  s.outputs.map (fun e => ((.output, e.name), e.range)) ++
    s.channels.flatMap fun c => [((.value, c.name), (c.valueSlot.toNat, c.type.width)),
      ((.urgency, c.name), (c.urgencySlot.toNat, 1))]

/-- A slot that belongs to a variable or a channel. -/
def Covers (s : Schema) (slot : Nat) : Prop :=
  ∃ a ∈ s.spans, Within slot a.2

/-- A slot of a variable or channel of whose name the other schema has one as well. -/
def Shares (root own : Schema) (slot : Nat) : Prop :=
  ∃ r ∈ root.spans, Within slot r.2 ∧ ∃ a ∈ own.spans, a.1 = r.1

instance (slot : Nat) (range : Nat × Nat) : Decidable (Within slot range) :=
  inferInstanceAs (Decidable (∃ i < range.2, slot = range.1 + i))

instance (root own : Schema) (slot : Nat) : Decidable (root.Shares own slot) :=
  inferInstanceAs (Decidable (∃ r ∈ root.spans, Within slot r.2 ∧ ∃ a ∈ own.spans, a.1 = r.1))

theorem spans_eq (s : Schema) : s.spans = s.places.map fun a => (a.1, a.2.range) := by
  rw [spans, places, List.map_append, List.map_map, List.map_flatMap]
  rfl

theorem covers_iff {s : Schema} {slot : Nat} :
    s.Covers slot ↔ ∃ a ∈ s.places, Within slot a.2.range := by
  simp only [Covers, spans_eq, List.mem_map, exists_exists_and_eq_and]

theorem shares_of_places {root own : Schema} {slot : Nat} {a r : (Part × String) × Place}
    (ha : a ∈ own.places) (hr : r ∈ root.places) (hkey : r.1 = a.1)
    (hslot : Within slot r.2.range) : root.Shares own slot := by
  rw [Shares, spans_eq, spans_eq]
  exact ⟨_, List.mem_map_of_mem hr, hslot, _, List.mem_map_of_mem ha, hkey.symm⟩

end Schema

/-! ## One stage -/

namespace Stage

/-- A run changes a slot that is not shared only if it is the first one, and only by storing to a
slot that belongs to nothing. -/
theorem getElem?_run_of_apart {stage : Stage} {root : Schema} (hb : stage.bridge? = some b)
    (hbuilt : Bridge.build root stage.model.schema strings = .ok b) {limit fuel : Nat}
    {inputs : Array Float} {slot : Nat} (hapart : ¬ root.Shares stage.model.schema slot)
    (hfirst : slot = 0 → ∀ k ∈ stage.stores fuel inputs outputs,
      k < stage.model.schema.outputSize → stage.model.schema.Covers k) :
    (stage.run limit fuel inputs outputs).outputs[slot]? = outputs[slot]? := by
  rw [outputs_run]
  simp only [write, hb]
  by_cases hslot : slot < outputs.size
  · obtain ⟨k, value, hk, hvalue, hafter⟩ | ⟨-, hafter⟩ :=
      b.writeOutputs_cases (stage.final limit fuel inputs outputs).outputs hslot
    · obtain ⟨a, ha, r, hr, hkey, htype, i, hi, -, hslot⟩ | ⟨hlt, hnone, rfl⟩ :=
        Bridge.outputs_cases hbuilt hk
      · rw [← htype] at hi
        exact absurd (Schema.shares_of_places ha hr hkey ⟨i, hi, hslot⟩) hapart
      · have hcovers : ¬ stage.model.schema.Covers k := by
          rw [Schema.covers_iff]
          rintro ⟨a, ha, hk⟩
          exact hnone a ha hk
        have hspared : k ∉ stage.stores fuel inputs outputs :=
          fun hstored => hcovers (hfirst rfl k hstored hlt)
        have hkept : (stage.final limit fuel inputs outputs).outputs[k]? =
            (stage.enter inputs outputs).2[k]? := Machine.getElem?_outputs_run limit hspared
        have hplain : b.stringOutputs.count k = 0 := by
          rw [(Bridge.build_ok hbuilt).2.2.2]
          refine List.count_eq_zero.2 fun htext => ?_
          obtain ⟨a, ha, -, hslot⟩ := Schema.mem_textOutputs.1 htext
          exact hnone a ha ⟨0, a.2.type.width_pos, hslot.symm⟩
        rw [hvalue] at hkept
        simp only [enter, hb] at hkept
        rw [b.getElem?_readOutputs, hk, hplain] at hkept
        have hread : value = outputs.getD 0 0.0 := Option.some.inj hkept
        rw [hafter, hplain, hread, Array.getD_eq_getD_getElem?, Array.getElem?_eq_getElem hslot]
        rfl
    · exact hafter
  · rw [Array.getElem?_eq_none (Nat.le_of_not_lt hslot),
      Array.getElem?_eq_none (by rw [b.size_writeOutputs]; exact Nat.le_of_not_lt hslot)]

end Stage

namespace Stream

/-! ## Advances -/

/-- Whatever runs in an advance is a given extension. -/
def RunsOnly (s : Stream) (m : Model) (dt : Duration) (inputs outputs : Array Float) : Prop :=
  ∀ c, s.ComesTo dt inputs outputs c → ∀ t, c.stream.ready = .ok t →
    t.stage.model = m ∧ t.stage.bridge?.isSome = true

/-- A turn stores to a slot of the stage that belongs to none of its variables and channels. -/
def Turn.Strays (inputs : Array Float) (c : Turn) : Prop :=
  ∃ t, c.stream.ready = .ok t ∧ ∃ k ∈ t.stage.stores c.fuel inputs c.outputs,
    k < t.stage.model.schema.outputSize ∧ ¬ t.stage.model.schema.Covers k

section

variable {root : Model} {m : Model} {inputs : Array Float} {c d : Turn} {slot : Nat}
variable {good : Model → Prop}

theorem Turn.getElem?_run {t : Stream} (hc : c.stream.Joined root good)
    (hready : c.stream.ready = .ok t) (honly : t.stage.model = m ∧ t.stage.bridge?.isSome = true)
    (hapart : ¬ root.schema.Shares m.schema slot) (hstrays : slot = 0 → ¬ c.Strays inputs) :
    (t.stage.run t.settings.run.instructionLimit.toNat c.fuel inputs c.outputs).outputs[slot]? =
      c.outputs[slot]? := by
  obtain ⟨rfl, hbridge⟩ := honly
  obtain ⟨b, hb⟩ := Option.isSome_iff_exists.1 hbridge
  obtain ⟨-, table, hjoins⟩ := ((Joined.invariant root good).ready hc hready).stage b hb
  refine Stage.getElem?_run_of_apart hb hjoins.built hapart fun hslot k hk hlt => ?_
  by_contra hcovers
  exact hstrays hslot ⟨t, hready, k, hk, hlt, hcovers⟩

theorem Turn.getElem?_proceed (hc : c.stream.Joined root good)
    (honly : ∀ d, Relation.ReflTransGen (Next inputs) c d → ∀ t, d.stream.ready = .ok t →
      t.stage.model = m ∧ t.stage.bridge?.isSome = true)
    (hapart : ¬ root.schema.Shares m.schema slot)
    (hstrays : slot = 0 → ∀ d, Relation.ReflTransGen (Next inputs) c d → ¬ d.Strays inputs) :
    (c.proceed inputs).outputs[slot]? = c.outputs[slot]? := by
  refine outputs_proceed (R := fun o o' => o'[slot]? = o[slot]?) (fun _ => rfl)
    (fun h h' => h'.trans h) fun d t hd hready => ?_
  exact getElem?_run ((Joined.invariant root good).turns hc hd) hready (honly d hd t hready) hapart
    fun hslot => hstrays hslot d hd

end

/-- Whatever calls a stream has seen, an advance in which only an extension runs leaves all slots
alone but those of variables and channels of the first model whose names the extension has too. It
may change the first slot beside them, but only if it stores to a slot of its own that belongs to
none of its variables and channels. -/
theorem isolated {root : Model} {settings : StreamSettings} {events : List Event} {m : Model}
    {dt : Duration} {inputs outputs : Array Float}
    (honly : ((new root settings).after events).RunsOnly m dt inputs outputs) {slot : Nat}
    (hapart : ¬ root.schema.Shares m.schema slot) :
    (((new root settings).after events).advance dt inputs outputs).outputs[slot]? =
        outputs[slot]? ∨
      slot = 0 ∧ ∃ c, ((new root settings).after events).ComesTo dt inputs outputs c ∧
        c.Strays inputs := by
  have hs : ((new root settings).after events).Joined root fun _ => True :=
    (Joined.invariant root _).after (.new root settings _) fun _ _ => trivial
  by_cases hstrays : slot = 0 ∧ ∃ c, ((new root settings).after events).ComesTo dt inputs outputs c ∧
      c.Strays inputs
  · exact .inr hstrays
  · refine .inl ?_
    obtain hruns | ⟨result, hadvance⟩ :=
      ((new root settings).after events).advance_cases dt inputs outputs
    · rw [hruns.advance_eq dt, Advance.outputs_settle]
      exact Turn.getElem?_proceed ((Joined.invariant root _).enter hs dt outputs)
        (fun c hc => honly c ⟨hruns, hc⟩) hapart
        fun hslot c hc hc' => hstrays ⟨hslot, c, ⟨hruns, hc⟩, hc'⟩
    · rw [hadvance]

/-- Waits for a continuation, with three numbers to show. -/
def staging : Model where
  id := ⟨1⟩
  version := Model.formatVersion
  flags := .continuationPoints
  maxStack := 0
  maxCallDepth := 0
  localCount := 0
  entry := 0
  schema := {
    inputs := []
    outputs := [⟨"light", .number, 0⟩, ⟨"sound", .number, 1⟩, ⟨"smoke", .number, 2⟩] }
  points := #[⟨"p", nameHash "p", 10, 1, 0⟩]
  constants := #[]
  strings := #["light", "sound", "smoke", "p"]
  code := #[Word.encode .pause 0, Word.encode .halt 0]
  extends? := none
  debug? := none

/-- Continues `staging` with its sound, in the second of two slots, and stores to both. -/
def straying : Model where
  id := ⟨2⟩
  version := Model.formatVersion
  flags := .isExtension
  maxStack := 1
  maxCallDepth := 0
  localCount := 0
  entry := 0
  schema := { inputs := [], outputs := [⟨"sound", .number, 1⟩] }
  points := #[]
  constants := #[Constant.ofFloat 1.0]
  strings := #["sound"]
  code := #[Word.encode .pushConst 0, Word.encode .storeOutput 0, Word.encode .pushConst 0,
    Word.encode .storeOutput 1, Word.encode .halt 0]
  extends? := some ⟨⟨1⟩, nameHash "p"⟩
  debug? := none

/-- `staging` at its pause, with `straying` attached. -/
def staged : Stream :=
  (new staging {}).after [.advance .zero #[] #[0.0, 0.0, 0.0], .attach straying]

/-- Whether the stage that runs next is a given extension, and halts. -/
def halting (c : Turn) (inputs : Array Float) (m : Model) (t : Stream) : Bool :=
  decide (t.stage.model = m) && t.stage.bridge?.isSome &&
    match t.stage.run t.settings.run.instructionLimit.toNat c.fuel inputs c.outputs with
    | .stopped .halt _ _ _ => true
    | _ => false

theorem runsOnly_of_halting {s : Stream} {m : Model} {dt : Duration} {inputs : Array Float}
    (h : (s.enter dt outputs).stream.ready.toOption.any (halting (s.enter dt outputs) inputs m) =
      true) : s.RunsOnly m dt inputs outputs := by
  obtain ⟨t, hready, hhalting⟩ := exists_ready_of_any h
  simp only [halting, Bool.and_eq_true, decide_eq_true_eq] at hhalting
  obtain ⟨⟨hmodel, hbridge⟩, hhalts⟩ := hhalting
  have hlast : ∀ d, ¬ (s.enter dt outputs).Next inputs d := by
    split at hhalts
    · next hrun => exact Turn.not_next_of_halt hready hrun
    · cases hhalts
  intro c hc u hu
  obtain rfl | ⟨d, hd, -⟩ := hc.turns.cases_head
  · cases hready.symm.trans hu
    exact ⟨hmodel, hbridge⟩
  · exact absurd hd (hlast d)

/-- `straying` leaves the smoke alone, which it does not name. -/
theorem isolated_staged :
    staged.RunsOnly straying .zero #[] #[7.0, 8.0, 9.0] ∧
      ¬ staging.schema.Shares straying.schema 2 ∧
      (staged.advance .zero #[] #[7.0, 8.0, 9.0]).outputs[2]? = some 9.0 := by
  have honly : staged.RunsOnly straying .zero #[] #[7.0, 8.0, 9.0] :=
    runsOnly_of_halting (by decide +kernel)
  have hapart : ¬ staging.schema.Shares straying.schema 2 := by decide
  obtain hkept | ⟨hfirst, -⟩ := isolated honly hapart
  · exact ⟨honly, hapart, hkept⟩
  · cases hfirst

/-- It does not name the light either, but what it stores to its first slot, which belongs to
nothing, changes the light. Both models are fit to run. -/
theorem light_changed :
    staging.check = .ok () ∧ straying.check = .ok () ∧
      staged.RunsOnly straying .zero #[] #[7.0, 8.0, 9.0] ∧
      ¬ staging.schema.Shares straying.schema 0 ∧
      (staged.advance .zero #[] #[7.0, 8.0, 9.0]).outputs = #[1.0, 1.0, 9.0] :=
  ⟨by decide +kernel, by decide +kernel, runsOnly_of_halting (by decide +kernel), by decide,
    by decide +kernel⟩

end Stream

end Behavior
