import Behavior.Proofs.Isolation
import Behavior.Proofs.TextTables

/-!
Running behind a bridge is running by name.

Here a value is looked up in a vector by its name, together with its type and all of its numbers.
Between compiled models a bridge hands over just the values of the names that the extension has, in
both directions, and recodes those that are texts. A vector is known by what it holds under the
names of its schema, so where either model keeps its values does not matter.
-/

namespace Behavior

variable {v left w : Array Float} {slots after : Array Nat}

/-! ## Values by name -/

/-- A value as it is held in a vector. -/
structure Held where
  type : ValueType
  numbers : Array Float
deriving DecidableEq

/-- Recode the value if it is a text. -/
def Held.recode (f : Float → Float) (held : Held) : Held :=
  { held with numbers := held.numbers.map (if held.type = .string then f else id) }

theorem Held.recode_id (held : Held) : held.recode id = held := by
  rw [recode, ite_self, Array.map_id]

namespace Schema

variable {i j : Nat}

namespace Place

/-- What a vector holds in the place. -/
def read (p : Place) (vector : Array Float) : Held :=
  ⟨p.type, vector.extract p.slot (p.slot + p.type.width)⟩

theorem getElem?_numbers_read (p : Place) (vector : Array Float) (i : Nat) :
    (p.read vector).numbers[i]? = if i < p.type.width then vector[p.slot + i]? else none := by
  rw [read, Array.getElem?_extract]
  by_cases hi : i < p.type.width
  · rw [if_pos hi]
    split
    · rfl
    · exact (Array.getElem?_eq_none (by omega)).symm
  · rw [if_neg hi, if_neg (by omega)]

/-- A place has the value of another one, recoded, if it has its numbers, recoded. -/
theorem read_eq_recode {p r : Place} {f : Float → Float} (htype : p.type = r.type)
    (h : ∀ i < p.type.width,
      v[p.slot + i]? = w[r.slot + i]?.map (if r.type = .string then f else id)) :
    p.read v = (r.read w).recode f := by
  refine congrArg₂ Held.mk htype (Array.ext_getElem? fun i => ?_)
  rw [Array.getElem?_map]
  refine (p.getElem?_numbers_read v i).trans ?_
  rw [r.getElem?_numbers_read w i, ← htype]
  split
  · next hi => exact h i hi
  · rfl

end Place

/-- What an output vector holds under a name. -/
def heldOutput? (s : Schema) (outputs : Array Float) (key : Part × String) : Option Held :=
  (s.place? key).map (·.read outputs)

/-- What an input vector holds under a name. -/
def heldInput? (s : Schema) (inputs : Array Float) (name : String) : Option Held :=
  (s.input? name).map fun e => Place.read ⟨e.type, e.slot.toNat⟩ inputs

/-- Some output or channel has the name. -/
def Declares (s : Schema) (key : Part × String) : Prop :=
  (s.place? key).isSome = true

/-! ## Vectors by name -/

/-- A vector has, under each name of an extension's inputs, what the inputs of a stream have. -/
structure TakesInputs (root own : Schema) (map : StringMap) (inputs v : Array Float) : Prop where
  size : v.size = own.inputSize
  held : ∀ name, (own.input? name).isSome = true →
    own.heldInput? v name = (root.heldInput? inputs name).map (·.recode map.enter)

/-- A vector has, under each name of an extension's outputs, what the outputs of a stream have. -/
structure TakesOutputs (root own : Schema) (map : StringMap) (outputs v : Array Float) : Prop where
  size : v.size = own.outputSize
  held : ∀ key, own.Declares key →
    own.heldOutput? v key = (root.heldOutput? outputs key).map (·.recode map.enter)

/-- A vector has what an extension has left under each name of its outputs, and under all other
names what the outputs of a stream had before. -/
structure GivesBack (root own : Schema) (map : StringMap) (left outputs v : Array Float) : Prop where
  size : v.size = root.outputSize
  held : ∀ key, own.Declares key →
    root.heldOutput? v key = (own.heldOutput? left key).map (·.recode map.leave)
  kept : ∀ key, ¬ own.Declares key → root.heldOutput? v key = root.heldOutput? outputs key

/-! ## Places -/

namespace Regular

variable {s : Schema} {key : Part × String} {p q : Place}

/-- No slot has two values. -/
theorem key_eq_of_slot (h : s.Regular) {key' : Part × String} (hp : s.place? key = some p)
    (hq : s.place? key' = some q) (hi : i < p.type.width) (hj : j < q.type.width)
    (hslot : p.slot + i = q.slot + j) : key = key' := by
  have hsame := h.eq_of_slot (h.mem_places_iff.2 hp) (h.mem_places_iff.2 hq) ⟨i, hi, rfl⟩
    ⟨j, hj, hslot⟩
  exact (Prod.mk.inj hsame).1

theorem place_lt (h : s.Regular) (hp : s.place? key = some p) (hi : i < p.type.width) :
    p.slot + i < s.outputSize :=
  Nat.lt_of_lt_of_le (Nat.add_lt_add_left hi _) (place_le (h.mem_places_iff.2 hp))

/-- A vector is known by what it holds under the names of its schema. -/
theorem ext_outputs (h : s.Regular) (hv : v.size = s.outputSize) (hw : w.size = s.outputSize)
    (hheld : ∀ key, s.Declares key → s.heldOutput? v key = s.heldOutput? w key) : v = w := by
  refine Array.ext_getElem? fun k => ?_
  by_cases hk : k < s.outputSize
  · obtain ⟨⟨key, p⟩, hp, i, hi, rfl⟩ := h.exists_place hk
    simp only [Place.range] at hi ⊢
    rw [h.mem_places_iff] at hp
    have hsame := hheld key (congrArg Option.isSome hp)
    rw [heldOutput?, heldOutput?, hp] at hsame
    have hnumbers := congrArg (·.numbers[i]?) (Option.some.inj hsame)
    simpa only [Place.getElem?_numbers_read, if_pos hi] using hnumbers
  · rw [Array.getElem?_eq_none (by omega), Array.getElem?_eq_none (by omega)]

/-- The slots of texts are those that are listed as such. -/
theorem mem_textOutputs_iff (h : s.Regular) (hp : s.place? key = some p) (hi : i < p.type.width) :
    p.slot + i ∈ s.textOutputs ↔ p.type = .string := by
  rw [mem_textOutputs]
  constructor
  · rintro ⟨⟨key', q⟩, hq, htype, hslot⟩
    rw [h.mem_places_iff] at hq
    obtain rfl := h.key_eq_of_slot hp hq hi q.type.width_pos hslot.symm
    rwa [Option.some.inj (hp.symm.trans hq)]
  · intro htype
    rw [htype] at hi
    obtain rfl : i = 0 := Nat.lt_one_iff.1 hi
    exact ⟨_, h.mem_places_iff.2 hp, htype, rfl⟩

/-- Texts are recoded once, and all else never. -/
theorem iterate_count_texts (h : s.Regular) (hp : s.place? key = some p) (hi : i < p.type.width)
    (f : Float → Float) :
    f^[s.textOutputs.count (p.slot + i)] = if p.type = .string then f else id := by
  have hmem := h.mem_textOutputs_iff hp hi
  split
  · next htype =>
    rw [List.count_eq_one_of_mem h.nodup_texts.2 (hmem.2 htype), Function.iterate_one]
  · next htype => rw [List.count_eq_zero.2 (mt hmem.1 htype), Function.iterate_zero]

end Regular

end Schema

/-! ## Across a bridge -/

namespace Bridge

open Schema

section

variable {root own : Schema} {strings : StringMap} {b : Bridge} {key : Part × String} {p : Place}
  {outputs : Array Float}

/-- The slots of a value lead to those of the value of the same name. -/
theorem outputs_of_place? (h : build root own strings = .ok b) (hroot : root.Regular)
    (hown : own.Regular) (hp : own.place? key = some p) :
    ∃ r, root.place? key = some r ∧ r.type = p.type ∧
      ∀ i < p.type.width, b.outputs[p.slot + i]? = some (r.slot + i) := by
  obtain ⟨⟨_, r⟩, hr, rfl, htype, hleads⟩ := outputs_of_place h hroot hown (hown.mem_places_iff.2 hp)
  exact ⟨r, hroot.mem_places_iff.1 hr, htype, hleads⟩

/-- Under each of its names, an extension finds what the stream has there. -/
theorem held_readOutputs (h : build root own strings = .ok b) (hroot : root.Regular)
    (hown : own.Regular) (hsize : outputs.size = root.outputSize) (hkey : own.Declares key) :
    own.heldOutput? (b.readOutputs outputs) key =
      (root.heldOutput? outputs key).map (·.recode strings.enter) := by
  obtain ⟨p, hp⟩ := Option.isSome_iff_exists.1 hkey
  obtain ⟨r, hr, htype, hleads⟩ := outputs_of_place? h hroot hown hp
  obtain ⟨-, hstrings, -, htexts⟩ := build_ok h
  rw [heldOutput?, heldOutput?, hp, hr]
  refine congrArg some (Place.read_eq_recode htype.symm fun i hi => ?_)
  have hlt : r.slot + i < outputs.size := hsize ▸ hroot.place_lt hr (htype ▸ hi)
  rw [getElem?_readOutputs, hleads i hi, htexts, hstrings, hown.iterate_count_texts hp hi, htype,
    Option.map_some, Array.getD_eq_getD_getElem?, Array.getElem?_eq_getElem hlt]
  rfl

/-- Afterwards the stream has what the extension has left under each of its names. -/
theorem held_writeOutputs (h : build root own strings = .ok b) (hroot : root.Regular)
    (hown : own.Regular) (hleft : left.size = own.outputSize)
    (hsize : outputs.size = root.outputSize) (hkey : own.Declares key) :
    root.heldOutput? (b.writeOutputs left outputs) key =
      (own.heldOutput? left key).map (·.recode strings.leave) := by
  obtain ⟨p, hp⟩ := Option.isSome_iff_exists.1 hkey
  obtain ⟨r, hr, htype, hleads⟩ := outputs_of_place? h hroot hown hp
  obtain ⟨-, hstrings, -, htexts⟩ := build_ok h
  rw [heldOutput?, heldOutput?, hp, hr]
  refine congrArg some (Place.read_eq_recode htype fun i hi => ?_)
  have hlt : r.slot + i < outputs.size := hsize ▸ hroot.place_lt hr hi
  rw [htype] at hi
  obtain ⟨k, value, hk, hvalue, hafter⟩ | ⟨hnone, -⟩ := b.writeOutputs_cases left hlt
  · -- no other slot leads there
    obtain rfl := outputs_inj h hroot hown hk (hleads i hi)
    rw [hafter, hvalue, htexts, hstrings, hown.iterate_count_texts hp hi]
    rfl
  · have hlt' : p.slot + i < left.size := hleft ▸ hown.place_lt hp hi
    exact absurd (hnone _ (hleads i hi)) (by rw [Array.getElem?_eq_getElem hlt']; nofun)

/-- What goes by no name of the extension stays as it was. -/
theorem held_writeOutputs_of_not_declares (h : build root own strings = .ok b)
    (hroot : root.Regular) (hown : own.Regular) (left : Array Float)
    (hsize : outputs.size = root.outputSize) (hkey : ¬ own.Declares key) :
    root.heldOutput? (b.writeOutputs left outputs) key = root.heldOutput? outputs key := by
  cases hr : root.place? key with
  | none => rw [heldOutput?, heldOutput?, hr]; rfl
  | some r =>
    rw [heldOutput?, heldOutput?, hr, Option.map_some, Option.map_some,
      ← (r.read outputs).recode_id]
    refine congrArg some (Place.read_eq_recode rfl fun i hi => ?_)
    have hlt : r.slot + i < outputs.size := hsize ▸ hroot.place_lt hr hi
    rw [ite_self, Option.map_id, id]
    obtain ⟨k, value, hk, -, -⟩ | ⟨-, hafter⟩ := b.writeOutputs_cases left hlt
    · obtain ⟨⟨_, p⟩, hp, c, hc, rfl, htype, j, hj, -, hslot⟩ := outputs_named h hown hk
      obtain rfl : c = (key, r) := hroot.eq_of_slot hc (hroot.mem_places_iff.2 hr)
        ⟨j, (htype ▸ hj : j < c.2.type.width), hslot⟩ ⟨i, hi, rfl⟩
      exact absurd (congrArg Option.isSome (hown.mem_places_iff.1 hp)) hkey
    · exact hafter

theorem takesOutputs_iff (h : build root own strings = .ok b) (hroot : root.Regular)
    (hown : own.Regular) (hsize : outputs.size = root.outputSize) :
    TakesOutputs root own strings outputs v ↔ v = b.readOutputs outputs := by
  have hread : (b.readOutputs outputs).size = own.outputSize := (Fits.of_build h).size_readOutputs
  constructor
  · intro hv
    refine hown.ext_outputs hv.size hread fun key hkey => ?_
    rw [hv.held key hkey, held_readOutputs h hroot hown hsize hkey]
  · rintro rfl
    exact ⟨hread, fun key hkey => held_readOutputs h hroot hown hsize hkey⟩

theorem givesBack_iff (h : build root own strings = .ok b) (hroot : root.Regular)
    (hown : own.Regular) (hleft : left.size = own.outputSize)
    (hsize : outputs.size = root.outputSize) :
    GivesBack root own strings left outputs v ↔ v = b.writeOutputs left outputs := by
  have hwritten : (b.writeOutputs left outputs).size = root.outputSize :=
    (b.size_writeOutputs left outputs).trans hsize
  constructor
  · intro hv
    refine hroot.ext_outputs hv.size hwritten fun key _ => ?_
    by_cases hkey : own.Declares key
    · rw [hv.held key hkey, held_writeOutputs h hroot hown hleft hsize hkey]
    · rw [hv.kept key hkey, held_writeOutputs_of_not_declares h hroot hown left hsize hkey]
  · rintro rfl
    exact ⟨hwritten, fun key hkey => held_writeOutputs h hroot hown hleft hsize hkey,
      fun key hkey => held_writeOutputs_of_not_declares h hroot hown left hsize hkey⟩

end

end Bridge

/-! ## Inputs -/

namespace Schema

variable {s : Schema}

theorem heldInput?_eq (s : Schema) (inputs : Array Float) (name : String) :
    s.heldInput? inputs name = s.inputSide.heldOutput? inputs (.output, name) := by
  rw [heldInput?, heldOutput?, place?, Option.map_map]
  rfl

theorem Declares.of_inputSide {key : Part × String} (h : s.inputSide.Declares key) :
    ∃ name, key = (.output, name) ∧ (s.input? name).isSome = true := by
  obtain ⟨part, name⟩ := key
  cases part with
  | output =>
    refine ⟨name, rfl, ?_⟩
    rwa [Declares, place?, Option.isSome_map] at h
  | value | urgency => cases h

theorem takesInputs_iff {root own : Schema} {map : StringMap} {inputs : Array Float} :
    TakesInputs root own map inputs v ↔
      TakesOutputs root.inputSide own.inputSide map inputs v := by
  constructor
  · rintro ⟨hsize, hheld⟩
    refine ⟨hsize, fun key hkey => ?_⟩
    obtain ⟨name, rfl, hname⟩ := hkey.of_inputSide
    rw [← heldInput?_eq, ← heldInput?_eq, hheld name hname]
  · rintro ⟨hsize, hheld⟩
    refine ⟨hsize, fun name hname => ?_⟩
    rw [heldInput?_eq, heldInput?_eq, hheld (.output, name) (Option.isSome_map.trans hname)]

theorem LaidOut.regular_inputSide (h : s.LaidOut) (hnames : (s.inputs.map (·.name)).Nodup) :
    s.inputSide.Regular where
  outputs := hnames
  channels := .nil
  urgency := nofun
  layout := ⟨rfl, s.inputs.map Entry.range, .of_eq (List.append_nil _).symm, h.inputs⟩

end Schema

/-! ## Runs -/

theorem Model.IsCompiled.regular_inputSide {m : Model} (h : m.IsCompiled) :
    m.schema.inputSide.Regular := by
  obtain ⟨registry, o, d, h⟩ := h
  have hsuits := suits_of_compile h
  exact hsuits.layout.regular_inputSide hsuits.inputs

/-- What a run of its machine makes of a stage, with the stream's outputs after it. -/
def Stage.ended (stage : Stage) (after : Array Float) : Machine.Outcome → Outcome
  | .stopped signal s rest => .stopped signal { stage with frame := s.toFrame } after rest
  | .faulted f s => .faulted f { stage with frame := s.toFrame } after

theorem Stage.leave_eq_ended (stage : Stage) (outputs : Array Float) (o : Machine.Outcome) :
    stage.leave outputs o = stage.ended (stage.write outputs o.machine.outputs) o := by
  cases o <;> rfl

namespace Stream

/-- An extension that a stream has accepted runs by name, if it is compiled and the first model of
the stream is. In whatever frame its stage is, there is just one vector of inputs and one of outputs
that has what the stream has under the names of the extension. Running the stage is running the
machine on these two. Afterwards the stream has what the machine has left under the names of the
extension, and nothing else has changed, even if the run has failed. -/
theorem run_by_name {s t : Stream} {m : Model} (hroot : s.root.IsCompiled) (hm : m.IsCompiled)
    (hattach : s.attach m = .ok t) :
    ∃ stage, t.incoming? = some stage ∧ stage.model = m ∧
      ∀ (frame : Frame) (limit fuel : Nat) (inputs outputs : Array Float),
        inputs.size = s.root.schema.inputSize → outputs.size = s.root.schema.outputSize →
        let root := s.root.schema
        let own := m.schema
        let map := (StringMap.build s.strings m.strings).2
        ∃ ownInputs ownOutputs : Array Float,
          (∀ v, Schema.TakesInputs root own map inputs v ↔ v = ownInputs) ∧
          (∀ v, Schema.TakesOutputs root own map outputs v ↔ v = ownOutputs) ∧
          let start : Machine := { toFrame := frame, outputs := ownOutputs }
          let o := start.run m ownInputs limit false fuel
          ∃ after, { stage with frame }.run limit fuel inputs outputs = stage.ended after o ∧
            ∀ v, Schema.GivesBack root own map o.machine.outputs outputs v ↔ v = after := by
  obtain ⟨a, p, strings, b, -, -, hjoins, rfl⟩ := attach_ok hattach
  refine ⟨_, rfl, rfl, fun frame limit fuel inputs outputs hinputs houtputs => ?_⟩
  have hmap : (StringMap.build s.strings m.strings).2 = b.strings := by rw [hjoins.strings]
  intro root own map
  have hbuilt : Bridge.build root own map = .ok b := by
    rw [show map = b.strings from hmap]
    exact hjoins.built
  refine ⟨b.readInputs inputs, b.readOutputs outputs, fun v => ?_, fun v => ?_, ?_⟩
  · rw [Schema.takesInputs_iff]
    exact Bridge.takesOutputs_iff (Bridge.build_inputSide hbuilt) hroot.regular_inputSide
      hm.regular_inputSide hinputs
  · exact Bridge.takesOutputs_iff hbuilt hroot.regular hm.regular houtputs
  · intro start o
    have hleft : o.machine.outputs.size = own.outputSize :=
      (Machine.size_outputs_run limit fuel).trans (Bridge.Fits.of_build hbuilt).size_readOutputs
    refine ⟨b.writeOutputs o.machine.outputs outputs, ?_, fun v => ?_⟩
    · rw [Stage.run_eq, Stage.leave_eq_ended]
      rfl
    · exact Bridge.givesBack_iff hbuilt hroot.regular hm.regular hleft houtputs

/-- Takes a pose and calls, and waits for a reply. -/
def duet : Document where
  name := "duet"
  flows := [
    ⟨"main", [
      .assign {} "pose" (.var {} "target"),
      .intent {} "call" (.str {} "hark") (.var {} "zeal"),
      .continuation {} "reply" 1.0 "silence"], {}⟩,
    ⟨"silence", [], {}⟩]

/-- Continues `duet` the other way round, so nothing is in the same slot. -/
def reply : Document where
  name := "reply"
  extends? := some ⟨"duet", "reply"⟩
  flows := [⟨"main", [
    .intent {} "call" (.str {} "lo") (.var {} "zeal"),
    .assign {} "pose" (.var {} "target")], {}⟩]

def duetRegistry : Registry where
  declared := [("target", ⟨.vector3, .input⟩), ("zeal", ⟨.number, .input⟩),
    ("pose", ⟨.vector3, .output⟩), ("call", ⟨.string, .channel⟩)]

def duetModel : Model where
  id := .ofName "duet"
  version := Model.formatVersion
  flags := .continuationPoints
  maxStack := 1
  maxCallDepth := 0
  localCount := 0
  entry := 0
  schema := {
    inputs := [⟨"target", .vector3, 0⟩, ⟨"zeal", .number, 3⟩]
    outputs := [⟨"pose", .vector3, 0⟩]
    channels := [⟨"call", .string, 3, 4⟩] }
  points := #[⟨"reply", nameHash "reply", 1000, 12, 10⟩]
  constants := #[.ofFloat 2.0]
  strings := #["target", "pose", "hark", "zeal", "call", "reply"]
  code := #[Word.encode .loadInput 0, Word.encode .storeOutput 0, Word.encode .loadInput 1,
    Word.encode .storeOutput 1, Word.encode .loadInput 2, Word.encode .storeOutput 2,
    Word.encode .pushConst 0, Word.encode .storeOutput 3, Word.encode .loadInput 3,
    Word.encode .storeOutput 4, Word.encode .pause 0, Word.encode .ret 0, Word.encode .ret 0]
  extends? := none
  debug? := none

def replyModel : Model where
  id := .ofName "reply"
  version := Model.formatVersion
  flags := .isExtension
  maxStack := 1
  maxCallDepth := 0
  localCount := 0
  entry := 0
  schema := {
    inputs := [⟨"zeal", .number, 0⟩, ⟨"target", .vector3, 1⟩]
    outputs := [⟨"pose", .vector3, 2⟩]
    channels := [⟨"call", .string, 0, 1⟩] }
  points := #[]
  constants := #[.ofFloat 0.0]
  strings := #["lo", "zeal", "call", "target", "pose"]
  code := #[Word.encode .pushConst 0, Word.encode .storeOutput 0, Word.encode .loadInput 0,
    Word.encode .storeOutput 1, Word.encode .loadInput 1, Word.encode .storeOutput 2,
    Word.encode .loadInput 2, Word.encode .storeOutput 3, Word.encode .loadInput 3,
    Word.encode .storeOutput 4, Word.encode .ret 0]
  extends? := some ⟨.ofName "duet", nameHash "reply"⟩
  debug? := none

theorem isCompiled_duetModel : duetModel.IsCompiled := by
  have hrecursive : FlowGraph.recursive ⟨#[[(1, .jump)], []]⟩ = [] := by cbv
  exact .of_acyclic duetRegistry { level := 0 } duet 0 rfl (by decide +kernel) (by decide +kernel)
    hrecursive (by decide +kernel) (by decide) (by decide +kernel)

theorem isCompiled_replyModel : replyModel.IsCompiled := by
  have hrecursive : FlowGraph.recursive ⟨#[[]]⟩ = [] := by cbv
  exact .of_acyclic duetRegistry { level := 0 } reply 0 rfl (by decide +kernel) (by decide +kernel)
    hrecursive (by decide +kernel) (by decide) (by decide +kernel)

/-- `duetModel` at its point. -/
def calling : Stream :=
  (new duetModel {}).after
    [.advance .zero #[1.0, 2.0, 3.0, 0.5] #[0.0, 0.0, 0.0, 0.0, 0.0]]

theorem run_by_name_reply :
    calling.root.IsCompiled ∧ replyModel.IsCompiled ∧
      ∃ t stage, calling.attach replyModel = .ok t ∧ t.incoming? = some stage ∧
        let inputs := #[1.0, 2.0, 3.0, 0.5]
        let outputs := #[1.0, 2.0, 3.0, 2.0, 0.5]
        let root := calling.root.schema
        let own := replyModel.schema
        let map := (StringMap.build calling.strings replyModel.strings).2
        ∃ ownInputs ownOutputs after : Array Float,
          Schema.TakesInputs root own map inputs ownInputs ∧
          Schema.TakesOutputs root own map outputs ownOutputs ∧
          let start : Machine := { toFrame := stage.frame, outputs := ownOutputs }
          let o := start.run replyModel ownInputs 100 false 100
          stage.run 100 100 inputs outputs = stage.ended after o ∧
            Schema.GivesBack root own map o.machine.outputs outputs after := by
  have hroot : calling.root.IsCompiled := by
    rw [show calling.root = duetModel by decide +kernel]
    exact isCompiled_duetModel
  have haccepts : (calling.attach replyModel).toOption.isSome = true := by decide +kernel
  obtain ⟨t, hattach⟩ : ∃ t, calling.attach replyModel = .ok t := by
    cases h : calling.attach replyModel with
    | error r =>
      rw [h] at haccepts
      cases haccepts
    | ok t => exact ⟨t, rfl⟩
  obtain ⟨stage, hstage, -, hrun⟩ := run_by_name hroot isCompiled_replyModel hattach
  obtain ⟨ownInputs, ownOutputs, hins, houts, after, hended, hback⟩ :=
    hrun stage.frame 100 100 #[1.0, 2.0, 3.0, 0.5] #[1.0, 2.0, 3.0, 2.0, 0.5]
      (by decide +kernel) (by decide +kernel)
  exact ⟨hroot, isCompiled_replyModel, t, stage, hattach, hstage, ownInputs, ownOutputs, after,
    (hins ownInputs).2 rfl, (houts ownOutputs).2 rfl, hended, (hback after).2 rfl⟩

end Stream

end Behavior
