import Behavior.Proofs.Correctness
import Behavior.Proofs.TextSurvival

/-!
Texts along a chain of extensions.

A stream numbers the texts of all its models in one table, which is added to with each extension
that is accepted. The stage that runs keeps the table of its own time, so two of them are about
while an extension waits to take over: the current one is the beginning of the published one.
-/

namespace Behavior

variable {text : String} {outputs inputs : Array Float} {slot : Nat}

/-! ## Compiled models -/

/-- Some document compiles to the model. -/
def Model.IsCompiled (m : Model) : Prop :=
  ∃ registry options document, compile registry options document = .ok m

namespace Model.IsCompiled

variable {m : Model}

theorem regular (h : m.IsCompiled) : m.schema.Regular := by
  obtain ⟨registry, o, d, h⟩ := h
  have hsuits := suits_of_compile h
  exact ⟨hsuits.outputs, hsuits.channels, hsuits.urgency, hsuits.layout⟩

theorem nodup_strings (h : m.IsCompiled) : m.strings.toList.Nodup := by
  obtain ⟨registry, o, d, h⟩ := h
  exact nodup_strings_of_compile h

theorem size_strings_le (h : m.IsCompiled) : m.strings.size ≤ Word.maxOperand := by
  obtain ⟨registry, o, d, h⟩ := h
  exact strings_le_of_compile h

theorem textsApart (h : m.IsCompiled) : m.TextsApart :=
  ⟨h.regular.nodup_texts.1, h.regular.nodup_texts.2, h.size_strings_le.trans_lt (by decide)⟩

end Model.IsCompiled

/-- A document compiles if its flows are fine, none of them leads back to itself, and the program
fits into a model. -/
theorem Model.IsCompiled.of_acyclic (registry : Registry) (o : CompileOptions) (d : Document)
    (depth : Nat) {edges : List (List (Nat × Passage))} {m : Model}
    (hflows : d.flows.isEmpty = false)
    (hproblems : ((Typed.checkFlows registry d).run {}).2.problems.isEmpty = true)
    (hedges : ((Typed.checkFlows registry d).run {}).1.map (·.2) = edges)
    (hrecursive : FlowGraph.recursive ⟨edges.toArray⟩ = [])
    (hdepth : FlowGraph.callDepth ⟨edges.toArray⟩ = depth) (hle : depth ≤ 0xffff)
    (hm : ((Typed.programOf registry d depth).toModel o.clamp
      (o.clamp.id?.getD (.ofName d.name))).toOption = some m) : m.IsCompiled :=
  ⟨registry, o, d, compile_of_toModel
    (Typed.check_of_acyclic hflows hproblems hedges hrecursive hdepth hle) hm⟩

/-! ## One stage -/

namespace Stage

/-- How the extension behind a bridge sees the texts of the stream. -/
structure Understands (stage : Stage) (b : Bridge) : Prop where
  /-- It tells indices of the stream's table apart. -/
  apart : ∀ i < stage.strings.size, ∀ j < stage.strings.size,
    b.strings.enter (Float.ofNat i) = b.strings.enter (Float.ofNat j) ↔ i = j
  /-- It takes an index for one of its own if the texts are the same, and only then. -/
  shared : ∀ i < stage.strings.size, ∀ e < stage.model.strings.size,
    b.strings.enter (Float.ofNat i) = Float.ofNat e ↔ stage.strings[i]? = stage.model.strings[e]?
  /-- What it finds in the input for a text stands for this text. -/
  found : ∀ {own slot i : Nat} {text : String} {inputs : Array Float} (outputs : Array Float),
    own ∈ stage.model.schema.textInputs → b.inputs[own]? = some slot →
    inputs[slot]? = some (Float.ofNat i) → stage.strings[i]? = some text →
    ∃ x, (stage.enter inputs outputs).1[own]? = some x ∧
      b.strings.Denotes stage.strings stage.model.strings x text
  /-- It compares texts when it compares what stands for them. -/
  compared : ∀ {x y : Float} {text other : String},
    b.strings.Denotes stage.strings stage.model.strings x text →
    b.strings.Denotes stage.strings stage.model.strings y other →
    BinaryFn.eq.apply x y = truthValue (text == other) ∧
      BinaryFn.ne.apply x y = truthValue (text != other)

section

variable {root : Model} {stage : Stage} {b : Bridge}

theorem Joined.exact (hstage : stage.Joined root Model.IsCompiled) (hb : stage.bridge? = some b)
    (hnodup : stage.strings.toList.Nodup) (hsize : stage.strings.size < StringMap.indexBound) :
    b.strings.Exact stage.strings stage.model.strings := by
  obtain ⟨hcompiled, table, hjoins⟩ := hstage b hb
  obtain ⟨hmatches, -⟩ := StringMap.Matches.of_build hjoins.strings
  exact ⟨hmatches, hnodup, hcompiled.nodup_strings, hsize, hcompiled.textsApart.strings⟩

theorem Understands.of_exact (hstage : stage.Joined root Model.IsCompiled)
    (hb : stage.bridge? = some b)
    (h : b.strings.Exact stage.strings stage.model.strings) : stage.Understands b where
  apart _ hi _ hj := h.enter_inj hi hj
  shared _ hi _ he := h.enter_eq_ofNat hi he
  found := by
    intro own slot i text inputs outputs hown hslot hinput htext
    obtain ⟨hcompiled, table, hjoins⟩ := hstage b hb
    refine ⟨b.strings.enter (Float.ofNat i), ?_, .entered htext⟩
    simp only [enter, hb]
    rw [b.getElem?_readInputs, hslot, Option.map_some, Array.getD_eq_getD_getElem?, hinput,
      Option.getD_some, (Bridge.build_ok hjoins.built).2.2.1,
      List.count_eq_one_of_mem hcompiled.textsApart.inputs hown]
    rfl
  compared := by
    intro x y text other hx hy
    have hbeq := h.beq_eq hx hy
    exact ⟨congrArg truthValue hbeq, congrArg (fun same => truthValue (!same)) hbeq⟩

/-- What an extension has left in a slot for a text is the index of the text for the stream. -/
theorem exists_text_of_run (hroot : root.IsCompiled) (hstage : stage.Joined root Model.IsCompiled)
    (hb : stage.bridge? = some b) (h : b.strings.Exact stage.strings stage.model.strings)
    {limit fuel own : Nat} {x : Float} (hown : own ∈ stage.model.schema.textOutputs)
    (hleads : b.outputs[own]? = some slot) (hslot : slot < outputs.size)
    (hfinal : (stage.final limit fuel inputs outputs).outputs[own]? = some x)
    (hx : b.strings.Denotes stage.strings stage.model.strings x text) :
    ∃ k, stage.strings[k]? = some text ∧
      (stage.run limit fuel inputs outputs).outputs[slot]? = some (Float.ofNat k) := by
  obtain ⟨hcompiled, table, hjoins⟩ := hstage b hb
  obtain ⟨k, hk, hleave⟩ := h.leave hx
  refine ⟨k, hk, ?_⟩
  rw [outputs_run]
  simp only [write, hb]
  obtain ⟨own', x', hleads', hfinal', hafter⟩ | ⟨hnone, -⟩ :=
    b.writeOutputs_cases (stage.final limit fuel inputs outputs).outputs hslot
  · -- no other slot of the extension leads there
    obtain rfl := Bridge.outputs_inj hjoins.built hroot.regular hcompiled.regular hleads' hleads
    obtain rfl : x' = x := Option.some.inj (hfinal'.symm.trans hfinal)
    rw [hafter, (Bridge.build_ok hjoins.built).2.2.2,
      List.count_eq_one_of_mem hcompiled.textsApart.outputs hown]
    exact congrArg some hleave
  · cases (hnone own hleads).symm.trans hfinal

end

end Stage

namespace Stream

variable {root : Model}

/-! ## Tables -/

/-- What is known of the tables of a stream, if the current one begins with some texts. -/
structure Tabled (texts : List String) (s : Stream) : Prop where
  kept : texts <+: s.stage.strings.toList
  /-- The current table is the beginning of the published one. -/
  stage : s.stage.strings.toList <+: s.strings.toList
  incoming : ∀ stage, s.incoming? = some stage → stage.strings = s.strings
  nodup : s.strings.toList.Nodup

namespace Tabled

variable {texts : List String} {s : Stream}

theorem new {m : Model} (h : m.strings.toList.Nodup) (settings : StreamSettings) :
    (new m settings).Tabled m.strings.toList :=
  ⟨List.prefix_rfl, List.prefix_rfl, nofun, h⟩

theorem current (h : s.Tabled texts) : s.Tabled s.stage.strings.toList :=
  { h with kept := List.prefix_rfl }

theorem nodup_stage (h : s.Tabled texts) : s.stage.strings.toList.Nodup :=
  h.nodup.sublist h.stage.sublist

theorem size_stage_lt (h : s.Tabled texts) {bound : Nat} (hs : s.strings.size < bound) :
    s.stage.strings.size < bound :=
  h.stage.length_le.trans_lt hs

theorem invariant (texts : List String) : Invariant (fun _ => True) (Tabled texts) where
  same := by
    rintro s t hs ⟨-, ⟨frame, hstage⟩, hincoming, hstrings, -⟩
    refine ⟨?_, ?_, hincoming ▸ hstrings ▸ hs.incoming, hstrings ▸ hs.nodup⟩
    · rw [hstage]
      exact hs.kept
    · rw [hstage, hstrings]
      exact hs.stage
  takeOver := by
    intro s stage hs hincoming
    have heq := hs.incoming stage hincoming
    refine ⟨?_, ?_, nofun, hs.nodup⟩
    · show texts <+: stage.strings.toList
      rw [heq]
      exact hs.kept.trans hs.stage
    · show stage.strings.toList <+: s.strings.toList
      rw [heq]
  attach := by
    intro s t m hs _ h
    obtain ⟨a, p, strings, bridge, -, -, hjoins, rfl⟩ := attach_ok h
    obtain ⟨-, hgrows, hnodup⟩ := StringMap.Matches.of_build hjoins.strings
    refine ⟨hs.kept, hs.stage.trans hgrows, ?_, hnodup hs.nodup⟩
    rintro stage ⟨⟩
    rfl

/-- An index that was valid keeps its text. -/
theorem resolveString?_eq (h : s.Tabled texts) {table : Array String}
    (htexts : table.toList = texts) {value : Float} {k : Nat}
    (hvalue : Binary64.toNat? value = some k) (hk : table[k]? = some text) :
    s.resolveString? value = some text := by
  rw [resolveString?, hvalue, Option.bind_some]
  exact getElem?_of_prefix (htexts ▸ h.kept) hk

end Tabled

/-- Only an extension that is accepted changes the published table. -/
theorem strings_invariant (table : Array String) :
    Invariant (fun _ => False) (fun s => s.strings = table) where
  same hs hsame := hsame.strings.trans hs
  takeOver hs _ := hs
  attach _ hm _ := hm.elim

/-- Every model adds as many texts as it can number, at most. -/
theorem size_strings_invariant :
    Invariant (fun m => m.strings.size ≤ Word.maxOperand)
      (fun s => s.strings.size ≤ s.lineage.length * Word.maxOperand) where
  same := by
    rintro s t hs ⟨-, -, -, hstrings, hlineage⟩
    rw [hstrings, hlineage]
    exact hs
  takeOver hs _ := hs
  attach := by
    intro s t m hs hm h
    obtain ⟨a, p, strings, bridge, -, -, hjoins, rfl⟩ := attach_ok h
    have hsize : strings.size ≤ s.strings.size + m.strings.size := by
      have hle := StringMap.size_indexAll_le s.strings m.strings.toList #[]
      rwa [show (StringMap.indexAll s.strings m.strings.toList #[]).2 = strings from
        congrArg Prod.fst hjoins.strings] at hle
    show strings.size ≤ (s.lineage.length + 1) * Word.maxOperand
    rw [Nat.succ_mul]
    omega

/-- In a chain of the length that is usual, all texts can be numbered. -/
theorem size_strings_lt {settings : StreamSettings} {events : List Event} (hroot : root.IsCompiled)
    (hevents : ∀ m ∈ (new root settings).accepted events, m.IsCompiled)
    (hchain : settings.maxChain < 256) :
    ((new root settings).after events).strings.size < StringMap.indexBound := by
  have hstart : (new root settings).strings.size ≤
      (new root settings).lineage.length * Word.maxOperand := by
    show root.strings.size ≤ 1 * Word.maxOperand
    rw [Nat.one_mul]
    exact hroot.size_strings_le
  have hkept := (Kept.new root settings).after events
  have hlength := hkept.chained.length_le
  rw [hkept.settings_eq] at hlength
  calc ((new root settings).after events).strings.size
      ≤ ((new root settings).after events).lineage.length * Word.maxOperand :=
        size_strings_invariant.after hstart fun m hm => (hevents m hm).size_strings_le
    _ ≤ 256 * Word.maxOperand := Nat.mul_le_mul_right _ (hlength.trans hchain)
    _ < StringMap.indexBound := by decide

/-! ## Chains of extensions -/

/-- The extension that runs next ends with this text in an output, by an index of its own or by one
that it has been given. -/
def Turn.Leaves (inputs : Array Float) (slot : Nat) (text : String) (c : Turn) : Prop :=
  ∃ t b own x, c.stream.ready = .ok t ∧ t.stage.bridge? = some b ∧
    own ∈ t.stage.model.schema.textOutputs ∧ b.outputs[own]? = some slot ∧
    (t.stage.final t.settings.run.instructionLimit.toNat c.fuel inputs c.outputs).outputs[own]? =
      some x ∧
    b.strings.Denotes t.stage.strings t.stage.model.strings x text

theorem ComesTo.exists_text {s : Stream} {texts : List String} {dt : Duration} {c : Turn}
    (hroot : root.IsCompiled) (hs : s.Joined root Model.IsCompiled) (htabled : s.Tabled texts)
    (hsize : s.strings.size < StringMap.indexBound) (hc : s.ComesTo dt inputs outputs c)
    (hleaves : c.Leaves inputs slot text)
    (hspares : ∀ d, Relation.TransGen (Turn.Next inputs) c d → d.Spares inputs slot) :
    ∃ value, (s.advance dt inputs outputs).outputs[slot]? = some value ∧
      (s.advance dt inputs outputs).stream.resolveString? value = some text := by
  have hjoined := Joined.invariant root Model.IsCompiled
  obtain ⟨t, b, own, x, hready, hb, hown, hleads, hfinal, hx⟩ := hleaves
  have ht := hjoined.ready (hjoined.turns (hjoined.enter hs dt outputs) hc.turns) hready
  have httabled := (Tabled.invariant texts).ready
    ((Tabled.invariant texts).turns ((Tabled.invariant texts).enter htabled dt outputs) hc.turns)
    hready
  have htsize : t.stage.strings.size < StringMap.indexBound := by
    have hstrings := strings_invariant s.strings
    have heq := hstrings.ready (hstrings.turns (hstrings.enter rfl dt outputs) hc.turns) hready
    exact httabled.size_stage_lt (heq ▸ hsize)
  obtain ⟨k, hk, hrun⟩ := Stage.exists_text_of_run hroot ht.stage hb
    (ht.stage.exact hb httabled.nodup_stage htsize) hown hleads (hc.lt_size hs hready hb hleads)
    hfinal hx
  have hk' : k < 2 ^ 53 :=
    ((Array.getElem?_eq_some_iff.1 hk).1.trans htsize).trans (by decide)
  obtain ⟨value, hvalue, halike⟩ := hc.survives_of_run
    (hs.imp fun _ => Model.IsCompiled.textsApart) hready hspares _ hrun
    (Binary64.not_isNegativeWhole_ofNat hk')
  refine ⟨value, hvalue, ?_⟩
  have hafter : (s.advance dt inputs outputs).stream.Tabled t.stage.strings.toList := by
    rw [hc.toRuns.advance_eq dt, ← Turn.proceed_eq_of_turns hc.turns]
    exact (Tabled.invariant _).same
      ((Tabled.invariant _).proceed_of_ready hready httabled.current) (.settle _)
  exact hafter.resolveString?_eq rfl (halike.toNat?_eq.trans (Binary64.toNat?_ofNat hk')) hk

/-- Along every chain of compiled extensions, tables are added to at the end and have each text
once, so an index keeps its text. As long as the texts can be numbered, which they always can in
chains of the usual length, an extension tells texts apart as the stream does, and a text that it
leaves in an output is there for the stream. -/
theorem texts_along_chain {root : Model} {settings : StreamSettings} {events : List Event}
    (hroot : root.IsCompiled)
    (hevents : ∀ m ∈ (new root settings).accepted events, m.IsCompiled) :
    let s := (new root settings).after events
    (root.strings.toList <+: s.stage.strings.toList ∧
      s.stage.strings.toList <+: s.strings.toList ∧ s.strings.toList.Nodup ∧
      ∀ more, s.stage.strings.toList <+: (s.after more).stage.strings.toList ∧
        ∀ value text, s.resolveString? value = some text →
          (s.after more).resolveString? value = some text) ∧
    (settings.maxChain < 256 ∨ s.strings.size < StringMap.indexBound →
      (∀ stage b, stage = s.stage ∨ s.incoming? = some stage → stage.bridge? = some b →
        stage.Understands b) ∧
      ∀ (dt : Duration) (inputs outputs : Array Float) (c : Turn) (slot : Nat) (text : String),
        s.ComesTo dt inputs outputs c → c.Leaves inputs slot text →
        (∀ d, Relation.TransGen (Turn.Next inputs) c d → d.Spares inputs slot) →
        ∃ value, (s.advance dt inputs outputs).outputs[slot]? = some value ∧
          (s.advance dt inputs outputs).stream.resolveString? value = some text) := by
  intro s
  have hs : s.Joined root Model.IsCompiled :=
    (Joined.invariant root _).after (.new root settings _) hevents
  have htabled : s.Tabled root.strings.toList :=
    (Tabled.invariant _).after (.new hroot.nodup_strings settings) fun _ _ => trivial
  refine ⟨⟨htabled.kept, htabled.stage, htabled.nodup, fun more => ?_⟩, fun hnumbered => ?_⟩
  · have hmore : (s.after more).Tabled s.stage.strings.toList :=
      (Tabled.invariant _).after htabled.current fun _ _ => trivial
    refine ⟨hmore.kept, fun value text htext => ?_⟩
    obtain ⟨k, hvalue, hk⟩ := Option.bind_eq_some_iff.1 htext
    exact hmore.resolveString?_eq rfl hvalue hk
  · have hsize : s.strings.size < StringMap.indexBound :=
      hnumbered.elim (size_strings_lt hroot hevents) id
    refine ⟨?_, fun dt inputs outputs c slot text hc hleaves hspares =>
      hc.exists_text hroot hs htabled hsize hleaves hspares⟩
    rintro stage b (rfl | hincoming) hb
    · exact .of_exact hs.stage hb
        (hs.stage.exact hb htabled.nodup_stage (htabled.size_stage_lt hsize))
    · have hstage := hs.incoming stage hincoming
      have heq := htabled.incoming stage hincoming
      exact .of_exact hstage hb (hstage.exact hb (heq ▸ htabled.nodup) (heq ▸ hsize))

/-- Shows a scene to those who are glad, and waits for a continuation. -/
def story : Document where
  name := "story"
  flows := [
    ⟨"main", [
      .branch {} (.binary {} .eq (.var {} "mood") (.str {} "glad"))
        [.assign {} "scene" (.str {} "intro")] [],
      .continuation {} "choice" 1.0 "ending"], {}⟩,
    ⟨"ending", [], {}⟩]

/-- Continues `story`, with one text of its own and others under other indices. -/
def sequel : Document where
  name := "sequel"
  extends? := some ⟨"story", "choice"⟩
  flows := [⟨"main", [
    .branch {} (.binary {} .eq (.str {} "glad") (.var {} "mood"))
      [.assign {} "scene" (.str {} "bonus")] []], {}⟩]

def storyRegistry : Registry where
  declared := [("mood", ⟨.string, .input⟩), ("scene", ⟨.string, .output⟩)]

def storyModel : Model where
  id := .ofName "story"
  version := Model.formatVersion
  flags := .continuationPoints
  maxStack := 2
  maxCallDepth := 0
  localCount := 0
  entry := 0
  schema := { inputs := [⟨"mood", .string, 0⟩], outputs := [⟨"scene", .string, 0⟩] }
  points := #[⟨"choice", nameHash "choice", 1000, 8, 6⟩]
  constants := #[.ofFloat 1.0, .ofFloat 2.0]
  strings := #["mood", "glad", "intro", "scene", "choice"]
  code := #[Word.encode .loadInput 0, Word.encode .pushConst 0, Word.encode (.binary .eq) 0,
    Word.encode .jumpIfFalse 6, Word.encode .pushConst 1, Word.encode .storeOutput 0,
    Word.encode .pause 0, Word.encode .ret 0, Word.encode .ret 0]
  extends? := none
  debug? := none

def sequelModel : Model where
  id := .ofName "sequel"
  version := Model.formatVersion
  flags := .isExtension
  maxStack := 2
  maxCallDepth := 0
  localCount := 0
  entry := 0
  schema := { inputs := [⟨"mood", .string, 0⟩], outputs := [⟨"scene", .string, 0⟩] }
  points := #[]
  constants := #[.ofFloat 0.0, .ofFloat 2.0]
  strings := #["glad", "mood", "bonus", "scene"]
  code := #[Word.encode .pushConst 0, Word.encode .loadInput 0, Word.encode (.binary .eq) 0,
    Word.encode .jumpIfFalse 6, Word.encode .pushConst 1, Word.encode .storeOutput 0,
    Word.encode .ret 0]
  extends? := some ⟨.ofName "story", nameHash "choice"⟩
  debug? := none

theorem isCompiled_storyModel : storyModel.IsCompiled := by
  have hrecursive : FlowGraph.recursive ⟨#[[(1, .jump)], []]⟩ = [] := by cbv
  exact .of_acyclic storyRegistry { level := 0 } story 0 rfl (by decide +kernel) (by decide +kernel)
    hrecursive (by decide +kernel) (by decide) (by decide +kernel)

theorem isCompiled_sequelModel : sequelModel.IsCompiled := by
  have hrecursive : FlowGraph.recursive ⟨#[[]]⟩ = [] := by cbv
  exact .of_acyclic storyRegistry { level := 0 } sequel 0 rfl (by decide +kernel) (by decide +kernel)
    hrecursive (by decide +kernel) (by decide) (by decide +kernel)

/-- `storyModel` at its point, with `sequelModel` attached. -/
def told : Stream :=
  (new storyModel {}).after [.advance .zero #[1.0] #[0.0], .attach sequelModel]

/-- What `sequelModel` does when it runs: it leaves its own text `bonus` as the scene, and is
done. -/
def tells (c : Turn) (inputs : Array Float) (t : Stream) : Bool :=
  let limit := t.settings.run.instructionLimit.toNat
  t.stage.bridge?.any (fun b => b.outputs == #[0]) &&
    t.stage.model.schema.textOutputs == [0] &&
    t.stage.model.strings[2]? == some "bonus" &&
    decide ((t.stage.final limit c.fuel inputs c.outputs).outputs[0]? = some (Float.ofNat 2)) &&
    match t.stage.run limit c.fuel inputs c.outputs with
    | .stopped .halt _ _ _ => true
    | _ => false

/-- The mood is given by the index that the text has in the stream, where it is another one than in
the extension. The scene is a text that the stream did not have. -/
theorem texts_along_chain_story :
    storyModel.IsCompiled ∧ sequelModel.IsCompiled ∧
      told.incoming?.map (·.model) = some sequelModel ∧
      storyModel.strings.toList <+: told.stage.strings.toList ∧
      told.strings = #["mood", "glad", "intro", "scene", "choice", "bonus"] ∧
      (∀ stage b, told.incoming? = some stage → stage.bridge? = some b → stage.Understands b) ∧
      ∃ value, (told.advance .zero #[1.0] #[0.0]).outputs[0]? = some value ∧
        (told.advance .zero #[1.0] #[0.0]).stream.resolveString? value = some "bonus" := by
  have haccepted : ∀ m ∈ (new storyModel {}).accepted
      [.advance .zero #[1.0] #[0.0], .attach sequelModel], m.IsCompiled := by
    intro m hm
    rcases List.mem_cons.1 (attach_mem_of_accepted hm) with hm | hm
    · cases hm
    · cases List.mem_singleton.1 hm
      exact isCompiled_sequelModel
  obtain ⟨⟨hkept, -⟩, hchain⟩ := texts_along_chain isCompiled_storyModel haccepted
  obtain ⟨hunderstands, hleaves⟩ := hchain (.inl (by decide))
  have hruns : told.Runs #[1.0] #[0.0] :=
    ⟨by decide +kernel, by decide +kernel, by decide +kernel, by decide +kernel⟩
  have htells : (told.enter .zero #[0.0]).stream.ready.toOption.any
      (tells (told.enter .zero #[0.0]) #[1.0]) = true := by decide +kernel
  obtain ⟨t, hready, htells⟩ := exists_ready_of_any htells
  simp only [tells, Bool.and_eq_true, beq_iff_eq, decide_eq_true_eq] at htells
  obtain ⟨⟨⟨⟨hbridge, htexts⟩, hbonus⟩, hfinal⟩, hhalts⟩ := htells
  obtain ⟨b, hb, houtputs⟩ := (Option.any_eq_true _ _).1 hbridge
  refine ⟨isCompiled_storyModel, isCompiled_sequelModel, by decide +kernel, hkept,
    by decide +kernel, fun stage b hstage => hunderstands stage b (.inr hstage), ?_⟩
  refine hleaves .zero #[1.0] #[0.0] _ 0 "bonus" ⟨hruns, .refl⟩
    ⟨t, b, 0, _, hready, hb, ?_, ?_, hfinal, .own hbonus⟩ fun d hd => ?_
  · rw [htexts]
    exact List.mem_singleton_self 0
  · rw [eq_of_beq houtputs]
    rfl
  · obtain ⟨e, he, -⟩ := Relation.TransGen.head'_iff.1 hd
    split at hhalts
    · next hrun => exact absurd he (Turn.not_next_of_halt hready hrun e)
    · cases hhalts

end Stream

end Behavior
