import Behavior.Proofs.Compiled
import Behavior.Proofs.Faithful

/-!
Evaluating a compiled document leaves what the document means.

The pieces are all there: an evaluation without fault is a walk through the blocks of its level, the
passes keep walks, walks follow checked statements, and these do what the document does. What is left
is that texts of the document are found in the string table.
-/

namespace Behavior

namespace Typed

/-! ## Texts -/

section

variable {names : Names} {T : Tables}

mutual

theorem ExprElaborates.text {scopes : List Scope} {e : Expr} {v : Value}
    (h : ExprElaborates names T scopes e v) {text : String} (ht : text ∈ e.texts) :
    ∃ i, T.strings.findIdx? (· == text) = some i := by
  cases h with
  | str hstring =>
    cases List.mem_singleton.1 ht
    exact ⟨_, hstring⟩
  | vector hnumbers => exact hnumbers.text ht
  | neg hoperand | not hoperand => exact hoperand.text ht
  | binary hleft hright hcombined =>
    rcases List.mem_append.1 ht with ht | ht
    · exact hleft.text ht
    · exact hright.text ht
  | conditional hcondition hthen helse hselected =>
    rcases List.mem_append.1 ht with ht | ht
    · rcases List.mem_append.1 ht with ht | ht
      · exact hcondition.text ht
      · exact hthen.text ht
    · exact helse.text ht
  | call hfunction hargs hcalled => exact hargs.text ht
  | _ => cases ht

theorem NumbersElaborate.text {scopes : List Scope} {items : List Expr} {xs : List Scalar}
    (h : NumbersElaborate names T scopes items xs) {text : String} (ht : text ∈ Expr.allTexts items) :
    ∃ i, T.strings.findIdx? (· == text) = some i := by
  cases h with
  | nil => cases ht
  | cons hhead htail =>
    rcases List.mem_append.1 ht with ht | ht
    · exact hhead.text ht
    · exact htail.text ht

end

mutual

/-- Every expression of a statement elaborates somewhere. -/
theorem StmtElaborates.expr {outer : List Scope} {p p' : Place} {stmt : Behavior.Stmt} {t : Stmt}
    (h : StmtElaborates names T outer p stmt t p') {e : Expr} (he : e ∈ stmt.exprs) :
    ∃ scopes v, ExprElaborates names T scopes e v := by
  cases h with
  | bind hvalue hfits | assignLocal hvalue hfound | assignOutput hvalue hfound hresolved houtput =>
    cases List.mem_singleton.1 he
    exact ⟨_, _, hvalue⟩
  | intent hvalue hurgency hresolved hchannel =>
    rcases List.mem_cons.1 he with rfl | he
    · exact ⟨_, _, hvalue⟩
    · cases List.mem_singleton.1 he
      exact ⟨_, _, hurgency⟩
  | branch hcondition hthen helse =>
    rcases List.mem_cons.1 he with rfl | he
    · exact ⟨_, _, hcondition⟩
    · rcases List.mem_append.1 he with he | he
      · exact hthen.expr he
      · exact helse.expr he
  | loop hcount hfits hbody => exact hbody.expr he
  | wait hseconds =>
    cases List.mem_singleton.1 he
    exact ⟨_, _, hseconds⟩
  | _ => cases he

theorem StmtsElaborate.expr {outer : List Scope} {p p' : Place} {stmts : List Behavior.Stmt}
    {ts : List Stmt} (h : StmtsElaborate names T outer p stmts ts p') {e : Expr}
    (he : e ∈ Stmt.allExprs stmts) : ∃ scopes v, ExprElaborates names T scopes e v := by
  cases h with
  | nil => cases he
  | cons hhead htail =>
    rcases List.mem_append.1 he with he | he
    · exact hhead.expr he
    · exact htail.expr he

end

end

/-! ## Checked documents -/

section

variable {registry : Registry} {d : Document} {p : Program} {names : Names} {graph : FlowGraph}

/-- Every text of a document has its place among the strings. -/
theorem Checked.text (h : Checked registry d p names graph) {text : String} (ht : text ∈ d.texts) :
    ∃ i, p.strings.findIdx? (· == text) = some i := by
  obtain ⟨e, he, ht⟩ := List.mem_flatMap.1 ht
  obtain ⟨flow, hflow, he⟩ := List.mem_flatMap.1 he
  obtain ⟨k, hk⟩ := List.getElem?_of_mem hflow
  obtain ⟨first, -, -, hfirst⟩ := h.flows.exists_ranges
  obtain ⟨t, scope, -, hbody⟩ := hfirst.flow hk
  obtain ⟨scopes, v, hexpr⟩ := hbody.expr he
  exact hexpr.text ht

theorem Checked.elaborated (h : Checked registry d p names graph) {t : Flow} (ht : t ∈ p.flows) :
    ∃ f ∈ d.flows, ∃ n q, StmtsElaborate names p.tables [] ⟨[], n⟩ f.body t.body q := by
  obtain ⟨first, -, -, hfirst⟩ := h.flows.exists_ranges
  obtain ⟨k, hk⟩ := List.getElem?_of_mem ht
  have hlt := (List.getElem?_eq_some_iff.1 hk).1
  rw [h.flows.length_eq] at hlt
  obtain ⟨t', scope, ht', hbody⟩ := hfirst.flow (List.getElem?_eq_getElem hlt)
  cases hk.symm.trans ht'
  exact ⟨_, List.getElem_mem hlt, _, _, hbody⟩

/-- Checked documents can be executed if their values are steady. -/
theorem Checked.executable_of_steady (h : Checked registry d p names graph)
    (hsteady : ∀ flow ∈ p.flows, Stmt.AllSteady flow.body) : p.Executable := by
  refine ⟨h.flows.within (covers_extent _) (Nat.le_refl _), hsteady, fun t ht => ?_⟩
  obtain ⟨f, -, n, q, hbody⟩ := h.elaborated ht
  exact hbody.apart (.start n)

/-- Checked documents without random numbers can be executed. -/
theorem Checked.executable (h : Checked registry d p names graph) (hrandom : d.isRandomFree = true) :
    p.Executable := by
  refine h.executable_of_steady fun t ht => ?_
  obtain ⟨f, hf, n, q, hbody⟩ := h.elaborated ht
  refine hbody.steady fun e he => List.all_eq_true.1 hrandom e ?_
  exact List.mem_flatMap.2 ⟨f, hf, he⟩

theorem flows_ne_nil_of_check (h : check registry d = .ok p) : d.flows ≠ [] := by
  intro hempty
  rw [check, hempty] at h
  cases h

end

end Typed

theorem strings_le_of_compile {registry : Registry} {o : CompileOptions} {d : Document} {m : Model}
    (h : compile registry o d = .ok m) : m.strings.size ≤ Word.maxOperand := by
  obtain ⟨p, hp, hcompiled⟩ := compile_ok h
  obtain ⟨p', hp', h⟩ := bind_eq_ok.1 h
  cases hp.symm.trans hp'
  rw [hcompiled.strings]
  unfold Typed.Program.toModel at h
  dsimp only at h
  split at h
  · next m' hm =>
    split at hm
    · cases hm
    · obtain ⟨a, ha, -⟩ := bind_eq_ok.1 hm
      obtain ⟨⟨⟩, -, ha⟩ := bind_eq_ok.1 ha
      obtain ⟨⟨⟩, -, ha⟩ := bind_eq_ok.1 ha
      obtain ⟨⟨⟩, hstrings, -⟩ := bind_eq_ok.1 ha
      exact Assembly.checkTable_ok hstrings
  · cases h

/-! ## Evaluations -/

/-- What a document refers to when a model of it is evaluated: names are those of the registry, also
through imports, variables have the slots of the model's schema, and a text is its index among the
model's strings. -/
def Document.world (d : Document) (registry : Registry) (m : Model) (inputs : Array Float) :
    Meaning.World where
  names := { registry, imports := d.imports.map (·.namespaceName), flows := [] }
  schema := m.schema
  handle text := Float.ofNat ((m.stringIndex? text).getD 0)
  inputs := inputs

theorem Compiled.fits {registry : Registry} {d : Document} {p : Typed.Program} {names : Typed.Names}
    {graph : FlowGraph} (hp : Typed.Checked registry d p names graph) {level : UInt8} {m : Model}
    (h : Compiled p level m) (inputs : Array Float) :
    Typed.Fits names p.tables (d.world registry m inputs) where
  resolve name := by
    rw [Typed.Names.resolve?, Typed.Names.resolve?, hp.registry, hp.imports]
    rfl
  schema := h.schema
  handle {text i} hi := by
    have hi : m.stringIndex? text = some i := by
      rw [Model.stringIndex?, h.strings]
      exact hi
    show Float.ofNat ((m.stringIndex? text).getD 0) = _
    rw [hi]
    rfl

namespace Evaluator

/-- An evaluation of a compiled document that ends without fault leaves the outputs that the document
means, started from outputs that are all zero. This holds at every level and for every limit. The
document must draw no random numbers and have no continuation points. Its texts are found again from
the numbers that stand for them. -/
theorem evaluate_of_document {registry : Registry} {o : CompileOptions} {d : Document} {m : Model}
    (hm : compile registry o d = .ok m) (hrandom : d.isRandomFree = true)
    (hpoint : d.hasPoint = false) {settings : RunSettings} {e : Evaluator}
    (he : Evaluator.new m settings = .ok e) {inputs outputs : Array Float}
    (hok : (e.evaluate inputs outputs).fault? = none) :
    (d.world registry m inputs).runDocument d (Array.replicate m.outputSize 0.0) e.random =
        some ((e.evaluate inputs outputs).outputs, (e.evaluate inputs outputs).evaluator.random) ∧
      ∀ text ∈ d.texts,
        m.resolveString? ((d.world registry m inputs).handle text) = some text := by
  obtain ⟨p, hp, hcompiled⟩ := compile_ok hm
  obtain ⟨names, graph, hchecked⟩ := Typed.check_ok hp
  obtain ⟨-, rfl⟩ := new_ok he
  constructor
  · obtain ⟨k, w, hruns, houtputs, hrandom'⟩ := hcompiled.evaluate_ok hchecked rfl hok
    obtain ⟨σ, ending, hexec, hrun⟩ := hchecked.run (hcompiled.fits hchecked inputs) hpoint
      (Typed.flows_ne_nil_of_check hp) (Array.replicate m.outputSize 0.0) ⟨settings.seed⟩
    obtain ⟨k', w', hruns', houtputs', hrandom''⟩ := (hchecked.executable hrandom).run hexec
    obtain ⟨rel, hrel⟩ :=
      (p.toBlocks.optimize_improves False o.clamp.level hchecked.within fun h => h.elim).1
    obtain ⟨n, v, hruns₂, hv, -⟩ := hrel.run (hrel.start inputs _ _) hruns'
    obtain ⟨-, rfl⟩ := hruns₂.unique hruns
    obtain ⟨hsame, hsame'⟩ := hrel.observed hv
    rw [hrun, ← houtputs, ← hrandom', hsame, hsame', houtputs', hrandom'']
  · intro text ht
    obtain ⟨i, hi⟩ := hchecked.text ht
    rw [(hcompiled.fits hchecked inputs).handle hi]
    have hi : m.strings.findIdx? (· == text) = some i := hcompiled.strings ▸ hi
    obtain ⟨hlt, htext, -⟩ := Array.findIdx?_eq_some_iff_getElem.1 hi
    have hsize : i < 2 ^ 53 :=
      Nat.lt_of_lt_of_le (Nat.lt_of_lt_of_le hlt (strings_le_of_compile hm)) (by decide)
    rw [Model.resolveString?, Binary64.toNat?_ofNat hsize, Option.bind_some,
      Array.getElem?_eq_getElem hlt, eq_of_beq htext]

/-- A flow that is called and has a local of the same name, a flow that is left for, and a statement
that is never reached. -/
def errand : Document where
  name := "errand"
  flows := [
    ⟨"main", [
      .bind {} "spot" (.vector {} [.var {} "a", .var {} "b", .var {} "a"]),
      .branch {} (.binary {} .lt (.var {} "a") (.var {} "b")) [.call {} "greet"] [.halt {}],
      .assign {} "place" (.var {} "spot"), .goto {} "finish", .assign {} "near" (.var {} "a")], {}⟩,
    ⟨"greet", [.bind {} "spot" (.var {} "b"), .assign {} "near" (.var {} "spot")], {}⟩,
    ⟨"finish", [.wait {} (.var {} "a"), .intent {} "go" (.var {} "b") (.var {} "a")], {}⟩]

def errandRegistry : Registry where
  declared := [("a", ⟨.number, .input⟩), ("b", ⟨.number, .input⟩), ("place", ⟨.vector3, .output⟩),
    ("near", ⟨.number, .output⟩), ("go", ⟨.number, .channel⟩)]

def errandModel : Model where
  id := ⟨1⟩
  version := Model.formatVersion
  flags := {}
  maxStack := 2
  maxCallDepth := 1
  localCount := 4
  entry := 0
  schema := {
    inputs := [⟨"a", .number, 0⟩, ⟨"b", .number, 1⟩]
    outputs := [⟨"place", .vector3, 0⟩, ⟨"near", .number, 3⟩]
    channels := [⟨"go", .number, 4, 5⟩] }
  points := #[]
  constants := #[]
  strings := #["a", "b", "place", "near", "go"]
  code := #[Word.encode .loadInput 0, Word.encode .storeLocal 0, Word.encode .loadInput 1,
    Word.encode .storeLocal 1, Word.encode .loadInput 0, Word.encode .storeLocal 2,
    Word.encode .loadInput 0, Word.encode .loadInput 1, Word.encode (.binary .lt) 0,
    Word.encode .jumpIfFalse 12, Word.encode .call 23, Word.encode .jump 13, Word.encode .halt 0,
    Word.encode .loadLocal 0, Word.encode .storeOutput 0, Word.encode .loadLocal 1,
    Word.encode .storeOutput 1, Word.encode .loadLocal 2, Word.encode .storeOutput 2,
    Word.encode .jump 28, Word.encode .loadInput 0, Word.encode .storeOutput 3, Word.encode .ret 0,
    Word.encode .loadInput 1, Word.encode .storeLocal 3, Word.encode .loadLocal 3,
    Word.encode .storeOutput 3, Word.encode .ret 0, Word.encode .loadInput 0, Word.encode .wait 0,
    Word.encode .loadInput 1, Word.encode .storeOutput 4, Word.encode .loadInput 0,
    Word.encode .storeOutput 5, Word.encode .ret 0]
  extends? := none
  debug? := none

theorem evaluate_of_document_errand :
    let e : Evaluator := ⟨errandModel, 100000, ⟨0⟩⟩
    let zeros : Array Float := Array.replicate errandModel.outputSize 0.0
    compile errandRegistry { level := 0, id? := some ⟨1⟩ } errand = .ok errandModel ∧
      errand.isRandomFree = true ∧ errand.hasPoint = false ∧ new errandModel {} = .ok e ∧
      (e.evaluate #[2.0, 3.0] zeros).fault? = none ∧
      (errand.world errandRegistry errandModel #[2.0, 3.0]).runDocument errand zeros e.random =
        some ((e.evaluate #[2.0, 3.0] zeros).outputs, ⟨0⟩) := by
  intro e zeros
  have hm : compile errandRegistry { level := 0, id? := some ⟨1⟩ } errand = .ok errandModel := by cbv
  have hnew : new errandModel {} = .ok e := rfl
  have hok : (e.evaluate #[2.0, 3.0] zeros).fault? = none := by decide +kernel
  have hrandom : (e.evaluate #[2.0, 3.0] zeros).evaluator.random = ⟨0⟩ := by decide +kernel
  have hrun := (evaluate_of_document hm (by decide) (by decide) hnew hok).1
  rw [hrandom] at hrun
  exact ⟨hm, by decide, by decide, hnew, hok, hrun⟩

end Evaluator

end Behavior
