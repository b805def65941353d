import Behavior.Proofs.LocalStores

/-!
Which slots of a model belong to what. Slots are sixteen-bit numbers in a model, while they are
handed out as numbers without a bound; a document that needs too many of them is not compiled, so
nothing ends up in the slots of something else.
-/

namespace Behavior

/-! ## Ranges -/

namespace Schema

/-- Ranges share out the slots below a size: no slot is in two of them, and each is in one. -/
structure Partitions (ranges : List (Nat × Nat)) (size : Nat) : Prop where
  apart : ranges.Pairwise fun a b => a.1 + a.2 ≤ b.1 ∨ b.1 + b.2 ≤ a.1
  within : ∀ r ∈ ranges, r.1 + r.2 ≤ size
  covers : ∀ slot < size, ∃ r ∈ ranges, r.1 ≤ slot ∧ slot < r.1 + r.2

section

variable {start middle stop size : Nat} {ranges others : List (Nat × Nat)}

theorem EndToEnd.append (h : EndToEnd start ranges middle) (h' : EndToEnd middle others stop) :
    EndToEnd start (ranges ++ others) stop := by
  induction ranges generalizing start with
  | nil =>
    cases h
    exact h'
  | cons range rest ih => exact ⟨h.1, ih h.2⟩

/-- Slots one by one. -/
theorem EndToEnd.range' (start count : Nat) :
    EndToEnd start ((List.range' start count).map (·, 1)) (start + count) := by
  induction count generalizing start with
  | zero => rfl
  | succ count ih =>
    rw [List.range'_succ, List.map_cons, ← Nat.add_assoc, Nat.add_right_comm]
    exact ⟨rfl, ih (start + 1)⟩

theorem EndToEnd.partitions (h : EndToEnd 0 ranges size) : Partitions ranges size where
  apart := h.pairwise.imp .inl
  within r hr := (h.bounds (show (r.1, r.2) ∈ ranges from hr)).2
  covers _ hslot := h.exists_mem (Nat.zero_le _) hslot

theorem Partitions.perm (h : Partitions ranges size) (hperm : ranges.Perm others) :
    Partitions others size where
  apart := (hperm.pairwise_iff fun hapart => hapart.symm).1 h.apart
  within r hr := h.within r (hperm.mem_iff.2 hr)
  covers slot hslot := by
    obtain ⟨r, hr, hcovers⟩ := h.covers slot hslot
    exact ⟨r, hperm.mem_iff.1 hr, hcovers⟩

/-- Ranges can be divided further. -/
theorem Partitions.flatMap {α : Type} {xs : List α} {range : α → Nat × Nat}
    {parts : α → List (Nat × Nat)} (h : Partitions (xs.map range) size)
    (hparts : ∀ x ∈ xs, EndToEnd (range x).1 (parts x) ((range x).1 + (range x).2)) :
    Partitions (xs.flatMap parts) size := by
  refine ⟨?_, ?_, ?_⟩
  · refine List.pairwise_flatMap.2 ⟨fun x hx => (hparts x hx).pairwise.imp .inl, ?_⟩
    refine (List.pairwise_map.1 h.apart).imp_of_mem ?_
    intro x y hx hy hapart a ha b hb
    have hbounds := (hparts x hx).bounds (show (a.1, a.2) ∈ _ from ha)
    have hbounds' := (hparts y hy).bounds (show (b.1, b.2) ∈ _ from hb)
    omega
  · intro r hr
    obtain ⟨x, hx, hr⟩ := List.mem_flatMap.1 hr
    have hle := h.within _ (List.mem_map_of_mem hx)
    exact Nat.le_trans ((hparts x hx).bounds (show (r.1, r.2) ∈ _ from hr)).2 hle
  · intro slot hslot
    obtain ⟨r, hr, hle, hlt⟩ := h.covers slot hslot
    obtain ⟨x, hx, rfl⟩ := List.mem_map.1 hr
    obtain ⟨part, hpart, hcovers⟩ := (hparts x hx).exists_mem hle hlt
    exact ⟨part, List.mem_flatMap.2 ⟨x, hx, hpart⟩, hcovers⟩

end

/-! ## Variables -/

/-- The slots of a channel: those of its value, and that of its urgency. -/
def Channel.ranges (c : Channel) : List (Nat × Nat) :=
  [(c.valueSlot.toNat, c.type.width), (c.urgencySlot.toNat, 1)]

/-- Every slot of the vectors belongs to one variable, and every variable has one name. -/
structure SharedOut (s : Schema) : Prop where
  inputs : Partitions (s.inputs.map Entry.range) s.inputSize
  outputs : Partitions (s.outputs.map Entry.range ++ s.channels.flatMap Channel.ranges) s.outputSize
  names : (s.inputs.map (·.name) ++ (s.outputs.map (·.name) ++ s.channels.map (·.name))).Nodup
  inputSize_le : s.inputSize ≤ 0xffff
  outputSize_le : s.outputSize ≤ 0xffff

theorem LaidOut.partitions {s : Schema} (h : s.LaidOut)
    (hurgency : ∀ c ∈ s.channels, c.urgencySlot.toNat = c.valueStop) :
    Partitions (s.outputs.map Entry.range ++ s.channels.flatMap Channel.ranges) s.outputSize := by
  obtain ⟨order, hperm, horder⟩ := h.outputs
  let whole : List ((Nat × Nat) × List (Nat × Nat)) :=
    s.outputs.map (fun e => (e.range, [e.range])) ++ s.channels.map fun c => (c.range, c.ranges)
  have hranges : whole.map Prod.fst = s.outputs.map Entry.range ++ s.channels.map Channel.range := by
    simp only [whole, List.map_append, List.map_map]
    rfl
  have hparts : whole.flatMap Prod.snd =
      s.outputs.map Entry.range ++ s.channels.flatMap Channel.ranges := by
    rw [List.flatMap_append, List.flatMap_map, List.flatMap_map, List.map_eq_flatMap]
  rw [← hparts]
  refine Partitions.flatMap (hranges ▸ horder.partitions.perm hperm) ?_
  intro x hx
  rcases List.mem_append.1 hx with hx | hx
  · obtain ⟨e, -, rfl⟩ := List.mem_map.1 hx
    exact ⟨rfl, rfl⟩
  · obtain ⟨c, hc, rfl⟩ := List.mem_map.1 hx
    exact ⟨rfl, hurgency c hc, rfl⟩

/-- The first slot of a variable. -/
def slot? (s : Schema) (access : Access) (name : String) : Option Nat :=
  match access with
  | .input => (s.input? name).map (·.slot.toNat)
  | .output => (s.output? name).map (·.slot.toNat)
  | .channel => (s.channel? name).map (·.valueSlot.toNat)

end Schema

namespace Typed

variable {registry : Registry} {names : Names} {T : Tables} {slot : Nat}

/-- A name is declared once, so it is that of an input, an output or a channel. -/
theorem ne_of_access_ne {a b : String} {x y : Variable} (ha : registry.lookup a = some x)
    (hb : registry.lookup b = some y) (h : x.access ≠ y.access) : a ≠ b := by
  rintro rfl
  cases ha.symm.trans hb
  exact h rfl

theorem Suits.nodup_names {s : Schema} (h : Suits registry s) :
    (s.inputs.map (·.name) ++ (s.outputs.map (·.name) ++ s.channels.map (·.name))).Nodup := by
  refine List.nodup_append.2 ⟨h.inputs, List.nodup_append.2 ⟨h.outputs, h.channels, ?_⟩, ?_⟩
  · intro a ha b hb
    obtain ⟨e, he, rfl⟩ := List.mem_map.1 ha
    obtain ⟨c, hc, rfl⟩ := List.mem_map.1 hb
    exact ne_of_access_ne (h.output e he) (h.channel c hc) nofun
  · intro a ha b hb
    obtain ⟨e, he, rfl⟩ := List.mem_map.1 ha
    rcases List.mem_append.1 hb with hb | hb
    · obtain ⟨e', he', rfl⟩ := List.mem_map.1 hb
      exact ne_of_access_ne (h.input e he) (h.output e' he') nofun
    · obtain ⟨c, hc, rfl⟩ := List.mem_map.1 hb
      exact ne_of_access_ne (h.input e he) (h.channel c hc) nofun

/-- The variables of a document share out the vectors of its model. -/
theorem Suits.sharedOut (h : Suits registry T.schema) (hT : T.Regular) : T.schema.SharedOut where
  inputs := h.layout.inputs.partitions
  outputs := h.layout.partitions h.urgency
  names := h.nodup_names
  inputSize_le := hT.inputSize
  outputSize_le := hT.outputSize

/-! ## References -/

/-- A name in a document leads to a variable of the registry, which is found in a slot: an input that
is read, an output that is assigned, or a channel that an intent is sent to. -/
inductive RefersTo (names : Names) (T : Tables) (name : String) : Nat → Prop
  | input {scopes : List Scope} {span : Span} {type : ValueType} {slot : Nat}
      (hfound : find scopes name = none)
      (h : ExprElaborates names T scopes (.var span name) (.ofInput type slot)) :
      RefersTo names T name slot
  | output {outer : List Scope} {p p' : Place} {span : Span} {e : Expr} {slot : Nat} {v : Value}
      (h : StmtElaborates names T outer p (.assign span name e) (.setOutput span slot v) p') :
      RefersTo names T name slot
  | channel {outer : List Scope} {p p' : Place} {span : Span} {value urgency : Expr}
      {slot urgencySlot : Nat} {v : Value} {u : Scalar}
      (h : StmtElaborates names T outer p (.intent span name value urgency)
        (.intent span slot urgencySlot v u) p') : RefersTo names T name slot

theorem Value.ofInput_inj {type type' : ValueType} {slot' : Nat}
    (h : Value.ofInput type slot = .ofInput type' slot') : slot = slot' := by
  cases type <;> cases type' <;> cases h <;> rfl

theorem RefersTo.slot? {name : String} (h : RefersTo names T name slot) :
    ∃ qualified x, names.resolve? name = some (qualified, x) ∧
      T.schema.slot? x.access qualified = some slot := by
  cases h with
  | @input scopes span type slot hfound h =>
    generalize hv : Value.ofInput type slot = v at h
    cases h with
    | ofLocal hlocal => cases hfound.symm.trans hlocal
    | ofInput _ hresolved hinput =>
      refine ⟨_, _, hresolved, ?_⟩
      rw [Value.ofInput_inj hv, Schema.slot?, hinput]
      rfl
    | constant => cases type <;> cases hv
  | output h =>
    cases h with
    | assignOutput _ _ hresolved houtput =>
      refine ⟨_, _, hresolved, ?_⟩
      rw [Schema.slot?, houtput]
      rfl
  | channel h =>
    cases h with
    | intent _ _ hresolved hchannel =>
      refine ⟨_, _, hresolved, ?_⟩
      rw [Schema.slot?, hchannel]
      rfl

/-- References to one variable lead to one slot, whatever names they use for it. -/
theorem RefersTo.unique {name name' qualified : String} {x x' : Variable} {slot' : Nat}
    (h : RefersTo names T name slot) (h' : RefersTo names T name' slot')
    (hname : names.resolve? name = some (qualified, x))
    (hname' : names.resolve? name' = some (qualified, x')) : slot = slot' := by
  obtain ⟨_, _, hresolved, hslot⟩ := h.slot?
  obtain ⟨_, _, hresolved', hslot'⟩ := h'.slot?
  cases hname.symm.trans hresolved
  cases hname'.symm.trans hresolved'
  -- a qualified name stands for one variable of the registry
  cases (Names.lookup_of_resolve? hname).symm.trans (Names.lookup_of_resolve? hname')
  exact Option.some.inj (hslot.symm.trans hslot')

/-! ## Locals -/

mutual

/-- The locals that a statement of a document introduces: the slots of a binding, and the counter of
a loop. -/
def declaredLocals : Behavior.Stmt → Stmt → List (Nat × Nat)
  | .bind .., .setLocal _ slot value => [(slot, value.type.width)]
  | .branch _ _ thenBody elseBody, .branch _ _ thenStmts elseStmts =>
    allDeclaredLocals thenBody thenStmts ++ allDeclaredLocals elseBody elseStmts
  | .loop _ _ body, .loop _ _ counter stmts => (counter, 1) :: allDeclaredLocals body stmts
  | _, _ => []

def allDeclaredLocals : List Behavior.Stmt → List Stmt → List (Nat × Nat)
  | stmt :: rest, t :: ts => declaredLocals stmt t ++ allDeclaredLocals rest ts
  | _, _ => []

end

/-- The locals of all flows. -/
def flowLocals : List Behavior.Flow → List Flow → List (Nat × Nat)
  | flow :: rest, t :: ts => allDeclaredLocals flow.body t.body ++ flowLocals rest ts
  | _, _ => []

mutual

/-- A statement takes the next locals, and gives none back. -/
theorem StmtElaborates.endToEnd {outer : List Scope} {p p' : Place} {stmt : Behavior.Stmt} {t : Stmt}
    (h : StmtElaborates names T outer p stmt t p') :
    Schema.EndToEnd p.next (declaredLocals stmt t) p'.next := by
  cases h with
  | bind hvalue hfits =>
    rw [declaredLocals]
    exact ⟨rfl, rfl⟩
  | branch hcondition hthen helse =>
    rw [declaredLocals]
    exact hthen.endToEnd.append helse.endToEnd
  | loop hcount hfits hbody =>
    rw [declaredLocals]
    exact ⟨rfl, hbody.endToEnd⟩
  | _ => exact rfl

theorem StmtsElaborate.endToEnd {outer : List Scope} {p p' : Place} {stmts : List Behavior.Stmt}
    {ts : List Stmt} (h : StmtsElaborate names T outer p stmts ts p') :
    Schema.EndToEnd p.next (allDeclaredLocals stmts ts) p'.next := by
  cases h with
  | nil => exact rfl
  | cons hhead htail =>
    rw [allDeclaredLocals]
    exact hhead.endToEnd.append htail.endToEnd

end

/-- Bindings and loops get locals end to end. -/
theorem FlowsElaborate.endToEnd {n m : Nat} {flows : List Behavior.Flow} {ts : List Flow}
    (h : FlowsElaborate names T n flows ts m) : Schema.EndToEnd n (flowLocals flows ts) m := by
  induction h with
  | nil => exact rfl
  | cons hhead _ ih => exact hhead.endToEnd.append ih

mutual

theorem Stmt.Within.lt_of_stored {x : Extent} {t : Stmt} (h : t.Within x) :
    ∀ slot ∈ t.storedLocals, slot < x.locals := by
  cases t with
  | setLocal span first value =>
    rw [Stmt.storedLocals]
    intro slot hslot
    exact Nat.lt_of_lt_of_le (List.mem_range'_1.1 hslot).2 h.1
  | branch span condition thenBody elseBody =>
    rw [Stmt.storedLocals]
    exact List.forall_mem_append.2
      ⟨Stmt.AllWithin.lt_of_stored h.2.1, Stmt.AllWithin.lt_of_stored h.2.2⟩
  | loop span count counter body =>
    rw [Stmt.storedLocals]
    split
    · simp
    · exact List.forall_mem_cons.2
        ⟨h.1, List.forall_mem_cons.2 ⟨h.1, Stmt.AllWithin.lt_of_stored h.2⟩⟩
  | _ =>
    rw [Stmt.storedLocals]
    simp

theorem Stmt.AllWithin.lt_of_stored {x : Extent} {ts : List Stmt} (h : Stmt.AllWithin x ts) :
    ∀ slot ∈ Stmt.allStoredLocals ts, slot < x.locals := by
  cases ts with
  | nil => simp [Stmt.allStoredLocals]
  | cons t rest =>
    rw [Stmt.allStoredLocals]
    exact List.forall_mem_append.2 ⟨Stmt.Within.lt_of_stored h.1, Stmt.AllWithin.lt_of_stored h.2⟩

end

/-- The locals that lowering has added, for conditions that are kept. -/
def Program.temporaries (p : Program) : List Nat :=
  List.range' p.localCount (p.toBlocks.localCount - p.localCount)

/-- The locals that the passes of a level have added, for values that are shared. -/
def Program.shared (p : Program) (level : UInt8) : List Nat :=
  List.range' p.toBlocks.localCount
    ((p.toBlocks.optimize level).localCount - p.toBlocks.localCount)

/-- The locals of a program are kept apart: those that its document introduces, those for conditions
and those for shared values. Each of the latter two is stored to by one step of the blocks. -/
structure Program.LocalsApart (p : Program) (d : Document) (level : UInt8) (size : Nat) : Prop where
  partitions : Schema.Partitions
    (flowLocals d.flows p.flows ++ (p.temporaries ++ p.shared level).map (·, 1)) size
  stored_lt : ∀ slot ∈ p.storedLocals, slot < p.localCount
  temporaries : p.toBlocks.storedLocals.Perm (p.storedLocals ++ p.temporaries)
  shared : (p.toBlocks.optimize level).storedLocals.Perm
    (p.toBlocks.storedLocals ++ p.shared level)

theorem Checked.localsApart {d : Document} {p : Program} {graph : FlowGraph}
    (h : Checked registry d p names graph) (level : UInt8) :
    p.LocalsApart d level (p.toBlocks.optimize level).localCount := by
  obtain ⟨hle, hlowered⟩ := h.storedLocals_toBlocks
  obtain ⟨hle', hshared⟩ := p.toBlocks.storedLocals_optimize level
  refine ⟨?_, ?_, hlowered, hshared⟩
  · refine Schema.EndToEnd.partitions (h.flows.endToEnd.append ?_)
    have htemporaries := Schema.EndToEnd.range' p.localCount
      (p.toBlocks.localCount - p.localCount)
    have hvalues := Schema.EndToEnd.range' p.toBlocks.localCount
      ((p.toBlocks.optimize level).localCount - p.toBlocks.localCount)
    rw [Nat.add_sub_cancel' hle] at htemporaries
    rw [Nat.add_sub_cancel' hle'] at hvalues
    rw [List.map_append]
    exact htemporaries.append hvalues
  · intro slot hslot
    obtain ⟨flow, hflow, hslot⟩ := List.mem_flatMap.1 hslot
    have hwithin := h.flows.within (h.suits.covers p.localCount) (Nat.le_refl _) flow hflow
    exact Stmt.AllWithin.lt_of_stored hwithin slot hslot

end Typed

open Typed in
/-- In a compiled model every slot belongs to one thing only. -/
theorem slots_of_compile {registry : Registry} {o : CompileOptions} {d : Document} {m : Model}
    (h : compile registry o d = .ok m) :
    m.schema.SharedOut ∧ ∃ p names, Compiled p o.clamp.level m ∧
      names.registry = registry ∧ names.imports = d.imports.map (·.namespaceName) ∧
      FlowsElaborate names p.tables 0 d.flows p.flows p.localCount ∧
      (∀ {name name' qualified x x' slot slot'}, RefersTo names p.tables name slot →
        RefersTo names p.tables name' slot' → names.resolve? name = some (qualified, x) →
        names.resolve? name' = some (qualified, x') → slot = slot') ∧
      p.LocalsApart d o.clamp.level m.localCount.toNat ∧
      (p.toBlocks.optimize o.clamp.level).Within
        ⟨m.inputSize, m.outputSize, m.localCount.toNat⟩ := by
  obtain ⟨p, hp, hcompiled⟩ := compile_ok h
  obtain ⟨names, graph, hchecked⟩ := check_ok hp
  have hsizes : (⟨m.inputSize, m.outputSize, m.localCount.toNat⟩ : Extent) =
      (p.toBlocks.optimize o.clamp.level).extent p.slots := by
    rw [hcompiled.localCount, Model.inputSize, Model.outputSize, hcompiled.schema]
    rfl
  refine ⟨?_, p, names, hcompiled, hchecked.registry, hchecked.imports, hchecked.flows, ?_, ?_, ?_⟩
  · rw [hcompiled.schema]
    exact hchecked.suits.sharedOut hchecked.regular
  · exact fun href href' => href.unique href'
  · rw [hcompiled.localCount]
    exact hchecked.localsApart _
  · rw [hsizes]
    exact (BlockGraph.optimize_improves False _ hchecked.within_slots fun h => h.elim).2

/-- Three locals for `spot`, one for what was drawn, and one for a product. -/
def survey : Document where
  name := "survey"
  flows := [⟨"main", [
    .bind {} "spot" (.conditional {} (.binary {} .lt (.call {} "random" []) (.var {} "near"))
      (.var {} "home") (.var {} "goal")),
    .assign {} "speed" (.binary {} .add (.binary {} .mul (.var {} "near") (.var {} "near"))
      (.binary {} .mul (.var {} "near") (.var {} "near"))),
    .intent {} "go" (.var {} "spot") (.var {} "near")], {}⟩]

def surveyRegistry : Registry where
  declared := [("near", ⟨.number, .input⟩), ("home", ⟨.vector3, .input⟩),
    ("goal", ⟨.vector3, .input⟩), ("speed", ⟨.number, .output⟩), ("go", ⟨.vector3, .channel⟩)]

theorem slots_of_compile_survey : ∃ m p, compile surveyRegistry { level := 3 } survey = .ok m ∧
    m.schema.SharedOut ∧ m.localCount = 5 ∧ Typed.Program.LocalsApart p survey 3 5 := by
  have hsome : (compile surveyRegistry { level := 3 } survey).toOption.map (·.localCount) =
      some 5 := by cbv
  obtain ⟨m, hm, hcount⟩ := Option.map_eq_some_iff.1 hsome
  cases h : compile surveyRegistry { level := 3 } survey with
  | error e =>
    rw [h] at hm
    cases hm
  | ok m' =>
    rw [h] at hm
    cases hm
    obtain ⟨hshared, p, -, -, -, -, -, -, hlocals, -⟩ := slots_of_compile h
    rw [hcount] at hlocals
    exact ⟨m, p, rfl, hshared, hcount, hlocals⟩

end Behavior
