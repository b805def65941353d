import Behavior.Block.Lower
import Behavior.Proofs.Elaboration
import Behavior.Proofs.Sharing

/-!
Which slots a compiled document uses. A document names its inputs and outputs by numbers of sixteen
bits and hands out its locals one after another, and lowering only adds locals above those, so every
slot that a block mentions can be an operand.
-/

namespace Behavior

variable {registry : Registry} {d : Document} {p : Program} {names : Names} {graph : FlowGraph}
variable {e : Scalar}

namespace Typed

/-- An expression with a vector as value mentions only slots within an extent. -/
def Triple.Within (x : Extent) : Triple → Prop
  | .make a b c => a.Within x ∧ b.Within x ∧ c.Within x
  | .inputSlots first => first + 3 ≤ x.inputs
  | .localSlots first => first + 3 ≤ x.locals
  | .select condition a b => condition.Within x ∧ a.Within x ∧ b.Within x

def Value.Within (x : Extent) : Value → Prop
  | .number e | .bool e | .string e => e.Within x
  | .vector v => v.Within x

mutual

/-- A statement mentions only slots within an extent. -/
def Stmt.Within (x : Extent) : Stmt → Prop
  | .setLocal _ slot value => slot + value.type.width ≤ x.locals ∧ value.Within x
  | .setOutput _ slot value => slot + value.type.width ≤ x.outputs ∧ value.Within x
  | .intent _ valueSlot urgencySlot value urgency =>
    valueSlot + value.type.width ≤ x.outputs ∧ urgencySlot < x.outputs ∧ value.Within x ∧
      urgency.Within x
  | .branch _ condition thenBody elseBody =>
    condition.Within x ∧ Stmt.AllWithin x thenBody ∧ Stmt.AllWithin x elseBody
  | .loop _ _ counter body => counter < x.locals ∧ Stmt.AllWithin x body
  | .wait _ seconds => seconds.Within x
  | .call .. | .goto .. | .continuation .. | .halt .. => True

def Stmt.AllWithin (x : Extent) : List Stmt → Prop
  | [] => True
  | stmt :: rest => stmt.Within x ∧ Stmt.AllWithin x rest

end

/-- The slots of a document that has handed out some locals. A variable of three slots can begin
with the last number of sixteen bits. -/
def extent (locals : Nat) : Extent where
  inputs := 0x10002
  outputs := 0x10002
  locals := locals

/-! ## Checked documents -/

section

variable {names : Names} {T : Tables} {x : Extent} {v : Value} {flows : List Behavior.Flow}
variable {type : ValueType} {ts : List Flow} {slot m k : Nat} {a b : Value}

/-- An extent that has room for every variable of the schema. -/
structure Covers (names : Names) (T : Tables) (x : Extent) : Prop where
  input : ∀ {name : String} {type : ValueType} {e : Schema.Entry},
    names.registry.lookup name = some ⟨type, .input⟩ → T.schema.input? name = some e →
    e.slot.toNat + type.width ≤ x.inputs
  output : ∀ {name : String} {type : ValueType} {e : Schema.Entry},
    names.registry.lookup name = some ⟨type, .output⟩ → T.schema.output? name = some e →
    e.slot.toNat + type.width ≤ x.outputs
  channel : ∀ {name : String} {type : ValueType} {c : Schema.Channel},
    names.registry.lookup name = some ⟨type, .channel⟩ → T.schema.channel? name = some c →
    c.valueSlot.toNat + type.width ≤ x.outputs ∧ c.urgencySlot.toNat < x.outputs

theorem width_le (type : ValueType) : type.width ≤ 3 := by
  cases type <;> decide

theorem slot_add_width_le (slot : UInt16) (type : ValueType) :
    slot.toNat + type.width ≤ 0x10002 := by
  have hslot := slot.toNat_lt
  have hwidth := width_le type
  omega

theorem covers_extent (locals : Nat) : Covers names T (extent locals) where
  input _ _ := slot_add_width_le ..
  output _ _ := slot_add_width_le ..
  channel _ _ := ⟨slot_add_width_le .., slot_add_width_le _ .number⟩

/-- A schema has slots for each of its variables. -/
theorem Suits.covers (h : Suits names.registry T.schema) (locals : Nat) :
    Covers names T ⟨T.schema.inputSize, T.schema.outputSize, locals⟩ where
  input htype he := by
    obtain ⟨hmem, rfl⟩ := Schema.input?_eq_some he
    cases htype.symm.trans (h.input _ hmem)
    exact Schema.inputSize_le_iff.1 (Nat.le_refl _) _ hmem
  output htype he := by
    obtain ⟨hmem, rfl⟩ := Schema.output?_eq_some he
    cases htype.symm.trans (h.output _ hmem)
    exact (Schema.outputSize_le_iff.1 (Nat.le_refl _)).1 _ hmem
  channel htype hc := by
    obtain ⟨hmem, rfl⟩ := Schema.channel?_eq_some hc
    cases htype.symm.trans (h.channel _ hmem)
    have hstop := (Schema.outputSize_le_iff.1 (Nat.le_refl _)).2 _ hmem
    exact ⟨Nat.le_trans (Nat.le_max_left _ _) hstop, Nat.le_trans (Nat.le_max_right _ _) hstop⟩

theorem Value.within_ofInput (h : slot + type.width ≤ x.inputs) :
    (Value.ofInput type slot).Within x := by
  cases type with
  | vector3 | _ => exact h

theorem Value.within_ofLocal (h : slot + type.width ≤ x.locals) :
    (Value.ofLocal type slot).Within x := by
  cases type with
  | vector3 | _ => exact h

theorem Value.within_of_scalar? (h : v.scalar? = some e) : v.Within x ↔ e.Within x := by
  cases v with
  | vector v => cases h
  | _ => cases h; exact Iff.rfl

theorem Value.Within.combine {op : BinaryOp} (ha : a.Within x) (hb : b.Within x)
    (h : Value.combine? op a b = some v) : v.Within x := by
  obtain ⟨e, f, he, hf, hv⟩ := Value.combine?_eq_some h
  rw [within_of_scalar? hv]
  exact ⟨(within_of_scalar? he).1 ha, (within_of_scalar? hf).1 hb⟩

theorem Value.Within.select {c : Scalar} (hc : c.Within x) (ha : a.Within x) (hb : b.Within x)
    (h : Value.select? c a b = some v) : v.Within x := by
  rcases Value.select?_eq_some h with ⟨e, f, he, hf, hv⟩ | ⟨s, t, rfl, rfl, rfl⟩
  · rw [within_of_scalar? hv]
    exact ⟨hc, (within_of_scalar? he).1 ha, (within_of_scalar? hf).1 hb⟩
  · exact ⟨hc, ha, hb⟩

theorem Builtin.within_call {builtin : Builtin} {xs : List Scalar} (hxs : ∀ a ∈ xs, a.Within x)
    (h : builtin.call? xs = some e) : e.Within x := by
  unfold Builtin.call? at h
  split at h
  case h_1 =>
    cases h
    trivial
  case h_7 => cases h
  all_goals
    cases h
    simpa [Scalar.Within] using hxs

mutual

/-- An expression mentions only inputs and the locals it has been checked with. -/
theorem ExprElaborates.within {scopes : List Scope} {e : Expr} {v : Value}
    (h : ExprElaborates names T scopes e v) (hx : Covers names T x)
    (hscopes : Below x.locals scopes) : v.Within x := by
  cases h with
  | number | bool | str hstring => trivial
  | vector hnumbers =>
    have hxs := hnumbers.within hx hscopes
    simpa [Value.Within, Triple.Within] using hxs
  | ofLocal hfound =>
    obtain ⟨type, htype, hle⟩ := hscopes.find hfound
    cases htype
    exact Value.within_ofLocal hle
  | ofInput hfound hresolved hinput =>
    exact Value.within_ofInput (hx.input (Names.lookup_of_resolve? hresolved) hinput)
  | constant hfound hresolved hconstant => trivial
  | neg hoperand | not hoperand => exact hoperand.within hx hscopes
  | binary hleft hright hcombined =>
    exact (hleft.within hx hscopes).combine (hright.within hx hscopes) hcombined
  | conditional hcondition hthen helse hselected =>
    exact Value.Within.select (hcondition.within hx hscopes) (hthen.within hx hscopes)
      (helse.within hx hscopes) hselected
  | call hfunction hargs hcalled => exact Builtin.within_call (hargs.within hx hscopes) hcalled

theorem NumbersElaborate.within {scopes : List Scope} {items : List Expr} {xs : List Scalar}
    (h : NumbersElaborate names T scopes items xs) (hx : Covers names T x)
    (hscopes : Below x.locals scopes) : ∀ a ∈ xs, a.Within x := by
  cases h with
  | nil => simp
  | cons hhead htail =>
    exact List.forall_mem_cons.2 ⟨hhead.within hx hscopes, htail.within hx hscopes⟩

end

mutual

/-- A statement mentions only slots that have been handed out before its end. -/
theorem StmtElaborates.within {outer : List Scope} {p p' : Place} {stmt : Behavior.Stmt} {t : Stmt}
    (h : StmtElaborates names T outer p stmt t p') (hx : Covers names T x)
    (hp : Below p.next (p.scope :: outer)) (hn : p'.next ≤ x.locals) : t.Within x := by
  have hscopes : Below x.locals (p.scope :: outer) := hp.mono (Nat.le_trans h.next_le hn)
  cases h with
  | bind hvalue hfits => exact ⟨hn, hvalue.within hx hscopes⟩
  | assignLocal hvalue hfound =>
    obtain ⟨type, htype, hle⟩ := hscopes.find hfound
    cases htype
    exact ⟨hle, hvalue.within hx hscopes⟩
  | assignOutput hvalue hfound hresolved houtput =>
    exact ⟨hx.output (Names.lookup_of_resolve? hresolved) houtput, hvalue.within hx hscopes⟩
  | intent hvalue hurgency hresolved hchannel =>
    obtain ⟨hslot, hurgencySlot⟩ := hx.channel (Names.lookup_of_resolve? hresolved) hchannel
    exact ⟨hslot, hurgencySlot, hvalue.within hx hscopes, hurgency.within hx hscopes⟩
  | branch hcondition hthen helse =>
    exact ⟨hcondition.within hx hscopes, hthen.within hx hp.block (Nat.le_trans helse.next_le hn),
      helse.within hx (hp.mono hthen.next_le).block hn⟩
  | loop hcount hfits hbody =>
    exact ⟨Nat.lt_of_lt_of_le hbody.next_le hn,
      hbody.within hx (hp.mono (Nat.le_succ _)).block hn⟩
  | call hflow | goto hflow => trivial
  | wait hseconds => exact hseconds.within hx hscopes
  | continuation htimeout hpoint hflow | halt => trivial

theorem StmtsElaborate.within {outer : List Scope} {p p' : Place} {stmts : List Behavior.Stmt}
    {ts : List Stmt} (h : StmtsElaborate names T outer p stmts ts p')
    (hx : Covers names T x) (hp : Below p.next (p.scope :: outer)) (hn : p'.next ≤ x.locals) :
    Stmt.AllWithin x ts := by
  cases h with
  | nil => trivial
  | cons hhead htail =>
    exact ⟨hhead.within hx hp (Nat.le_trans htail.next_le hn),
      htail.within hx (hhead.keeps_below hp) hn⟩

end

theorem FlowsElaborate.next_le (h : FlowsElaborate names T m flows ts k) : m ≤ k := by
  induction h with
  | nil => exact Nat.le_refl _
  | cons hhead htail ih => exact Nat.le_trans hhead.next_le ih

theorem FlowsElaborate.within (h : FlowsElaborate names T m flows ts k) (hx : Covers names T x)
    (hk : k ≤ x.locals) : ∀ flow ∈ ts, Stmt.AllWithin x flow.body := by
  induction h with
  | nil => simp
  | cons hhead htail ih =>
    exact List.forall_mem_cons.2
      ⟨hhead.within hx (.start _) (Nat.le_trans htail.next_le hk), ih hk⟩

end

end Typed

/-! ## Lowering -/

namespace Lower

/-! ### Branches and loops case by case -/

theorem lowerStmt_branch_nil (span : Span) (condition : Scalar) (thenBody : List Typed.Stmt) :
    lowerStmt (.branch span condition thenBody []) = (do
      let thenBlock ← newBlock
      let merge ← newBlock
      leave span (.branch condition thenBlock merge)
      enter thenBlock
      lowerStmts thenBody
      leave span (.jump merge)
      enter merge) := by
  rw [lowerStmt]
  rfl

theorem lowerStmt_branch_cons (span : Span) (condition : Scalar) (thenBody : List Typed.Stmt)
    (t : Typed.Stmt) (ts : List Typed.Stmt) :
    lowerStmt (.branch span condition thenBody (t :: ts)) = (do
      let thenBlock ← newBlock
      let merge ← newBlock
      let elseBlock ← newBlock
      leave span (.branch condition thenBlock elseBlock)
      enter thenBlock
      lowerStmts thenBody
      leave span (.jump merge)
      enter elseBlock
      lowerStmts (t :: ts)
      leave span (.jump merge)
      enter merge) := by
  rw [lowerStmt]
  rfl

theorem lowerStmt_loop_zero (span : Span) (counter : Nat) (body : List Typed.Stmt) :
    lowerStmt (.loop span 0 counter body) = pure () := by
  rw [lowerStmt]
  rfl

theorem lowerStmt_loop_succ (span : Span) (n counter : Nat) (body : List Typed.Stmt) :
    lowerStmt (.loop span (n + 1) counter body) = (do
      step span (.setLocal counter (.const (Float.ofNat (n + 1))))
      let header ← newBlock
      let bodyBlock ← newBlock
      let after ← newBlock
      leave span (.jump header)
      enter header
      leave span (.branch (.binary .gt (.localSlot counter) (.const 0.0)) bodyBlock after)
      enter bodyBlock
      step span (.setLocal counter (.binary .sub (.localSlot counter) (.const 1.0)))
      lowerStmts body
      leave span (.jump header)
      enter after) := by
  rw [lowerStmt]
  rfl

/-! ### What is built fits -/

variable {x : Extent} {α β : Type} {s : State} {slot : Nat} {v : Typed.Value}

/-- The slots of the blocks under construction. -/
def State.extent (x : Extent) (s : State) : Extent :=
  { x with locals := s.localCount }

/-- What has been built mentions only slots that are in use. -/
structure Fits (x : Extent) (s : State) : Prop where
  locals : x.locals ≤ s.localCount
  blocks : ∀ b ∈ s.blocks, b.Within (s.extent x)
  steps : ∀ st ∈ s.steps, st.1.Within (s.extent x)

theorem Fits.le (h : Fits x s) : x.Le (s.extent x) :=
  ⟨Nat.le_refl _, Nat.le_refl _, h.locals⟩

/-- An action that mentions only slots that are in use. -/
structure Keeps (x : Extent) (act : Build α) : Prop where
  fits : ∀ {s : State}, Fits x s → Fits x (act.run s).2

theorem Keeps.pure (a : α) : Keeps x (pure a : Build α) :=
  ⟨id⟩

theorem Keeps.bind {act : Build α} {f : α → Build β} (h : Keeps x act) (hf : ∀ a, Keeps x (f a)) :
    Keeps x (act >>= f) :=
  ⟨fun hs => (hf _).fits (h.fits hs)⟩

theorem empty_within : Block.Within x {} :=
  ⟨by simp, trivial⟩

theorem newBlock_keeps : Keeps x newBlock := by
  refine ⟨fun {s} hs => ⟨hs.locals, ?_, hs.steps⟩⟩
  intro b hb
  rcases Array.mem_push.1 hb with hb | rfl
  · exact hs.blocks b hb
  · exact empty_within

theorem enter_keeps (block : Nat) : Keeps x (enter block) :=
  ⟨fun hs => ⟨hs.locals, hs.blocks, hs.steps⟩⟩

theorem step_keeps (span : Span) (st : Step) (hst : st.Within x) : Keeps x (step span st) :=
  ⟨fun hs => ⟨hs.locals, hs.blocks, List.forall_mem_cons.2 ⟨hs.le.step hst, hs.steps⟩⟩⟩

theorem leave_keeps (span : Span) (exit : Exit) (hexit : exit.Within x) :
    Keeps x (leave span exit) := by
  refine ⟨fun {s} hs => ⟨hs.locals, ?_, fun _ hst => absurd hst List.not_mem_nil⟩⟩
  intro b hb
  rcases Array.mem_or_eq_of_mem_setIfInBounds hb with hb | rfl
  · exact hs.blocks b hb
  · refine ⟨?_, hs.le.exit hexit⟩
    intro st hst
    exact hs.steps st (List.mem_reverse.1 hst)

theorem jump_keeps (span : Span) (block : Nat) : Keeps x (leave span (.jump block)) :=
  leave_keeps span (.jump block) trivial

theorem leaveForGood_keeps (span : Span) (exit : Exit) (hexit : exit.Within x) :
    Keeps x (leaveForGood span exit) :=
  (leave_keeps span exit hexit).bind fun _ => newBlock_keeps.bind fun _ => enter_keeps _

/-- More slots are in use. -/
theorem State.extent_le {s' : State} (h : s.localCount ≤ s'.localCount) :
    (s.extent x).Le (s'.extent x) :=
  ⟨Nat.le_refl _, Nat.le_refl _, h⟩

theorem Fits.afterKeep (hs : Fits x s) (span : Span) (he : e.Within x) :
    Fits x ((keep span e).run s).2 := by
  have hle : (s.extent x).Le (((keep span e).run s).2.extent x) :=
    State.extent_le (Nat.le_succ _)
  refine ⟨Nat.le_succ_of_le hs.locals, fun b hb => hle.block (hs.blocks b hb), ?_⟩
  refine List.forall_mem_cons.2 ⟨⟨Nat.lt_succ_self _, hle.scalar (hs.le.scalar he)⟩, ?_⟩
  exact fun st hst => hle.step (hs.steps st hst)

/-- A condition that is evaluated once. -/
def keepImpure (span : Span) (condition : Scalar) : Build Scalar :=
  if condition.isPure then pure condition else keep span condition

theorem lowerTriple_select (span : Span) (condition : Scalar) (a b : Typed.Triple) :
    lowerTriple span (.select condition a b) = (do
      let c ← keepImpure span condition
      let u ← lowerTriple span a
      let v ← lowerTriple span b
      return (.select c u.1 v.1, .select c u.2.1 v.2.1, .select c u.2.2 v.2.2)) := by
  rw [lowerTriple, keepImpure]
  split
  · rfl
  · rfl

theorem keepImpure_fits (span : Span) {condition : Scalar} (h : condition.Within x) (hs : Fits x s) :
    let r := (keepImpure span condition).run s
    Fits x r.2 ∧ s.localCount ≤ r.2.localCount ∧ r.1.Within (r.2.extent x) := by
  unfold keepImpure
  split
  · exact ⟨hs, Nat.le_refl _, hs.le.scalar h⟩
  · exact ⟨hs.afterKeep span h, Nat.le_succ _, Nat.lt_succ_self _⟩

/-- Vectors need more locals where the condition of a choice is kept. -/
theorem lowerTriple_fits (span : Span) {v : Typed.Triple} (hv : v.Within x) (hs : Fits x s) :
    let r := (lowerTriple span v).run s
    Fits x r.2 ∧ s.localCount ≤ r.2.localCount ∧ r.1.1.Within (r.2.extent x) ∧
      r.1.2.1.Within (r.2.extent x) ∧ r.1.2.2.Within (r.2.extent x) := by
  induction v generalizing s with
  | make a b c =>
    exact ⟨hs, Nat.le_refl _, hs.le.scalar hv.1, hs.le.scalar hv.2.1, hs.le.scalar hv.2.2⟩
  | inputSlots first =>
    have hv : first + 3 ≤ x.inputs := hv
    exact ⟨hs, Nat.le_refl _, (by omega : first < x.inputs), (by omega : first + 1 < x.inputs),
      (by omega : first + 2 < x.inputs)⟩
  | localSlots first =>
    have hv : first + 3 ≤ s.localCount := Nat.le_trans hv hs.locals
    exact ⟨hs, Nat.le_refl _, (by omega : first < s.localCount),
      (by omega : first + 1 < s.localCount), (by omega : first + 2 < s.localCount)⟩
  | select condition a b iha ihb =>
    rw [lowerTriple_select]
    obtain ⟨hs₁, hle₁, hc⟩ := keepImpure_fits span hv.1 hs
    obtain ⟨hs₂, hle₂, hx, hy, hz⟩ := iha hv.2.1 hs₁
    obtain ⟨hs₃, hle₃, hu, hv, hw⟩ := ihb hv.2.2 hs₂
    have hle := State.extent_le (x := x) hle₃
    have hc := (State.extent_le (Nat.le_trans hle₂ hle₃)).scalar hc
    exact ⟨hs₃, Nat.le_trans hle₁ (Nat.le_trans hle₂ hle₃), ⟨hc, hle.scalar hx, hu⟩,
      ⟨hc, hle.scalar hy, hv⟩, hc, hle.scalar hz, hw⟩

theorem store_fits {span : Span} {set : Nat → Scalar → Step} {es : List Scalar}
    (hset : ∀ i, i < es.length → ∀ e ∈ es, (set (slot + i) e).Within (s.extent x)) (hs : Fits x s) :
    Fits x ((store span set slot es).run s).2 := by
  induction es generalizing slot s with
  | nil => exact hs
  | cons e rest ih =>
    rw [store]
    refine ih (s := ((step span (set slot e)).run s).2) ?_ ?_
    · intro i hi f hf
      have h := hset (i + 1) (by simpa using hi) f (List.mem_cons_of_mem _ hf)
      rwa [← Nat.add_assoc, Nat.add_right_comm] at h
    · exact ⟨hs.locals, hs.blocks, List.forall_mem_cons.2
        ⟨hset 0 (Nat.zero_lt_succ _) e List.mem_cons_self, hs.steps⟩⟩

/-- The numbers of a value, which are as many as it has slots. -/
theorem lowerValue_fits (span : Span) (hv : v.Within x) (hs : Fits x s) :
    let r := (lowerValue span v).run s
    Fits x r.2 ∧ r.1.length = v.type.width ∧ ∀ e ∈ r.1, e.Within (r.2.extent x) := by
  cases v with
  | vector v =>
    obtain ⟨hs', -, hx, hy, hz⟩ := lowerTriple_fits span hv hs
    refine ⟨hs', rfl, List.forall_mem_cons.2 ⟨hx, List.forall_mem_cons.2 ⟨hy, ?_⟩⟩⟩
    exact List.forall_mem_singleton.2 hz
  | _ =>
    refine ⟨hs, rfl, ?_⟩
    intro e he
    cases List.mem_singleton.1 he
    exact hs.le.scalar hv

theorem storeLocal_keeps (span : Span) (hv : v.Within x) (hslot : slot + v.type.width ≤ x.locals) :
    Keeps x (do store span .setLocal slot (← lowerValue span v)) := by
  refine ⟨fun {s} hs => ?_⟩
  obtain ⟨hs', hlength, hes⟩ := lowerValue_fits span hv hs
  refine store_fits (fun i hi e he => ⟨?_, hes e he⟩) hs'
  exact Nat.lt_of_lt_of_le (Nat.add_lt_add_left (hlength ▸ hi) slot)
    (Nat.le_trans hslot hs'.locals)

theorem storeOutput_keeps (span : Span) (hv : v.Within x) (hslot : slot + v.type.width ≤ x.outputs) :
    Keeps x (do store span .setOutput slot (← lowerValue span v)) := by
  refine ⟨fun {s} hs => ?_⟩
  obtain ⟨hs', hlength, hes⟩ := lowerValue_fits span hv hs
  refine store_fits (fun i hi e he => ⟨?_, hes e he⟩) hs'
  exact Nat.lt_of_lt_of_le (Nat.add_lt_add_left (hlength ▸ hi) slot) hslot

mutual

theorem lowerStmt_keeps {t : Typed.Stmt} (h : t.Within x) : Keeps x (lowerStmt t) := by
  cases t with
  | setLocal span slot value =>
    rw [lowerStmt]
    exact storeLocal_keeps span h.2 h.1
  | setOutput span slot value =>
    rw [lowerStmt]
    exact storeOutput_keeps span h.2 h.1
  | intent span valueSlot urgencySlot value urgency =>
    rw [lowerStmt]
    obtain ⟨hvalueSlot, hurgencySlot, hvalue, hurgency⟩ := h
    exact ⟨fun hs => (step_keeps span (.setOutput urgencySlot urgency)
      ⟨hurgencySlot, hurgency⟩).fits ((storeOutput_keeps span hvalue hvalueSlot).fits hs)⟩
  | branch span condition thenBody elseBody =>
    obtain ⟨hcondition, hthen, helse⟩ := h
    have hbranch (thenBlock elseBlock : Nat) : Keeps x (leave span (.branch condition _ _)) :=
      leave_keeps span (.branch condition thenBlock elseBlock) hcondition
    have hthen := (lowerStmts_keeps hthen)
    cases elseBody with
    | nil =>
      rw [lowerStmt_branch_nil]
      exact newBlock_keeps.bind fun _ => newBlock_keeps.bind fun _ =>
        (hbranch _ _).bind fun _ => (enter_keeps _).bind fun _ =>
        hthen.bind fun _ => (jump_keeps ..).bind fun _ => enter_keeps _
    | cons t ts =>
      rw [lowerStmt_branch_cons]
      exact newBlock_keeps.bind fun _ => newBlock_keeps.bind fun _ => newBlock_keeps.bind fun _ =>
        (hbranch _ _).bind fun _ => (enter_keeps _).bind fun _ =>
        hthen.bind fun _ => (jump_keeps ..).bind fun _ => (enter_keeps _).bind fun _ =>
        (lowerStmts_keeps helse).bind fun _ => (jump_keeps ..).bind fun _ => enter_keeps _
  | loop span count counter body =>
    obtain ⟨hcounter, hbody⟩ := h
    cases count with
    | zero =>
      rw [lowerStmt_loop_zero]
      exact .pure _
    | succ n =>
      rw [lowerStmt_loop_succ]
      refine (step_keeps span _ ?_).bind fun _ => newBlock_keeps.bind fun _ =>
        newBlock_keeps.bind fun _ => newBlock_keeps.bind fun _ =>
        (jump_keeps ..).bind fun _ => (enter_keeps _).bind fun _ =>
        (leave_keeps span _ ?_).bind fun _ => (enter_keeps _).bind fun _ =>
        (step_keeps span _ ?_).bind fun _ =>
        (lowerStmts_keeps hbody).bind fun _ => (jump_keeps ..).bind fun _ => enter_keeps _
      · exact ⟨hcounter, trivial⟩
      · exact ⟨hcounter, trivial⟩
      · exact ⟨hcounter, hcounter, trivial⟩
  | call span flow =>
    rw [lowerStmt]
    exact step_keeps span (.call flow) trivial
  | goto span flow =>
    rw [lowerStmt]
    exact leaveForGood_keeps span (.jump flow) trivial
  | wait span seconds =>
    rw [lowerStmt]
    exact newBlock_keeps.bind fun next => (leave_keeps span (.wait seconds next) h).bind fun _ =>
      enter_keeps _
  | continuation span point defaultFlow =>
    rw [lowerStmt]
    exact leaveForGood_keeps span (.pause point defaultFlow) trivial
  | halt span =>
    rw [lowerStmt]
    exact leaveForGood_keeps span .halt trivial

theorem lowerStmts_keeps {ts : List Typed.Stmt} (h : Typed.Stmt.AllWithin x ts) :
    Keeps x (lowerStmts ts) := by
  cases ts with
  | nil =>
    rw [lowerStmts]
    exact .pure _
  | cons t rest =>
    rw [lowerStmts]
    exact (lowerStmt_keeps h.1).bind fun _ => lowerStmts_keeps h.2

end

theorem lowerFlows_keeps {flows : List Typed.Flow} {index : Nat}
    (h : ∀ flow ∈ flows, Typed.Stmt.AllWithin x flow.body) : Keeps x (lowerFlows index flows) := by
  induction flows generalizing index with
  | nil => exact .pure _
  | cons flow rest ih =>
    obtain ⟨hflow, hrest⟩ := List.forall_mem_cons.1 h
    refine (enter_keeps _).bind fun _ => (lowerStmts_keeps hflow).bind fun _ =>
      (leave_keeps _ _ ?_).bind fun _ => ih hrest
    trivial

end Lower

/-- The blocks of a document mention only slots that are in use. -/
theorem Typed.Checked.within_of_covers (h : Checked registry d p names graph) {x : Extent}
    (hx : Covers names p.tables x) (hlocals : x.locals = p.localCount) :
    p.toBlocks.Within (p.toBlocks.extent x) := by
  let start : Lower.State :=
    { blocks := Array.replicate p.flows.length {}, localCount := p.localCount }
  have hstart : Lower.Fits x start := by
    refine ⟨Nat.le_of_eq hlocals, ?_, fun _ hst => absurd hst List.not_mem_nil⟩
    intro b hb
    rw [Array.eq_of_mem_replicate hb]
    exact Lower.empty_within
  have hfits : Lower.Fits _ ((Lower.lowerFlows 0 p.flows).run start).2 :=
    (Lower.lowerFlows_keeps (h.flows.within hx (Nat.le_of_eq hlocals.symm))).fits hstart
  intro i
  rw [BlockGraph.block, Array.getD_eq_getD_getElem?]
  cases hi : p.toBlocks.blocks[i]? with
  | none => exact Lower.empty_within
  | some b => exact hfits.blocks b (Array.mem_of_getElem? hi)

theorem Typed.Checked.within (h : Checked registry d p names graph) :
    p.toBlocks.Within (p.toBlocks.extent (Typed.extent p.localCount)) :=
  h.within_of_covers (covers_extent _) rfl

/-- The slots of the variables of a document, and its locals. -/
def Typed.Program.slots (p : Program) : Extent :=
  ⟨p.schema.inputSize, p.schema.outputSize, p.localCount⟩

/-- The blocks of a document mention only slots of its variables. -/
theorem Typed.Checked.within_slots (h : Checked registry d p names graph) :
    p.toBlocks.Within (p.toBlocks.extent p.slots) :=
  h.within_of_covers (h.suits.covers _) rfl

end Behavior
