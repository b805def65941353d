import Behavior.Proofs.CleanChecks
import Behavior.Proofs.Layouts

/-!
What it means for a document to have been checked. Checking goes through a document once, with a
state that collects tables; the relations here say the same of the finished tables, without a
state: which value an expression stands for where certain locals are known, and which checked
statement a statement stands for.
-/

namespace Behavior.Typed

variable {n : Nat} {names : Names} {registry : Registry} {s s' : State} {flows : List Behavior.Flow}
variable {scopes : List Scope} {seconds : Float} {graph : FlowGraph} {timeout depth i m : Nat}
  {op : BinaryOp} {d : Document} {b : Value} {c : Scalar}

/-- The tables that checking fills. -/
structure Tables where
  schema : Schema
  strings : Array String
  points : Array Point

def State.tables (s : State) : Tables :=
  ⟨s.schema, s.strings, s.points⟩

def Program.tables (p : Program) : Tables :=
  ⟨p.schema, p.strings, p.points⟩

/-- Whatever is found in the first schema is found in the second. -/
structure Retains (a b : Schema) : Prop where
  input : ∀ {name : String} {e : Schema.Entry}, a.input? name = some e → b.input? name = some e
  output : ∀ {name : String} {e : Schema.Entry}, a.output? name = some e → b.output? name = some e
  channel : ∀ {name : String} {c : Schema.Channel},
    a.channel? name = some c → b.channel? name = some c

/-- Whatever is found in the first tables is found in the second. -/
structure Tables.Le (a b : Tables) : Prop where
  schema : Retains a.schema b.schema
  string : ∀ {i : Nat} {text : String}, a.strings[i]? = some text → b.strings[i]? = some text
  point : ∀ {i : Nat} {q : Point}, a.points[i]? = some q → b.points[i]? = some q

theorem Retains.refl (a : Schema) : Retains a a :=
  ⟨id, id, id⟩

theorem Retains.trans {a b c : Schema} (h : Retains a b) (h' : Retains b c) : Retains a c :=
  ⟨h'.input ∘ h.input, h'.output ∘ h.output, h'.channel ∘ h.channel⟩

theorem Tables.Le.refl (a : Tables) : a.Le a :=
  ⟨.refl _, id, id⟩

theorem Tables.Le.trans {a b c : Tables} (h : a.Le b) (h' : b.Le c) : a.Le c :=
  ⟨h.schema.trans h'.schema, h'.string ∘ h.string, h'.point ∘ h.point⟩

/-- Variables of the schema are variables of the registry, each entered once and with slots of its
own, and the urgency of a channel comes right after its value. -/
structure Suits (reg : Registry) (s : Schema) : Prop where
  inputs : (s.inputs.map (·.name)).Nodup
  outputs : (s.outputs.map (·.name)).Nodup
  channels : (s.channels.map (·.name)).Nodup
  input : ∀ e ∈ s.inputs, reg.lookup e.name = some ⟨e.type, .input⟩
  output : ∀ e ∈ s.outputs, reg.lookup e.name = some ⟨e.type, .output⟩
  channel : ∀ c ∈ s.channels, reg.lookup c.name = some ⟨c.type, .channel⟩
  urgency : ∀ c ∈ s.channels, c.urgencySlot.toNat = c.valueStop
  layout : s.LaidOut

/-- The slots of variables are in range, continuation points have different names, and their timeouts
come from numbers of seconds. -/
structure Tables.Regular (T : Tables) : Prop where
  inputSize : T.schema.inputSize ≤ maxSlots
  outputSize : T.schema.outputSize ≤ maxSlots
  points : (T.points.toList.map (·.name)).Nodup
  timeout : ∀ q ∈ T.points, ∃ seconds, timeoutMs? seconds = some q.timeoutMs

theorem Tables.Regular.empty : Tables.Regular ⟨{}, #[], #[]⟩ :=
  ⟨Nat.zero_le _, Nat.zero_le _, List.nodup_nil, by simp⟩

variable {T : Tables}

/-- A continuation point whose name is not there yet can be added. -/
theorem Tables.Regular.addPoint {strings : Array String} {name : String} (h : T.Regular)
    (hnew : ¬ T.points.any (·.name == name) = true) (htimeout : timeoutMs? seconds = some timeout) :
    Tables.Regular ⟨T.schema, strings, T.points.push ⟨name, timeout⟩⟩ where
  inputSize := h.inputSize
  outputSize := h.outputSize
  points := by
    rw [Array.toList_push, List.map_append, List.map_singleton]
    refine List.nodup_append.2 ⟨h.points, by simp, ?_⟩
    intro known hknown added hadded
    cases List.mem_singleton.1 hadded
    rintro rfl
    obtain ⟨q, hq, hname⟩ := List.mem_map.1 hknown
    exact hnew (Array.any_eq_true'.2 ⟨q, Array.mem_toList_iff.1 hq, beq_iff_eq.2 hname⟩)
  timeout q hq := by
    rcases Array.mem_push.1 hq with hq | rfl
    · exact h.timeout q hq
    · exact ⟨seconds, htimeout⟩

/-! ## Elaboration -/

/-- The innermost local of a name. -/
def find (scopes : List Scope) (name : String) : Option Local :=
  scopes.findSome? fun scope => scope.lookup name

/-- A block in which a local has become known, in place of an earlier one of its name. -/
def Scope.define (scope : Scope) (name : String) (l : Local) : Scope :=
  (name, l) :: scope.filter (·.1 != name)

mutual

/-- The value an expression stands for. -/
inductive ExprElaborates (names : Names) (T : Tables) (scopes : List Scope) :
    Expr → Value → Prop
  | number {span : Span} {x : Float} :
      ExprElaborates names T scopes (.number span x) (.number (.const x))
  | bool {span : Span} {b : Bool} :
      ExprElaborates names T scopes (.bool span b) (.bool (.const (truthValue b)))
  | str {span : Span} {text : String} {i : Nat}
      (hstring : T.strings.findIdx? (· == text) = some i) :
      ExprElaborates names T scopes (.str span text) (.string (.const (Float.ofNat i)))
  | vector {span : Span} {items : List Expr} {x y z : Scalar}
      (hnumbers : NumbersElaborate names T scopes items [x, y, z]) :
      ExprElaborates names T scopes (.vector span items) (.vector (.make x y z))
  | ofLocal {span : Span} {name : String} {slot : Nat} {type : ValueType}
      (hfound : find scopes name = some ⟨slot, some type⟩) :
      ExprElaborates names T scopes (.var span name) (.ofLocal type slot)
  | ofInput {span : Span} {name qualified : String} {type : ValueType} {e : Schema.Entry}
      (hfound : find scopes name = none)
      (hresolved : names.resolve? name = some (qualified, ⟨type, .input⟩))
      (hinput : T.schema.input? qualified = some e) :
      ExprElaborates names T scopes (.var span name) (.ofInput type e.slot.toNat)
  | constant {span : Span} {name : String} {x : Float} (hfound : find scopes name = none)
      (hresolved : names.resolve? name = none) (hconstant : namedConstant? name = some x) :
      ExprElaborates names T scopes (.var span name) (.number (.const x))
  | neg {span : Span} {operand : Expr} {a : Scalar}
      (hoperand : ExprElaborates names T scopes operand (.number a)) :
      ExprElaborates names T scopes (.unary span .neg operand) (.number (.unary .neg a))
  | not {span : Span} {operand : Expr} {a : Scalar}
      (hoperand : ExprElaborates names T scopes operand (.bool a)) :
      ExprElaborates names T scopes (.unary span .not operand) (.bool (.unary .not a))
  | binary {span : Span} {op : BinaryOp} {left right : Expr} {a b v : Value}
      (hleft : ExprElaborates names T scopes left a) (hright : ExprElaborates names T scopes right b)
      (hcombined : Value.combine? op a b = some v) :
      ExprElaborates names T scopes (.binary span op left right) v
  | conditional {span : Span} {condition thenExpr elseExpr : Expr} {c : Scalar} {a b v : Value}
      (hcondition : ExprElaborates names T scopes condition (.bool c))
      (hthenExpr : ExprElaborates names T scopes thenExpr a)
      (helseExpr : ExprElaborates names T scopes elseExpr b)
      (hselected : Value.select? c a b = some v) :
      ExprElaborates names T scopes (.conditional span condition thenExpr elseExpr) v
  | call {span : Span} {function : String} {args : List Expr} {builtin : Builtin}
      {xs : List Scalar} {x : Scalar} (hfunction : Builtin.ofName? function = some builtin)
      (hargs : NumbersElaborate names T scopes args xs) (hcalled : builtin.call? xs = some x) :
      ExprElaborates names T scopes (.call span function args) (.number x)

inductive NumbersElaborate (names : Names) (T : Tables) (scopes : List Scope) :
    List Expr → List Scalar → Prop
  | nil : NumbersElaborate names T scopes [] []
  | cons {e : Expr} {rest : List Expr} {x : Scalar} {xs : List Scalar}
      (hhead : ExprElaborates names T scopes e (.number x))
      (htail : NumbersElaborate names T scopes rest xs) :
      NumbersElaborate names T scopes (e :: rest) (x :: xs)

end

/-- Where a statement stands in its block: the locals known there, and the first free slot. -/
structure Place where
  scope : Scope := []
  next : Nat

mutual

/-- The checked statement a statement stands for, and the place after it. `outer` has the locals of
the blocks around. -/
inductive StmtElaborates (names : Names) (T : Tables) :
    List Scope → Place → Behavior.Stmt → Stmt → Place → Prop
  | bind {outer : List Scope} {p : Place} {span : Span} {name : String} {e : Expr} {v : Value}
      (hvalue : ExprElaborates names T (p.scope :: outer) e v)
      (hfits : p.next + v.type.width ≤ maxSlots) :
      StmtElaborates names T outer p (.bind span name e) (.setLocal span p.next v)
        ⟨p.scope.define name ⟨p.next, some v.type⟩, p.next + v.type.width⟩
  | assignLocal {outer : List Scope} {p : Place} {span : Span} {target : String} {e : Expr}
      {v : Value} {slot : Nat} (hvalue : ExprElaborates names T (p.scope :: outer) e v)
      (hfound : find (p.scope :: outer) target = some ⟨slot, some v.type⟩) :
      StmtElaborates names T outer p (.assign span target e) (.setLocal span slot v) p
  | assignOutput {outer : List Scope} {p : Place} {span : Span} {target qualified : String}
      {e : Expr} {v : Value} {entry : Schema.Entry}
      (hvalue : ExprElaborates names T (p.scope :: outer) e v)
      (hfound : find (p.scope :: outer) target = none)
      (hresolved : names.resolve? target = some (qualified, ⟨v.type, .output⟩))
      (houtput : T.schema.output? qualified = some entry) :
      StmtElaborates names T outer p (.assign span target e) (.setOutput span entry.slot.toNat v) p
  | intent {outer : List Scope} {p : Place} {span : Span} {channel qualified : String}
      {value urgency : Expr} {v : Value} {u : Scalar} {c : Schema.Channel}
      (hvalue : ExprElaborates names T (p.scope :: outer) value v)
      (hurgency : ExprElaborates names T (p.scope :: outer) urgency (.number u))
      (hresolved : names.resolve? channel = some (qualified, ⟨v.type, .channel⟩))
      (hchannel : T.schema.channel? qualified = some c) :
      StmtElaborates names T outer p (.intent span channel value urgency)
        (.intent span c.valueSlot.toNat c.urgencySlot.toNat v u) p
  | branch {outer : List Scope} {p q r : Place} {span : Span} {condition : Expr}
      {thenBody elseBody : List Behavior.Stmt} {c : Scalar} {thenStmts elseStmts : List Stmt}
      (hcondition : ExprElaborates names T (p.scope :: outer) condition (.bool c))
      (hthenBody : StmtsElaborate names T (p.scope :: outer) ⟨[], p.next⟩ thenBody thenStmts q)
      (helseBody : StmtsElaborate names T (p.scope :: outer) ⟨[], q.next⟩ elseBody elseStmts r) :
      StmtElaborates names T outer p (.branch span condition thenBody elseBody)
        (.branch span c thenStmts elseStmts) ⟨p.scope, r.next⟩
  | loop {outer : List Scope} {p q : Place} {span : Span} {count : Nat}
      {body : List Behavior.Stmt} {stmts : List Stmt} (hcount : count ≤ maxLoopCount)
      (hfits : p.next + 1 ≤ maxSlots)
      (hbody : StmtsElaborate names T (p.scope :: outer) ⟨[], p.next + 1⟩ body stmts q) :
      StmtElaborates names T outer p (.loop span count body) (.loop span count p.next stmts)
        ⟨p.scope, q.next⟩
  | call {outer : List Scope} {p : Place} {span : Span} {name : String} {flow : Nat}
      (hflow : names.flows.lookup name = some flow) :
      StmtElaborates names T outer p (.call span name) (.call span flow) p
  | goto {outer : List Scope} {p : Place} {span : Span} {name : String} {flow : Nat}
      (hflow : names.flows.lookup name = some flow) :
      StmtElaborates names T outer p (.goto span name) (.goto span flow) p
  | wait {outer : List Scope} {p : Place} {span : Span} {seconds : Expr} {x : Scalar}
      (hseconds : ExprElaborates names T (p.scope :: outer) seconds (.number x)) :
      StmtElaborates names T outer p (.wait span seconds) (.wait span x) p
  | continuation {outer : List Scope} {p : Place} {span : Span} {name default : String}
      {seconds : Float} {timeout point flow : Nat} (htimeout : timeoutMs? seconds = some timeout)
      (hpoint : T.points[point]? = some ⟨name, timeout⟩)
      (hflow : names.flows.lookup default = some flow) :
      StmtElaborates names T outer p (.continuation span name seconds default)
        (.continuation span point flow) p
  | halt {outer : List Scope} {p : Place} {span : Span} :
      StmtElaborates names T outer p (.halt span) (.halt span) p

inductive StmtsElaborate (names : Names) (T : Tables) :
    List Scope → Place → List Behavior.Stmt → List Stmt → Place → Prop
  | nil {outer : List Scope} {p : Place} : StmtsElaborate names T outer p [] [] p
  | cons {outer : List Scope} {p q r : Place} {stmt : Behavior.Stmt} {rest : List Behavior.Stmt}
      {t : Stmt} {ts : List Stmt} (hhead : StmtElaborates names T outer p stmt t q)
      (htail : StmtsElaborate names T outer q rest ts r) :
      StmtsElaborate names T outer p (stmt :: rest) (t :: ts) r

end

/-! ### What operators apply to -/

/-- The expression of a value that is one number. -/
def Value.scalar? : Value → Option Scalar
  | .number e | .bool e | .string e => some e
  | .vector _ => none

theorem Value.combine?_eq_some {a v : Value} (h : combine? op a b = some v) :
    ∃ x y, a.scalar? = some x ∧ b.scalar? = some y ∧ v.scalar? = some (.binary op.fn x y) := by
  cases a <;> cases b <;> cases op <;> cases h <;> exact ⟨_, _, rfl, rfl, rfl⟩

theorem Value.select?_eq_some {a v : Value} (h : select? c a b = some v) :
    (∃ x y, a.scalar? = some x ∧ b.scalar? = some y ∧ v.scalar? = some (.select c x y)) ∨
      ∃ s t, a = .vector s ∧ b = .vector t ∧ v = .vector (.select c s t) := by
  cases a <;> cases b <;> cases h
  case vector => exact .inr ⟨_, _, rfl, rfl, rfl⟩
  all_goals exact .inl ⟨_, _, rfl, rfl, rfl⟩

/-! ## What a check establishes -/

/-- All locals are known with their types, and have slots below a bound. -/
def Below (n : Nat) (scopes : List Scope) : Prop :=
  ∀ scope ∈ scopes, ∀ x ∈ scope, ∃ type, x.2.type? = some type ∧ x.2.slot + type.width ≤ n

/-- A check has added to the tables, and something is true of them from now on. The current flow is
known to lead along the given passages. -/
structure Establishes (reg : Registry) (P : Tables → Prop) (passages : List (Nat × Passage))
    (s s' : State) : Prop where
  tables : s.tables.Le s'.tables
  suits : Suits reg s.schema → Suits reg s'.schema
  distinct : s.strings.toList.Nodup → s'.strings.toList.Nodup
  regular : s.tables.Regular → s'.tables.Regular
  grows : s.passages <:+ s'.passages
  passages : ∀ x ∈ passages, x ∈ s'.passages
  holds : ∀ T, s'.tables.Le T → P T

/-- A check that leaves the locals as they are. -/
structure Stays (reg : Registry) (P : Tables → Prop) (s s' : State) : Prop
    extends Establishes reg P [] s s' where
  scopes : s'.scopes = s.scopes
  localCount : s'.localCount = s.localCount

section

variable {reg : Registry} {P Q R : Tables → Prop} {s s' s'' : State}

theorem Establishes.andThen {xs ys : List (Nat × Passage)} (h : Establishes reg P xs s s')
    (h' : Establishes reg Q ys s' s'') (hR : ∀ T, P T → Q T → R T) :
    Establishes reg R (xs ++ ys) s s'' where
  tables := h.tables.trans h'.tables
  suits := h'.suits ∘ h.suits
  distinct := h'.distinct ∘ h.distinct
  regular := h'.regular ∘ h.regular
  grows := h.grows.trans h'.grows
  passages x hx := by
    rcases List.mem_append.1 hx with hx | hx
    · exact h'.grows.subset (h.passages x hx)
    · exact h'.passages x hx
  holds T hT := hR T (h.holds T (h'.tables.trans hT)) (h'.holds T hT)

theorem Stays.nothing (s : State) (hP : ∀ T, s.tables.Le T → P T) : Stays reg P s s where
  tables := .refl _
  suits := id
  distinct := id
  regular := id
  grows := List.suffix_refl _
  passages := by simp
  holds := hP
  scopes := rfl
  localCount := rfl

theorem Stays.andThen (h : Stays reg P s s') (h' : Stays reg Q s' s'')
    (hR : ∀ T, P T → Q T → R T) : Stays reg R s s'' where
  toEstablishes := h.toEstablishes.andThen h'.toEstablishes hR
  scopes := h'.scopes.trans h.scopes
  localCount := h'.localCount.trans h.localCount

theorem Stays.mono (h : Stays reg P s s') (hR : ∀ T, P T → R T) : Stays reg R s s' :=
  { h with holds := fun T hT => hR T (h.holds T hT) }

end

section

variable {names : Names} {reg : Registry} {s s' : State} {span : Span} {α : Type} {name : String}
  {a : α} {width n : Nat} {slot? : Option Nat} {xs : List α} {type : ValueType} {role : Role}
  {v : Value} {r : Option Value}
variable {named : α → String} {problem : Problem} {entries : List α} {kind : SlotKind}
  {p : α → Bool} {text : String}

/-! ### Names and slots -/

theorem report_not_clean {u : Unit} (h : Clean (report span problem) s u s') : False := by
  have hs : { s with problems := ⟨problem, span⟩ :: s.problems } = s' := congrArg Prod.snd h.run
  have hproblems := h.problems
  rw [← hs] at hproblems
  cases hproblems

theorem refuse_not_clean {r : Option α} (h : Clean (refuse span problem) s r s') : False := by
  unfold refuse at h
  obtain ⟨_, _, hreport, -⟩ := h.parts
  exact report_not_clean hreport

theorem local?_bind_ok {f : Option Local → Check α} (h : Clean (local? name >>= f) s a s') :
    Clean (f (find s.scopes name)) s a s' :=
  ⟨h.run, h.problems⟩

/-- Texts keep their places. -/
theorem Tables.Le.index {a b : Tables} (h : a.Le b) (hi : a.strings.findIdx? (· == text) = some i) :
    b.strings.findIdx? (· == text) = some i := by
  obtain ⟨hlt, htext, hfirst⟩ := Array.findIdx?_eq_some_iff_getElem.1 hi
  have hkeep {j : Nat} (hj : j < a.strings.size) : ∃ hj' : j < b.strings.size,
      b.strings[j] = a.strings[j] :=
    Array.getElem?_eq_some_iff.1 (h.string (Array.getElem?_eq_getElem hj))
  obtain ⟨hlt', heq⟩ := hkeep hlt
  refine Array.findIdx?_eq_some_iff_getElem.2 ⟨hlt', by rwa [heq], fun j hj => ?_⟩
  obtain ⟨_, heq'⟩ := hkeep (Nat.lt_trans hj hlt)
  rw [heq']
  exact hfirst j hj

theorem findIdx?_intern [BEq α] [LawfulBEq α] (table : Array α) (value : α) :
    (Pool.intern table value).2.findIdx? (· == value) = some (Pool.intern table value).1 := by
  unfold Pool.intern
  split
  · next index h => exact h
  · next h => rw [Array.findIdx?_push, h, beq_self_eq_true]; rfl

theorem addString_ok (h : Clean (addString text) s i s') :
    Stays reg (fun T => T.strings.findIdx? (· == text) = some i) s s' := by
  obtain ⟨-, hkeep⟩ := Assembly.intern_placed s.strings text
  have hindex := findIdx?_intern s.strings text
  cases h.modifyGet
  exact {
    tables := ⟨.refl _, hkeep, id⟩
    suits := id
    distinct := Assembly.intern_nodup text
    regular := fun hs => { hs with }
    grows := List.suffix_refl _
    passages := by simp
    holds := fun T hT => hT.index hindex
    scopes := rfl
    localCount := rfl }

theorem fits_ok {start : Nat} {ok : Bool} (h : Clean (fits kind start width span) s ok s') :
    ok = true ∧ s' = s ∧ start + width ≤ maxSlots := by
  unfold fits at h
  split at h
  · obtain ⟨_, s₁, hreport, h⟩ := h.parts
    exact (report_not_clean hreport).elim
  · next hle =>
    obtain ⟨rfl, rfl⟩ := h.pure
    exact ⟨rfl, rfl, Nat.le_of_not_lt hle⟩

theorem newLocal_ok (h : Clean (newLocal width span) s slot? s') :
    slot? = some s.localCount ∧ s' = { s with localCount := s.localCount + width } ∧
      s.localCount + width ≤ maxSlots := by
  obtain ⟨ok, s₁, hfits, hrest⟩ := h.get_bind.modify_bind.parts
  obtain ⟨rfl, rfl, hle⟩ := fits_ok hfits
  obtain ⟨rfl, rfl⟩ := hrest.pure
  exact ⟨rfl, rfl, hle⟩

theorem toNat_toUInt16_of_le (h : n + m ≤ maxSlots) : n.toUInt16.toNat = n := by
  have : maxSlots = 0xffff := rfl
  rw [Nat.toUInt16, UInt16.toNat_ofNat']
  omega

theorem find?_append_of_eq_some {ys : List α} (h : xs.find? p = some a) :
    (xs ++ ys).find? p = some a := by
  rw [List.find?_append, h]
  rfl

theorem find?_append_new (h : xs.find? p = none) (ha : p a = true) :
    (xs ++ [a]).find? p = some a := by
  rw [List.find?_append, h, List.find?_cons_of_pos ha]
  rfl

theorem not_mem_names_of_find?_eq_none (h : entries.find? (named · == name) = none) :
    name ∉ entries.map named := by
  intro hmem
  obtain ⟨e, he, hname⟩ := List.mem_map.1 hmem
  exact List.find?_eq_none.1 h e he (beq_iff_eq.2 hname)

/-- A name that is not there yet can be added. -/
theorem nodup_names_append {e : α} (hname : named e = name)
    (h : entries.find? (named · == name) = none) (hnodup : (entries.map named).Nodup) :
    ((entries ++ [e]).map named).Nodup := by
  rw [List.map_append, List.map_singleton, hname]
  exact List.nodup_append.2 ⟨hnodup, by simp, fun a ha b hb => by
    cases List.mem_singleton.1 hb
    rintro rfl
    exact not_mem_names_of_find?_eq_none h ha⟩

theorem forall_mem_append_singleton {P : α → Prop} (h : ∀ x ∈ xs, P x) (ha : P a) :
    ∀ x ∈ xs ++ [a], P x := by
  intro x hx
  rcases List.mem_append.1 hx with hx | hx
  · exact h x hx
  · exact List.mem_singleton.1 hx ▸ ha

theorem lookupOr_ok {β γ : Type} {find? : Schema → Option β} {slots : β → γ} {start : Schema → Nat}
    {add : Schema → Schema → Schema} {result : Schema → γ} {r : Option γ}
    (h : Clean (lookupOr find? slots fun schema =>
      register kind (start schema) width span name (add schema) (result schema)) s r s') (e : β)
    (hfind : ∀ {a b : Schema} {e : β}, Retains a b → find? a = some e → find? b = some e)
    (hnew : find? s.schema = none → start s.schema + width ≤ maxSlots →
      let schema := add s.schema s.schema
      result s.schema = slots e ∧ find? schema = some e ∧ Retains s.schema schema ∧
        (Suits reg s.schema → Suits reg schema) ∧
        (s.tables.Regular → schema.inputSize ≤ maxSlots ∧ schema.outputSize ≤ maxSlots)) :
    ∃ e, r = some (slots e) ∧ Stays reg (fun T => find? T.schema = some e) s s' := by
  have hrest := h.get_bind
  split at hrest
  · next e he =>
    obtain ⟨rfl, rfl⟩ := hrest.pure
    exact ⟨e, rfl, .nothing _ fun T hT => hfind hT.schema he⟩
  · next hnone =>
    obtain ⟨ok, s₁, hfits, hrest⟩ := hrest.parts
    obtain ⟨rfl, rfl, hle⟩ := fits_ok hfits
    obtain ⟨_, s₂, hstring, hrest⟩ := hrest.parts
    obtain ⟨i, hstring, -⟩ := hstring.map
    obtain ⟨rfl, rfl⟩ := hrest.modify_bind.pure
    obtain ⟨-, hkeep⟩ := Assembly.intern_placed s₁.strings name
    obtain ⟨hresult, hfound, hadd, hsuits, hsizes⟩ := hnew hnone hle
    cases hstring.modifyGet
    exact ⟨e, congrArg some hresult, {
      tables := ⟨hadd, hkeep, id⟩
      suits := hsuits
      distinct := Assembly.intern_nodup name
      regular := fun hs => ⟨(hsizes hs).1, (hsizes hs).2, hs.points, hs.timeout⟩
      grows := List.suffix_refl _
      passages := by simp
      holds := fun T hT => hfind hT.schema hfound
      scopes := rfl
      localCount := rfl }⟩

theorem bindInput_ok (hname : reg.lookup name = some ⟨type, .input⟩)
    (h : Clean (bindInput name type span) s slot? s') :
    ∃ e : Schema.Entry, slot? = some e.slot.toNat ∧
      Stays reg (fun T => T.schema.input? name = some e) s s' := by
  rw [bindInput_eq] at h
  refine lookupOr_ok h ⟨name, type, s.schema.inputSize.toUInt16⟩ (·.input) fun hnone hle => ?_
  have hslot := toNat_toUInt16_of_le hle
  refine ⟨hslot.symm, find?_append_new hnone (beq_self_eq_true name),
    ⟨find?_append_of_eq_some, id, id⟩, fun hs => ?_,
    fun hs => ⟨(Schema.inputSize_append hslot).trans_le hle, hs.outputSize⟩⟩
  exact { hs with
    inputs := nodup_names_append rfl hnone hs.inputs
    input := forall_mem_append_singleton hs.input hname
    layout := hs.layout.addInput hslot }

theorem bindOutput_ok (hname : reg.lookup name = some ⟨type, .output⟩)
    (h : Clean (bindOutput name type span) s slot? s') :
    ∃ e : Schema.Entry, slot? = some e.slot.toNat ∧
      Stays reg (fun T => T.schema.output? name = some e) s s' := by
  rw [bindOutput_eq] at h
  refine lookupOr_ok h ⟨name, type, s.schema.outputSize.toUInt16⟩ (·.output) fun hnone hle => ?_
  have hslot := toNat_toUInt16_of_le hle
  refine ⟨hslot.symm, find?_append_new hnone (beq_self_eq_true name),
    ⟨id, find?_append_of_eq_some, id⟩, fun hs => ?_,
    fun hs => ⟨hs.inputSize, (Schema.outputSize_append hslot).trans_le hle⟩⟩
  exact { hs with
    outputs := nodup_names_append rfl hnone hs.outputs
    output := forall_mem_append_singleton hs.output hname
    layout := hs.layout.addOutput hslot }

theorem bindChannel_ok {slots? : Option (Nat × Nat)}
    (hname : reg.lookup name = some ⟨type, .channel⟩)
    (h : Clean (bindChannel name type span) s slots? s') :
    ∃ c : Schema.Channel, slots? = some (c.valueSlot.toNat, c.urgencySlot.toNat) ∧
      Stays reg (fun T => T.schema.channel? name = some c) s s' := by
  rw [bindChannel_eq] at h
  refine lookupOr_ok h ⟨name, type, s.schema.outputSize.toUInt16,
    (s.schema.outputSize + type.width).toUInt16⟩ (·.channel) fun hnone hle => ?_
  have hvalue := toNat_toUInt16_of_le hle
  have hurgency : (s.schema.outputSize + type.width).toUInt16.toNat =
      s.schema.outputSize.toUInt16.toNat + type.width := by
    rw [hvalue, toNat_toUInt16_of_le (m := 1) (by omega)]
  refine ⟨by rw [hurgency, hvalue], find?_append_new hnone (beq_self_eq_true name),
    ⟨id, id, find?_append_of_eq_some⟩, fun hs => ?_,
    fun hs => ⟨hs.inputSize, (Schema.outputSize_append_channel hvalue hurgency).trans_le hle⟩⟩
  exact { hs with
    channels := nodup_names_append rfl hnone hs.channels
    channel := forall_mem_append_singleton hs.channel hname
    urgency := forall_mem_append_singleton hs.urgency hurgency
    layout := hs.layout.addChannel hvalue hurgency }

/-! ### Expressions -/

theorem mem_of_lookup {xs : List (String × α)} (h : xs.lookup name = some a) : (name, a) ∈ xs := by
  obtain ⟨before, after, rfl, -⟩ := List.lookup_eq_some_iff.1 h
  exact List.mem_append_right _ List.mem_cons_self

theorem Below.find (h : Below n scopes) {l : Local} (hl : find scopes name = some l) :
    ∃ type, l = ⟨l.slot, some type⟩ ∧ l.slot + type.width ≤ n := by
  obtain ⟨scope, hscope, hlookup⟩ := List.exists_of_findSome?_eq_some hl
  obtain ⟨type, htype, hle⟩ := h scope hscope _ (mem_of_lookup hlookup)
  exact ⟨type, by rw [← htype], hle⟩

theorem expect_ok (h : Clean (expect role type span (some v)) s r s') :
    v.type = type ∧ r = some v ∧ s' = s := by
  unfold expect at h
  dsimp only at h
  split at h
  · next htype => exact ⟨htype, h.pure⟩
  · exact (refuse_not_clean h).elim

theorem expectNumber_ok {r : Option Scalar} (h : Clean (expectNumber role span (some v)) s r s') :
    ∃ x, v = .number x ∧ r = some x ∧ s' = s := by
  obtain ⟨_, s₁, hexpect, hrest⟩ := h.parts
  obtain ⟨htype, rfl, rfl⟩ := expect_ok hexpect
  obtain ⟨rfl, rfl⟩ := hrest.pure
  cases v with
  | number x => exact ⟨x, rfl, rfl, rfl⟩
  | bool x | string x | vector x => cases htype

theorem expectBool_ok {r : Option Scalar} (h : Clean (expectBool role span (some v)) s r s') :
    ∃ x, v = .bool x ∧ r = some x ∧ s' = s := by
  obtain ⟨_, s₁, hexpect, hrest⟩ := h.parts
  obtain ⟨htype, rfl, rfl⟩ := expect_ok hexpect
  obtain ⟨rfl, rfl⟩ := hrest.pure
  cases v with
  | number x | string x | vector x => cases htype
  | bool x => exact ⟨x, rfl, rfl, rfl⟩

theorem Names.lookup_of_resolve? {qualified : String} {v : Variable}
    (h : names.resolve? name = some (qualified, v)) : names.registry.lookup qualified = some v := by
  unfold Names.resolve? at h
  split at h
  · next v' hv =>
    cases h
    exact hv
  · obtain ⟨space, -, hspace⟩ := List.exists_of_findSome?_eq_some h
    obtain ⟨v', hv, heq⟩ := Option.map_eq_some_iff.1 hspace
    cases heq
    exact hv

theorem checkVar_ok (hscopes : Below n s.scopes) (h : Clean (checkVar names span name) s r s') :
    ∃ v, r = some v ∧
      Stays names.registry (fun T => ExprElaborates names T s.scopes (.var span name) v) s s' := by
  have hrest := local?_bind_ok h
  split at hrest
  · next l hl =>
    obtain ⟨type, hl', -⟩ := hscopes.find hl
    obtain ⟨rfl, rfl⟩ := hrest.pure
    rw [hl'] at hl ⊢
    exact ⟨_, rfl, .nothing _ fun T _ => .ofLocal hl⟩
  · next hnone =>
    split at hrest
    · next qualified type hresolved =>
      obtain ⟨slot?, s₂, hinput, hrest⟩ := hrest.parts
      obtain ⟨e, rfl, hs⟩ := bindInput_ok (Names.lookup_of_resolve? hresolved) hinput
      obtain ⟨rfl, rfl⟩ := hrest.pure
      exact ⟨_, rfl, hs.mono fun T hT => .ofInput hnone hresolved hT⟩
    · exact (refuse_not_clean hrest).elim
    · next hresolved =>
      split at hrest
      · next x hx =>
        obtain ⟨rfl, rfl⟩ := hrest.pure
        exact ⟨_, rfl, .nothing _ fun T _ => .constant hnone hresolved hx⟩
      · exact (refuse_not_clean hrest).elim

theorem Builtin.exists_call (builtin : Builtin) {xs : List Scalar}
    (h : xs.length = builtin.arity) : ∃ x, builtin.call? xs = some x := by
  cases builtin with
  | random =>
    obtain rfl := List.length_eq_zero_iff.1 h
    exact ⟨_, rfl⟩
  | abs =>
    obtain ⟨a, rfl⟩ := List.length_eq_one_iff.1 h
    exact ⟨_, rfl⟩
  | min | max =>
    obtain ⟨a, b, rfl⟩ := List.length_eq_two.1 h
    exact ⟨_, rfl⟩
  | lerp | clamp =>
    obtain ⟨a, b, c, rfl⟩ := List.length_eq_three.1 h
    exact ⟨_, rfl⟩

theorem mapM_id_map_some (xs : List α) : (xs.map some).mapM id = some xs := by
  induction xs with
  | nil => rfl
  | cons x xs ih => simp [ih]

theorem checkCall_ok {function : String} {xs : List Scalar}
    (h : Clean (checkCall span function (xs.map some)) s r s') :
    ∃ builtin x, Builtin.ofName? function = some builtin ∧ builtin.call? xs = some x ∧
      r = some (.number x) ∧ s' = s := by
  unfold checkCall at h
  split at h
  · exact (refuse_not_clean h).elim
  · next builtin hbuiltin =>
    split at h
    · next hlength =>
      rw [List.length_map] at hlength
      obtain ⟨x, hx⟩ := builtin.exists_call hlength
      obtain ⟨rfl, rfl⟩ := h.pure
      rw [mapM_id_map_some, Option.bind_some, hx]
      exact ⟨builtin, x, hbuiltin, hx, rfl, rfl⟩
    · exact (refuse_not_clean h).elim

theorem checkBinary_ok {a : Value} (h : Clean (checkBinary span op (some a) (some b)) s r s') :
    ∃ v, Value.combine? op a b = some v ∧ r = some v ∧ s' = s := by
  unfold checkBinary at h
  dsimp only at h
  split at h
  · next v hv => exact ⟨v, hv, h.pure⟩
  · exact (refuse_not_clean h).elim

theorem checkChoice_ok {a : Value} (h : Clean (checkChoice span (some c) (some a) (some b)) s r s')
    :
    ∃ v, Value.select? c a b = some v ∧ r = some v ∧ s' = s := by
  unfold checkChoice at h
  dsimp only at h
  split at h
  · next v hv => exact ⟨v, hv, h.pure⟩
  · exact (refuse_not_clean h).elim

end

mutual

/-- An expression without problems elaborates to the value that was found. -/
theorem checkExpr_ok {names : Names} {e : Expr} {s s' : State} {r : Option Value} {n : Nat}
    (hscopes : Below n s.scopes) (h : Clean (checkExpr names e) s r s') :
    ∃ v, r = some v ∧
      Stays names.registry (fun T => ExprElaborates names T s.scopes e v) s s' := by
  cases e with
  | number span x =>
    obtain ⟨rfl, rfl⟩ := h.pure
    exact ⟨_, rfl, .nothing _ fun T _ => .number⟩
  | bool span b =>
    obtain ⟨rfl, rfl⟩ := h.pure
    exact ⟨_, rfl, .nothing _ fun T _ => .bool⟩
  | str span text =>
    obtain ⟨i, s₁, hstring, hrest⟩ := h.parts
    obtain ⟨rfl, rfl⟩ := hrest.pure
    exact ⟨_, rfl, (addString_ok hstring).mono fun T hT => .str hT⟩
  | vector span items =>
    rw [checkExpr] at h
    obtain ⟨_, s₁, hitems, hrest⟩ := h.parts
    obtain ⟨xs, rfl, hs⟩ := checkNumbers_ok hscopes hitems
    match xs with
    | [x, y, z] =>
      obtain ⟨rfl, rfl⟩ := hrest.pure
      exact ⟨_, rfl, hs.mono fun T hT => .vector hT⟩
    | [] | [_] | [_, _] | _ :: _ :: _ :: _ :: _ => exact (refuse_not_clean hrest).elim
  | var span name => exact checkVar_ok hscopes h
  | unary span op operand =>
    cases op with
    | neg =>
      rw [checkExpr] at h
      obtain ⟨_, s₁, hoperand, hrest⟩ := h.parts
      obtain ⟨v, rfl, hs⟩ := checkExpr_ok hscopes hoperand
      obtain ⟨_, s₂, hnumber, hrest⟩ := hrest.parts
      obtain ⟨x, rfl, rfl, rfl⟩ := expectNumber_ok hnumber
      obtain ⟨rfl, rfl⟩ := hrest.pure
      exact ⟨_, rfl, hs.mono fun T hT => .neg hT⟩
    | not =>
      rw [checkExpr] at h
      obtain ⟨_, s₁, hoperand, hrest⟩ := h.parts
      obtain ⟨v, rfl, hs⟩ := checkExpr_ok hscopes hoperand
      obtain ⟨_, s₂, hbool, hrest⟩ := hrest.parts
      obtain ⟨x, rfl, rfl, rfl⟩ := expectBool_ok hbool
      obtain ⟨rfl, rfl⟩ := hrest.pure
      exact ⟨_, rfl, hs.mono fun T hT => .not hT⟩
  | binary span op left right =>
    rw [checkExpr_binary] at h
    obtain ⟨_, s₁, hleft, h₁⟩ := h.parts
    obtain ⟨a, rfl, hs⟩ := checkExpr_ok hscopes hleft
    obtain ⟨_, s₂, hright, h₂⟩ := h₁.parts
    obtain ⟨b, rfl, hs'⟩ := checkExpr_ok (hs.scopes ▸ hscopes) hright
    obtain ⟨v, hv, rfl, rfl⟩ := checkBinary_ok h₂
    rw [hs.scopes] at hs'
    exact ⟨v, rfl, hs.andThen hs' fun T ha hb => .binary ha hb hv⟩
  | conditional span condition thenExpr elseExpr =>
    rw [checkExpr_conditional] at h
    obtain ⟨_, s₁, hcondition, h₁⟩ := h.parts
    obtain ⟨_, rfl, hs⟩ := checkExpr_ok hscopes hcondition
    obtain ⟨_, s₂, hbool, h₂⟩ := h₁.parts
    obtain ⟨c, rfl, rfl, rfl⟩ := expectBool_ok hbool
    obtain ⟨_, s₃, hthen, h₃⟩ := h₂.parts
    obtain ⟨a, rfl, hs'⟩ := checkExpr_ok (hs.scopes ▸ hscopes) hthen
    rw [hs.scopes] at hs'
    have hboth := hs.andThen hs' fun T hc ha => And.intro hc ha
    obtain ⟨_, s₄, helse, h₄⟩ := h₃.parts
    obtain ⟨b, rfl, hs''⟩ := checkExpr_ok (hboth.scopes ▸ hscopes) helse
    obtain ⟨v, hv, rfl, rfl⟩ := checkChoice_ok h₄
    rw [hboth.scopes] at hs''
    exact ⟨v, rfl, hboth.andThen hs'' fun T h hb => .conditional h.1 h.2 hb hv⟩
  | call span function args =>
    rw [checkExpr] at h
    obtain ⟨_, s₁, hargs, hrest⟩ := h.parts
    obtain ⟨xs, rfl, hs⟩ := checkNumbers_ok hscopes hargs
    obtain ⟨builtin, x, hbuiltin, hcall, rfl, rfl⟩ := checkCall_ok hrest
    exact ⟨_, rfl, hs.mono fun T hT => .call hbuiltin hT hcall⟩

theorem checkNumbers_ok {names : Names} {role : Role} {items : List Expr} {s s' : State}
    {r : List (Option Scalar)} {n : Nat} (hscopes : Below n s.scopes)
    (h : Clean (checkNumbers names role items) s r s') :
    ∃ xs : List Scalar, r = xs.map some ∧
      Stays names.registry (fun T => NumbersElaborate names T s.scopes items xs) s s' := by
  cases items with
  | nil =>
    obtain ⟨rfl, rfl⟩ := h.pure
    exact ⟨[], rfl, .nothing _ fun T _ => .nil⟩
  | cons e rest =>
    rw [checkNumbers] at h
    obtain ⟨v?, s₁, he, h₁⟩ := h.parts
    obtain ⟨v, rfl, hs⟩ := checkExpr_ok hscopes he
    obtain ⟨x?, s₂, hx, h₂⟩ := h₁.parts
    obtain ⟨x, rfl, rfl, rfl⟩ := expectNumber_ok hx
    obtain ⟨xs?, s₃, hxs, h₃⟩ := h₂.parts
    obtain ⟨xs, rfl, hs'⟩ := checkNumbers_ok (hs.scopes ▸ hscopes) hxs
    obtain ⟨rfl, rfl⟩ := h₃.pure
    rw [hs.scopes] at hs'
    exact ⟨x :: xs, rfl, hs.andThen hs' fun T hT hT' => .cons hT hT'⟩

end

/-! ### Statements -/

mutual

/-- Slots are handed out in order. -/
theorem StmtElaborates.next_le {names : Names} {T : Tables} {outer : List Scope} {p p' : Place}
    {stmt : Behavior.Stmt} {t : Stmt} (h : StmtElaborates names T outer p stmt t p') :
    p.next ≤ p'.next := by
  cases h with
  | bind hvalue hfits => exact Nat.le_add_right _ _
  | branch hcondition hthen helse => exact Nat.le_trans hthen.next_le helse.next_le
  | loop hcount hfits hbody => exact Nat.le_of_succ_le hbody.next_le
  | _ => exact Nat.le_refl _

theorem StmtsElaborate.next_le {names : Names} {T : Tables} {outer : List Scope} {p p' : Place}
    {stmts : List Behavior.Stmt} {ts : List Stmt} (h : StmtsElaborate names T outer p stmts ts p') :
    p.next ≤ p'.next := by
  cases h with
  | nil => exact Nat.le_refl _
  | cons hhead htail => exact Nat.le_trans hhead.next_le htail.next_le

end

theorem Below.start (n : Nat) : Below n [[]] := by
  intro scope hscope x hx
  cases List.mem_singleton.1 hscope
  cases hx

theorem Below.mono (h : Below n scopes) (hnm : n ≤ m) : Below m scopes := by
  intro scope hscope x hx
  obtain ⟨type, htype, hle⟩ := h scope hscope x hx
  exact ⟨type, htype, Nat.le_trans hle hnm⟩

theorem Below.define {scope : Scope} {outer : List Scope} (h : Below n (scope :: outer))
    (name : String) (type : ValueType) :
    Below (n + type.width) (scope.define name ⟨n, some type⟩ :: outer) := by
  intro scope' hscope' x hx
  rcases List.mem_cons.1 hscope' with rfl | houter
  · rcases List.mem_cons.1 hx with rfl | hx
    · exact ⟨type, rfl, Nat.le_refl _⟩
    · exact h.mono (Nat.le_add_right _ _) scope List.mem_cons_self x (List.mem_of_mem_filter hx)
  · exact h.mono (Nat.le_add_right _ _) scope' (List.mem_cons_of_mem _ houter) x hx

theorem Below.block (h : Below n scopes) : Below n ([] :: scopes) := by
  intro scope hscope x hx
  rcases List.mem_cons.1 hscope with rfl | hscope
  · cases hx
  · exact h scope hscope x hx

/-- All locals stay below the first free slot. -/
theorem StmtElaborates.keeps_below {outer : List Scope} {p p' : Place} {stmt : Behavior.Stmt}
    {t : Stmt} (h : StmtElaborates names T outer p stmt t p') (hp : Below p.next (p.scope :: outer))
    :
    Below p'.next (p'.scope :: outer) := by
  have hle := h.next_le
  cases h with
  | bind hvalue hfits => exact hp.define _ _
  | _ => exact hp.mono hle

mutual

/-- The flows that a statement leads to, and how it gets there. -/
def Stmt.passages : Stmt → List (Nat × Passage)
  | .call _ flow => [(flow, .call)]
  | .goto _ flow | .continuation _ _ flow => [(flow, .jump)]
  | .branch _ _ thenBody elseBody => Stmt.allPassages thenBody ++ Stmt.allPassages elseBody
  | .loop _ _ _ body => Stmt.allPassages body
  | .setLocal .. | .setOutput .. | .intent .. | .wait .. | .halt .. => []

def Stmt.allPassages : List Stmt → List (Nat × Passage)
  | [] => []
  | stmt :: rest => stmt.passages ++ Stmt.allPassages rest

end

/-- The state of a check that stands at a place. -/
structure At (outer : List Scope) (p : Place) (s : State) : Prop where
  scopes : s.scopes = p.scope :: outer
  next : s.localCount = p.next
  below : Below p.next (p.scope :: outer)

section

variable {names : Names} {reg : Registry} {s s' : State} {outer : List Scope} {p : Place}
  {P : Tables → Prop} {span : Span} {name : String} {v : Value} {r : Option Stmt}
  {xs : List (Nat × Passage)}
variable {default : String}

theorem At.stays (hp : At outer p s) (h : Stays reg P s s') :
    At outer p s' :=
  ⟨h.scopes.trans hp.scopes, h.localCount.trans hp.next, hp.below⟩

theorem checkExpr_at {e : Expr} {r : Option Value} (hp : At outer p s)
    (h : Clean (checkExpr names e) s r s') :
    ∃ v, r = some v ∧
      Stays names.registry (fun T => ExprElaborates names T (p.scope :: outer) e v) s s' := by
  rw [← hp.scopes]
  exact checkExpr_ok (hp.scopes ▸ hp.below) h

theorem enter_ok {passage : Passage} {r : Option Nat}
    (h : Clean (enter names span passage name) s r s') :
    ∃ flow, r = some flow ∧ names.flows.lookup name = some flow ∧
      s' = { s with passages := (flow, passage) :: s.passages } := by
  unfold enter at h
  split at h
  · next flow hflow =>
    obtain ⟨rfl, rfl⟩ := h.modify_bind.pure
    exact ⟨flow, rfl, hflow, rfl⟩
  · exact (refuse_not_clean h).elim

theorem checkBind_ok (hp : At outer p s) (h : Clean (checkBind span name (some v)) s r s') :
    r = some (.setLocal span p.next v) ∧ p.next + v.type.width ≤ maxSlots ∧
      s' = { s with
        localCount := p.next + v.type.width
        scopes := p.scope.define name ⟨p.next, some v.type⟩ :: outer } := by
  unfold checkBind at h
  dsimp only at h
  obtain ⟨slot?, s₁, hlocal, hrest⟩ := h.parts
  obtain ⟨rfl, rfl, hle⟩ := newLocal_ok hlocal
  obtain ⟨rfl, rfl⟩ := hrest.modify_bind.pure
  rw [hp.next] at hle ⊢
  refine ⟨rfl, hle, ?_⟩
  rw [hp.scopes]
  rfl

theorem checkAssign_ok {target : String} (hp : At outer p s)
    (h : Clean (checkAssign names span target (some v)) s r s') :
    ∃ t, r = some t ∧ t.passages = [] ∧
      Stays names.registry (fun T => ∀ e, ExprElaborates names T (p.scope :: outer) e v →
        StmtElaborates names T outer p (.assign span target e) t p) s s' := by
  have hrest := local?_bind_ok h
  rw [hp.scopes] at hrest
  split at hrest
  · next slot hfound =>
    obtain ⟨type, htype, -⟩ := hp.below.find hfound
    cases htype
  · next slot type hfound =>
    obtain ⟨_, s₁, hexpect, h₁⟩ := hrest.parts
    obtain ⟨rfl, rfl, rfl⟩ := expect_ok hexpect
    obtain ⟨rfl, rfl⟩ := h₁.pure
    exact ⟨_, rfl, rfl, .nothing _ fun T _ e he => .assignLocal he hfound⟩
  · next hfound =>
    split at hrest
    · next qualified type hresolved =>
      obtain ⟨_, s₁, hexpect, h₁⟩ := hrest.parts
      obtain ⟨rfl, rfl, rfl⟩ := expect_ok hexpect
      obtain ⟨_, s₂, houtput, h₂⟩ := h₁.parts
      obtain ⟨entry, rfl, hs⟩ := bindOutput_ok (Names.lookup_of_resolve? hresolved) houtput
      obtain ⟨rfl, rfl⟩ := h₂.pure
      exact ⟨_, rfl, rfl, hs.mono fun T hT e he => .assignOutput he hfound hresolved hT⟩
    · exact (refuse_not_clean hrest).elim
    · split at hrest
      · exact (refuse_not_clean hrest).elim
      · exact (refuse_not_clean hrest).elim

theorem checkIntent_ok {channel : String} {w : Value}
    (h : Clean (checkIntent names span channel (some v) (some w)) s r s') :
    ∃ t u, r = some t ∧ t.passages = [] ∧ w = .number u ∧
      Stays names.registry (fun T => ∀ value urgency,
        ExprElaborates names T (p.scope :: outer) value v →
        ExprElaborates names T (p.scope :: outer) urgency (.number u) →
        StmtElaborates names T outer p (.intent span channel value urgency) t p) s s' := by
  unfold checkIntent at h
  obtain ⟨_, s₁, hnumber, h₁⟩ := h.parts
  obtain ⟨u, rfl, rfl, rfl⟩ := expectNumber_ok hnumber
  split at h₁
  · next qualified type hresolved =>
    obtain ⟨_, s₂, hexpect, h₂⟩ := h₁.parts
    obtain ⟨rfl, rfl, rfl⟩ := expect_ok hexpect
    obtain ⟨_, s₃, hchannel, h₃⟩ := h₂.parts
    obtain ⟨c, rfl, hs⟩ := bindChannel_ok (Names.lookup_of_resolve? hresolved) hchannel
    obtain ⟨rfl, rfl⟩ := h₃.pure
    exact ⟨_, u, rfl, rfl, rfl, hs.mono fun T hT _ _ hv hu => .intent hv hu hresolved hT⟩
  · exact (refuse_not_clean h₁).elim
  · exact (refuse_not_clean h₁).elim

theorem checkPoint_ok (htimeout : timeoutMs? seconds = some timeout)
    (h : Clean (checkPoint names span name (some timeout) default) s r s') :
    ∃ t, r = some t ∧ s'.scopes = s.scopes ∧ s'.localCount = s.localCount ∧
      Establishes names.registry (fun T => StmtElaborates names T outer p
        (.continuation span name seconds default) t p) t.passages s s' := by
  have h₁ := h.get_bind
  dsimp only at h₁
  split at h₁
  · exact (refuse_not_clean h₁).elim
  · next hnew =>
    obtain ⟨_, s₁, henter, h₂⟩ := h₁.parts
    obtain ⟨flow, rfl, hflow, rfl⟩ := enter_ok henter
    obtain ⟨_, s₂, hstring, h₃⟩ := h₂.parts
    obtain ⟨i, hstring, -⟩ := hstring.map
    obtain ⟨-, hkeep⟩ := Assembly.intern_placed s.strings name
    obtain ⟨rfl, rfl⟩ := h₃.modify_bind.pure
    cases hstring.modifyGet
    refine ⟨_, rfl, rfl, rfl, ⟨.refl _, hkeep, Assembly.getElem?_push_of_eq_some⟩, id,
      Assembly.intern_nodup name, fun hs => hs.addPoint hnew htimeout, List.suffix_cons _ _, ?_, ?_⟩
    · intro target htarget
      cases List.mem_singleton.1 htarget
      exact List.mem_cons_self
    · intro T hT
      exact .continuation htimeout (hT.point Array.getElem?_push_size) hflow

theorem checkContinuation_ok (h : Clean (checkContinuation names span name seconds default) s r s')
    :
    ∃ t, r = some t ∧ s'.scopes = s.scopes ∧ s'.localCount = s.localCount ∧
      Establishes names.registry (fun T => StmtElaborates names T outer p
        (.continuation span name seconds default) t p) t.passages s s' := by
  rw [checkContinuation_eq] at h
  cases htimeout : timeoutMs? seconds with
  | none =>
    rw [htimeout, if_pos Option.isNone_none] at h
    obtain ⟨_, s₁, hreport, -⟩ := h.parts
    exact (report_not_clean hreport).elim
  | some timeout =>
    rw [htimeout, if_neg (by simp)] at h
    exact checkPoint_ok htimeout h

theorem Establishes.enter (hP : ∀ T, P T) (flow : Nat) (passage : Passage) :
    Establishes reg P [(flow, passage)] s
      { s with passages := (flow, passage) :: s.passages } where
  tables := .refl _
  suits := id
  distinct := id
  regular := id
  grows := List.suffix_cons _ _
  passages _ hx := List.mem_singleton.1 hx ▸ List.mem_cons_self
  holds T _ := hP T

/-- A block with locals of its own starts in a state of its own. -/
theorem inBlock_ok {α : Type} {block : Check α} {a : α} (h : Clean (inBlock block) s a s') :
    ∃ s₁, Clean block { s with scopes := [] :: s.scopes } a s₁ ∧
      s' = { s₁ with scopes := s₁.scopes.tail } := by
  obtain ⟨_, s₁, hrun, hrest⟩ := h.modify_bind.parts
  obtain ⟨rfl, rfl⟩ := hrest.modify_bind.pure
  exact ⟨s₁, hrun, rfl⟩

theorem At.block (hp : At outer p s) :
    At (p.scope :: outer) ⟨[], p.next⟩ { s with scopes := [] :: s.scopes } :=
  ⟨by rw [hp.scopes], hp.next, hp.below.block⟩

/-- After a block, its locals are forgotten but their slots stay in use. -/
theorem At.afterBlock {q : Place} (hp : At outer p s) (hle : p.next ≤ q.next)
    (hscopes : s'.scopes = q.scope :: p.scope :: outer) (hnext : s'.localCount = q.next) :
    At outer ⟨p.scope, q.next⟩ { s' with scopes := s'.scopes.tail } :=
  ⟨by rw [hscopes]; rfl, hnext, hp.below.mono hle⟩

theorem Establishes.block (h : Establishes reg P xs { s with scopes := [] :: s.scopes } s') :
    Establishes reg P xs s { s' with scopes := s'.scopes.tail } :=
  ⟨h.tables, h.suits, h.distinct, h.regular, h.grows, h.passages, h.holds⟩

theorem Establishes.now (h : Establishes reg P xs s s') :
    P s'.tables :=
  h.holds _ (.refl _)

end

mutual

/-- A statement without problems elaborates to the one that was found. -/
theorem checkStmt_ok {names : Names} {stmt : Behavior.Stmt} {s s' : State} {outer : List Scope}
    {p : Place} {r : Option Stmt} (hp : At outer p s) (h : Clean (checkStmt names stmt) s r s') :
    ∃ t p', r = some t ∧ s'.scopes = p'.scope :: outer ∧ s'.localCount = p'.next ∧
      Establishes names.registry (fun T => StmtElaborates names T outer p stmt t p') t.passages
        s s' := by
  cases stmt with
  | bind span name value =>
    rw [checkStmt] at h
    obtain ⟨_, s₁, hvalue, hrest⟩ := h.parts
    obtain ⟨v, rfl, hs⟩ := checkExpr_at hp hvalue
    obtain ⟨rfl, hfits, rfl⟩ := checkBind_ok (hp.stays hs) hrest
    exact ⟨_, _, rfl, rfl, rfl, hs.tables, hs.suits, hs.distinct, hs.regular, hs.grows, hs.passages,
      fun T hT => .bind (hs.holds T hT) hfits⟩
  | assign span target value =>
    rw [checkStmt] at h
    obtain ⟨_, s₁, hvalue, hrest⟩ := h.parts
    obtain ⟨v, rfl, hs⟩ := checkExpr_at hp hvalue
    obtain ⟨t, rfl, ht, hs'⟩ := checkAssign_ok (hp.stays hs) hrest
    have hboth := hs.andThen hs' fun T hv ht => ht value hv
    exact ⟨t, p, rfl, hboth.scopes.trans hp.scopes, hboth.localCount.trans hp.next,
      ht ▸ hboth.toEstablishes⟩
  | intent span channel value urgency =>
    rw [checkStmt] at h
    obtain ⟨_, s₁, hvalue, h₁⟩ := h.parts
    obtain ⟨v, rfl, hs⟩ := checkExpr_at hp hvalue
    obtain ⟨_, s₂, hurgency, h₂⟩ := h₁.parts
    obtain ⟨w, rfl, hs'⟩ := checkExpr_at (hp.stays hs) hurgency
    obtain ⟨t, u, rfl, ht, rfl, hs''⟩ := checkIntent_ok h₂
    have hboth := hs.andThen hs' fun T hv hu => And.intro hv hu
    have hall := hboth.andThen hs'' fun T hvu ht => ht value urgency hvu.1 hvu.2
    exact ⟨t, p, rfl, hall.scopes.trans hp.scopes, hall.localCount.trans hp.next,
      ht ▸ hall.toEstablishes⟩
  | branch span condition thenBody elseBody =>
    rw [checkStmt] at h
    obtain ⟨_, s₁, hcondition, h₁⟩ := h.parts
    obtain ⟨_, rfl, hs⟩ := checkExpr_at hp hcondition
    obtain ⟨_, s₂, hbool, h₂⟩ := h₁.parts
    obtain ⟨c, rfl, rfl, rfl⟩ := expectBool_ok hbool
    obtain ⟨thenStmts, s₃, hthen, h₃⟩ := h₂.parts
    have hp₁ := hp.stays hs
    obtain ⟨s₄, hthenBody, rfl⟩ := inBlock_ok hthen
    obtain ⟨_, q, rfl, hscopes, hnext, hs₁⟩ := checkStmts_ok hp₁.block hthenBody
    have hp₃ := hp₁.afterBlock hs₁.now.next_le hscopes hnext
    obtain ⟨elseStmts, s₅, helse, h₄⟩ := h₃.parts
    obtain ⟨s₆, helseBody, rfl⟩ := inBlock_ok helse
    obtain ⟨_, r, rfl, hscopes', hnext', hs₂⟩ := checkStmts_ok hp₃.block helseBody
    obtain ⟨rfl, rfl⟩ := h₄.pure
    have hp₄ := hp₃.afterBlock hs₂.now.next_le hscopes' hnext'
    have hboth := hs.toEstablishes.andThen hs₁.block fun T hc ht => And.intro hc ht
    exact ⟨_, ⟨p.scope, r.next⟩, rfl, hp₄.scopes, hp₄.next,
      hboth.andThen hs₂.block fun T h he => .branch h.1 h.2 he⟩
  | loop span count body =>
    rw [checkStmt] at h
    split at h
    · obtain ⟨_, _, hreport, -⟩ := h.parts
      exact (report_not_clean hreport).elim
    · next hcount =>
      dsimp only at h
      obtain ⟨_, s₁, hcounter, h₁⟩ := h.parts
      obtain ⟨rfl, rfl, hfits⟩ := newLocal_ok hcounter
      have hp₁ : At outer ⟨p.scope, p.next + 1⟩ { s with localCount := s.localCount + 1 } :=
        ⟨hp.scopes, by rw [hp.next], hp.below.mono (Nat.le_succ _)⟩
      obtain ⟨stmts, s₂, hbody, h₂⟩ := h₁.parts
      obtain ⟨s₃, hstmts, rfl⟩ := inBlock_ok hbody
      obtain ⟨_, q, rfl, hscopes, hnext, hs⟩ := checkStmts_ok hp₁.block hstmts
      obtain ⟨rfl, rfl⟩ := h₂.pure
      have hp₃ := hp₁.afterBlock hs.now.next_le hscopes hnext
      rw [hp.next] at hfits ⊢
      exact ⟨_, ⟨p.scope, q.next⟩, rfl, hp₃.scopes, hp₃.next, hs.tables, hs.suits, hs.distinct,
        hs.regular, hs.grows, hs.passages,
        fun T hT => .loop (Nat.le_of_not_lt hcount) hfits (hs.holds T hT)⟩
  | call span flow =>
    rw [checkStmt] at h
    obtain ⟨_, s₁, henter, hrest⟩ := h.parts
    obtain ⟨i, rfl, hflow, rfl⟩ := enter_ok henter
    obtain ⟨rfl, rfl⟩ := hrest.pure
    exact ⟨_, p, rfl, hp.scopes, hp.next, .enter (fun T => .call hflow) i .call⟩
  | goto span flow =>
    rw [checkStmt] at h
    obtain ⟨_, s₁, henter, hrest⟩ := h.parts
    obtain ⟨i, rfl, hflow, rfl⟩ := enter_ok henter
    obtain ⟨rfl, rfl⟩ := hrest.pure
    exact ⟨_, p, rfl, hp.scopes, hp.next, .enter (fun T => .goto hflow) i .jump⟩
  | wait span seconds =>
    rw [checkStmt] at h
    obtain ⟨_, s₁, hseconds, h₁⟩ := h.parts
    obtain ⟨v, rfl, hs⟩ := checkExpr_at hp hseconds
    obtain ⟨_, s₂, hnumber, h₂⟩ := h₁.parts
    obtain ⟨x, rfl, rfl, rfl⟩ := expectNumber_ok hnumber
    obtain ⟨rfl, rfl⟩ := h₂.pure
    exact ⟨_, p, rfl, hs.scopes.trans hp.scopes, hs.localCount.trans hp.next,
      (hs.mono fun T hT => .wait hT).toEstablishes⟩
  | continuation span name seconds default =>
    rw [checkStmt] at h
    obtain ⟨t, rfl, hscopes, hnext, hs⟩ := checkContinuation_ok h
    exact ⟨t, p, rfl, hscopes.trans hp.scopes, hnext.trans hp.next, hs⟩
  | halt span =>
    rw [checkStmt] at h
    obtain ⟨rfl, rfl⟩ := h.pure
    exact ⟨_, p, rfl, hp.scopes, hp.next, (Stays.nothing _ fun T _ => .halt).toEstablishes⟩

theorem checkStmts_ok {names : Names} {stmts : List Behavior.Stmt} {done : List Stmt}
    {s s' : State} {outer : List Scope} {p : Place} {r : List Stmt} (hp : At outer p s)
    (h : Clean (checkStmts names done stmts) s r s') :
    ∃ ts p', r = done.reverse ++ ts ∧ s'.scopes = p'.scope :: outer ∧ s'.localCount = p'.next ∧
      Establishes names.registry (fun T => StmtsElaborate names T outer p stmts ts p')
        (Stmt.allPassages ts) s s' := by
  cases stmts with
  | nil =>
    rw [checkStmts] at h
    obtain ⟨rfl, rfl⟩ := h.pure
    exact ⟨[], p, (List.append_nil _).symm, hp.scopes, hp.next,
      (Stays.nothing _ fun T _ => .nil).toEstablishes⟩
  | cons stmt rest =>
    rw [checkStmts] at h
    obtain ⟨_, s₁, hstmt, h₁⟩ := h.parts
    obtain ⟨t, q, rfl, hscopes, hnext, hs⟩ := checkStmt_ok hp hstmt
    have hq : At outer q s₁ := ⟨hscopes, hnext, hs.now.keeps_below hp.below⟩
    obtain ⟨ts, p', rfl, hscopes', hnext', hs'⟩ := checkStmts_ok hq h₁
    refine ⟨t :: ts, p', ?_, hscopes', hnext', hs.andThen hs' fun T ht hts => .cons ht hts⟩
    rw [List.reverse_cons, List.append_assoc]
    rfl

end

/-! ### Documents -/

/-- The checked flows that flows stand for. Each begins with the first slot that the flows before it
have left free. -/
inductive FlowsElaborate (names : Names) (T : Tables) :
    Nat → List Behavior.Flow → List Flow → Nat → Prop
  | nil {n : Nat} : FlowsElaborate names T n [] [] n
  | cons {n m : Nat} {flow : Behavior.Flow} {rest : List Behavior.Flow} {body : List Stmt}
      {flows : List Flow} {q : Place} (hhead : StmtsElaborate names T [] ⟨[], n⟩ flow.body body q)
      (htail : FlowsElaborate names T q.next rest flows m) :
      FlowsElaborate names T n (flow :: rest) (⟨flow.name, body, flow.span⟩ :: flows) m

/-- Flows lead only where their edges go. -/
def LeadAlong (flows : List Flow) (edges : List (List (Nat × Passage))) : Prop :=
  List.Forall₂ (fun flow edges => ∀ x ∈ Stmt.allPassages flow.body, x ∈ edges) flows edges

theorem LeadAlong.mem_edges {flows : List Flow} (h : LeadAlong flows graph.edges.toList) {k : Nat}
    {t : Flow} (hk : flows[k]? = some t) {x : Nat × Passage} (hx : x ∈ Stmt.allPassages t.body) :
    x ∈ graph.edges.getD k [] := by
  obtain ⟨hlt, rfl⟩ := List.getElem?_eq_some_iff.1 hk
  have hlt' : k < graph.edges.toList.length := h.length_eq ▸ hlt
  have hedges := (List.forall₂_iff_get.1 h).2 k hlt hlt' x hx
  rw [Array.getD_eq_getD_getElem?, ← Array.getElem?_toList, List.getElem?_eq_getElem hlt']
  exact hedges

/-- What is known of a checked document. -/
structure Checked (registry : Registry) (d : Document) (p : Program) (names : Names)
    (graph : FlowGraph) : Prop where
  registry : names.registry = registry
  imports : names.imports = d.imports.map (·.namespaceName)
  numbers : names.flows = (d.flows.map (·.name)).zipIdx
  flows : FlowsElaborate names p.tables 0 d.flows p.flows p.localCount
  edges : LeadAlong p.flows graph.edges.toList
  recursive : graph.recursive = []
  callDepth : p.callDepth = graph.callDepth
  callDepth_le : p.callDepth ≤ 0xffff
  nonempty : p.flows ≠ []
  suits : Suits names.registry p.schema
  distinct : p.strings.toList.Nodup
  regular : p.tables.Regular

theorem checkImports_ok {imports : List Import} {r : List String}
    (h : Clean (checkImports registry imports) s r s') :
    r = imports.map (·.namespaceName) ∧ s' = s := by
  induction imports generalizing r s' with
  | nil => exact h.pure
  | cons i rest ih =>
    rw [checkImports] at h
    split at h
    · obtain ⟨_, s₁, hrest, h₁⟩ := h.parts
      obtain ⟨rfl, rfl⟩ := ih hrest
      exact h₁.pure
    · obtain ⟨_, _, hreport, -⟩ := h.parts
      exact (report_not_clean hreport).elim

theorem numberFlows_ok {index : Nat} {numbered : List (String × Nat)} {r : List (String × Nat)}
    (h : Clean (numberFlows index numbered flows) s r s') :
    r = numbered.reverse ++ (flows.map (·.name)).zipIdx index ∧ s' = s := by
  induction flows generalizing index numbered with
  | nil =>
    obtain ⟨rfl, rfl⟩ := h.pure
    exact ⟨(List.append_nil _).symm, rfl⟩
  | cons flow rest ih =>
    rw [numberFlows] at h
    split at h
    · obtain ⟨_, _, hreport, -⟩ := h.parts
      exact (report_not_clean hreport).elim
    · obtain ⟨rfl, rfl⟩ := ih h
      refine ⟨?_, rfl⟩
      rw [List.reverse_cons, List.append_assoc]
      rfl

theorem checkFlow_ok {flow : Behavior.Flow} {r : Flow × List (Nat × Passage)}
    (hscopes : s.scopes = []) (h : Clean (checkFlow names flow) s r s') :
    ∃ body q, r = (⟨flow.name, body, flow.span⟩, s'.passages) ∧ s'.scopes = [] ∧
      s'.localCount = q.next ∧ Establishes names.registry
        (fun T => StmtsElaborate names T [] ⟨[], s.localCount⟩ flow.body body q)
        (Stmt.allPassages body) { s with passages := [] } s' := by
  obtain ⟨_, s₁, hblock, hrest⟩ := h.modify_bind.parts
  obtain ⟨s₂, hbody, rfl⟩ := inBlock_ok hblock
  have hstart : At [] ⟨[], s.localCount⟩ { s with passages := [], scopes := [] :: s.scopes } :=
    ⟨by rw [hscopes], rfl, .start _⟩
  obtain ⟨_, q, rfl, hscopes', hnext, hs⟩ := checkStmts_ok hstart hbody
  obtain ⟨rfl, rfl⟩ := hrest.get_bind.pure
  exact ⟨_, q, rfl, congrArg List.tail hscopes', hnext, hs.block⟩

theorem checkFlows_ok {r : List (Flow × List (Nat × Passage))} (hscopes : s.scopes = [])
    (h : Clean (flows.mapM (checkFlow names)) s r s') :
    s.tables.Le s'.tables ∧ (Suits names.registry s.schema → Suits names.registry s'.schema) ∧
      (s.strings.toList.Nodup → s'.strings.toList.Nodup) ∧
      (s.tables.Regular → s'.tables.Regular) ∧ LeadAlong (r.map (·.1)) (r.map (·.2)) ∧
      ∀ T, s'.tables.Le T →
        FlowsElaborate names T s.localCount flows (r.map (·.1)) s'.localCount := by
  induction flows generalizing s s' r with
  | nil =>
    rw [List.mapM_nil] at h
    obtain ⟨rfl, rfl⟩ := h.pure
    exact ⟨.refl _, id, id, id, .nil, fun T _ => .nil⟩
  | cons flow rest ih =>
    rw [List.mapM_cons] at h
    obtain ⟨_, s₁, hflow, h₁⟩ := h.parts
    obtain ⟨body, q, rfl, hscopes', hnext, hs⟩ := checkFlow_ok hscopes hflow
    obtain ⟨_, s₂, hrest, h₂⟩ := h₁.parts
    obtain ⟨htables', hsuits', hdistinct', hregular', hpassages', hflows⟩ := ih hscopes' hrest
    obtain ⟨rfl, rfl⟩ := h₂.pure
    refine ⟨hs.tables.trans htables', hsuits' ∘ hs.suits, hdistinct' ∘ hs.distinct,
      hregular' ∘ hs.regular, .cons hs.passages hpassages', fun T hT => ?_⟩
    rw [hnext] at hflows
    exact .cons (hs.holds T (htables'.trans hT)) (hflows T hT)

theorem checkGraph_ok {flows : List Flow} (hsize : graph.size ≤ flows.length)
    (h : Clean (checkGraph flows graph) s depth s') :
    graph.recursive = [] ∧ depth = graph.callDepth ∧ depth ≤ 0xffff ∧ s' = s := by
  rw [checkGraph_eq] at h
  split at h
  · next hempty =>
    refine ⟨List.isEmpty_iff.1 hempty, ?_⟩
    split at h
    · obtain ⟨_, _, hreport, -⟩ := h.parts
      exact (report_not_clean hreport).elim
    · next hle =>
      obtain ⟨rfl, rfl⟩ := h.pure
      exact ⟨rfl, Nat.le_of_not_lt hle, rfl⟩
  · next hempty =>
    obtain ⟨_, s₁, hforM, -⟩ := h.parts
    cases hrecursive : graph.recursive with
    | nil => exact absurd (List.isEmpty_iff.2 hrecursive) hempty
    | cons index rest =>
      have hlt : index < flows.length := by
        have hmem : index ∈ graph.recursive := hrecursive ▸ List.mem_cons_self
        exact Nat.lt_of_lt_of_le (List.mem_range.1 (List.mem_filter.1 hmem).1) hsize
      rw [hrecursive] at hforM
      obtain ⟨_, s₂, hfirst, -⟩ :=
        hforM.parts fun _ => forM_accumulates (reportRecursive_accumulates flows) rest
      unfold reportRecursive at hfirst
      rw [List.getElem?_eq_getElem hlt] at hfirst
      exact (report_not_clean hfirst).elim

/-- An accepted document elaborates flow by flow, and no flow leads back to itself. -/
theorem check_ok {p : Program} (h : check registry d = .ok p) :
    ∃ names graph, Checked registry d p names graph := by
  unfold check at h
  split at h
  · cases h
  · next hd =>
    rcases hrun : (checkDocument registry d).run {} with ⟨⟨flows, callDepth⟩, s⟩
    rw [hrun] at h
    dsimp only at h
    split at h
    · next hproblems =>
      cases h
      have hclean : Clean (checkDocument registry d) {} (flows, callDepth) s :=
        ⟨hrun, List.isEmpty_iff.1 hproblems⟩
      obtain ⟨imports, s₁, himports, h₁⟩ := hclean.parts
      obtain ⟨rfl, rfl⟩ := checkImports_ok himports
      obtain ⟨numbers, s₂, hnumbers, h₂⟩ := h₁.parts
      obtain ⟨rfl, rfl⟩ := numberFlows_ok hnumbers
      obtain ⟨checked, s₃, hchecked, h₃⟩ := h₂.parts
      obtain ⟨-, hsuits, hdistinct, hregular, hlead, hflows⟩ := checkFlows_ok rfl hchecked
      obtain ⟨depth, s₄, hgraph, h₄⟩ := h₃.parts
      obtain ⟨hrecursive, hdepth, hle, rfl⟩ := checkGraph_ok (by simp [FlowGraph.size]) hgraph
      cases h₄.pure.1
      cases h₄.pure.2
      have hempty : Suits registry {} :=
        ⟨List.nodup_nil, List.nodup_nil, List.nodup_nil, by simp, by simp, by simp, by simp, .empty⟩
      have hnonempty : checked.map (·.1) ≠ [] := fun hnil => by
        have hflows := hflows _ (.refl _)
        rw [hnil] at hflows
        cases hdocument : d.flows with
        | nil => exact hd (List.isEmpty_iff.2 hdocument)
        | cons flow rest =>
          rw [hdocument] at hflows
          cases hflows
      exact ⟨_, _, rfl, rfl, rfl, hflows _ (.refl _), hlead, hrecursive, hdepth, hle, hnonempty,
        hsuits hempty, hdistinct List.nodup_nil, hregular .empty⟩
    · cases h

/-- What is done to check a document before its graph is known. -/
def checkFlows (registry : Registry) (d : Document) :
    Check (List (Flow × List (Nat × Passage))) := do
  let imports ← checkImports registry d.imports
  let flows ← numberFlows 0 [] d.flows
  d.flows.mapM (checkFlow { registry, imports, flows })

/-- What a document comes to whose calls are nested this deeply. -/
def programOf (registry : Registry) (d : Document) (callDepth : Nat) : Program :=
  let (checked, s) := (checkFlows registry d).run {}
  { flows := checked.map (·.1)
    schema := s.schema
    points := s.points
    strings := s.strings
    localCount := s.localCount
    callDepth
    extends? := d.extends?.map fun e => ⟨.ofName e.parent, nameHash e.attachPoint⟩ }

/-- A document is fine if its flows are and none of them leads back to itself. -/
theorem check_of_acyclic {edges : List (List (Nat × Passage))} (hflows : d.flows.isEmpty = false)
    (hproblems : ((checkFlows registry d).run {}).2.problems.isEmpty = true)
    (hedges : ((checkFlows registry d).run {}).1.map (·.2) = edges)
    (hrecursive : FlowGraph.recursive ⟨edges.toArray⟩ = [])
    (hdepth : FlowGraph.callDepth ⟨edges.toArray⟩ = depth) (hle : depth ≤ 0xffff) :
    check registry d = .ok (programOf registry d depth) := by
  unfold programOf
  generalize hrun : (checkFlows registry d).run {} = run at *
  obtain ⟨checked, s⟩ := run
  have hgraph : checkGraph (checked.map (·.1)) ⟨edges.toArray⟩ = pure depth := by
    rw [checkGraph_eq, hrecursive, hdepth]
    simp only [List.isEmpty_nil, if_true, if_neg (Nat.not_lt.2 hle)]
  have hdocument : (checkDocument registry d).run {} = ((checked.map (·.1), depth), s) := by
    have hsplit : checkDocument registry d = (do
        let checked ← checkFlows registry d
        let callDepth ← checkGraph (checked.map (·.1)) ⟨(checked.map (·.2)).toArray⟩
        return (checked.map (·.1), callDepth)) := by
      simp only [checkDocument, checkFlows, bind_assoc]
    rw [hsplit, StateT.run_bind, hrun]
    show (checkGraph _ ⟨(checked.map (·.2)).toArray⟩ >>= _).run s = _
    rw [show checked.map (·.2) = edges from hedges, hgraph, pure_bind]
    rfl
  simp only [check, hflows, hdocument, show s.problems.isEmpty = true from hproblems,
    Bool.false_eq_true, if_false, if_true]

end Behavior.Typed
