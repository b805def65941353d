import Behavior.Proofs.BlockOrder
import Behavior.Proofs.Timeouts

/-!
Checked documents are well typed. The typing rules stand here on their own: they speak of the
expressions and statements of a document and of contexts, in which every local has a type. Checking
keeps locals without a type in its scopes after a mistake; a document without mistakes has none.
-/

namespace Behavior.Typed

/-! ## Typing rules -/

/-- What an operator makes of two operands of a type. -/
inductive Operates : BinaryOp → ValueType → ValueType → Prop
  | arithmetic {op : BinaryOp} (hop : op ∈ [.add, .sub, .mul, .div, .mod]) :
      Operates op .number .number
  | order {op : BinaryOp} (hop : op ∈ [.lt, .le, .gt, .ge]) : Operates op .number .bool
  | logic {op : BinaryOp} (hop : op ∈ [.and, .or]) : Operates op .bool .bool
  | equality {op : BinaryOp} {type : ValueType} (hop : op ∈ [.eq, .ne]) (htype : type ≠ .vector3) :
      Operates op type .bool

/-- The locals of a block with their types, the latest first. -/
abbrev Bindings := List (String × ValueType)

/-- A local has become known in a block, in place of an earlier one of its name. -/
def Bindings.define (block : Bindings) (name : String) (type : ValueType) : Bindings :=
  (name, type) :: block.filter (·.1 != name)

/-- The locals that are known, with the innermost block first. -/
abbrev Context := List Bindings

/-- The type of the innermost local of a name. -/
def Context.type? (Γ : Context) (name : String) : Option ValueType :=
  Γ.findSome? fun block => block.lookup name

/-- The type of what a name stands for in an expression. -/
inductive NameHasType (names : Names) (Γ : Context) (name : String) : ValueType → Prop
  | ofLocal {type : ValueType} (hlocal : Γ.type? name = some type) : NameHasType names Γ name type
  | ofInput {qualified : String} {type : ValueType} (hlocal : Γ.type? name = none)
      (hresolved : names.resolve? name = some (qualified, ⟨type, .input⟩)) :
      NameHasType names Γ name type
  | constant {x : Float} (hlocal : Γ.type? name = none) (hresolved : names.resolve? name = none)
      (hconstant : namedConstant? name = some x) : NameHasType names Γ name .number

/-- The type of an expression where certain locals are known. -/
inductive HasType (names : Names) (Γ : Context) : Expr → ValueType → Prop
  | number {span : Span} {x : Float} : HasType names Γ (.number span x) .number
  | bool {span : Span} {b : Bool} : HasType names Γ (.bool span b) .bool
  | str {span : Span} {text : String} : HasType names Γ (.str span text) .string
  | vector {span : Span} {items : List Expr} (hlength : items.length = 3)
      (hitems : ∀ e ∈ items, HasType names Γ e .number) :
      HasType names Γ (.vector span items) .vector3
  | var {span : Span} {name : String} {type : ValueType} (hname : NameHasType names Γ name type) :
      HasType names Γ (.var span name) type
  | neg {span : Span} {operand : Expr} (hoperand : HasType names Γ operand .number) :
      HasType names Γ (.unary span .neg operand) .number
  | not {span : Span} {operand : Expr} (hoperand : HasType names Γ operand .bool) :
      HasType names Γ (.unary span .not operand) .bool
  | binary {span : Span} {op : BinaryOp} {left right : Expr} {type result : ValueType}
      (hleft : HasType names Γ left type) (hright : HasType names Γ right type)
      (hop : Operates op type result) : HasType names Γ (.binary span op left right) result
  | conditional {span : Span} {condition thenExpr elseExpr : Expr} {type : ValueType}
      (hcondition : HasType names Γ condition .bool) (hthen : HasType names Γ thenExpr type)
      (helse : HasType names Γ elseExpr type) :
      HasType names Γ (.conditional span condition thenExpr elseExpr) type
  | call {span : Span} {function : String} {args : List Expr} {builtin : Builtin}
      (hfunction : Builtin.ofName? function = some builtin) (hlength : args.length = builtin.arity)
      (hargs : ∀ e ∈ args, HasType names Γ e .number) :
      HasType names Γ (.call span function args) .number

mutual

/-- A checked statement is that of the document, and all its expressions have the types they need.
`outer` has the blocks around, and the block of the statement is given before and after it. -/
inductive StmtTyped (names : Names) :
    Context → Bindings → Behavior.Stmt → Stmt → Bindings → Prop
  | bind {outer : Context} {block : Bindings} {span : Span} {name : String} {e : Expr} {slot : Nat}
      {v : Value} (hvalue : HasType names (block :: outer) e v.type) :
      StmtTyped names outer block (.bind span name e) (.setLocal span slot v)
        (block.define name v.type)
  | assignLocal {outer : Context} {block : Bindings} {span : Span} {target : String} {e : Expr}
      {slot : Nat} {v : Value} (hvalue : HasType names (block :: outer) e v.type)
      (htarget : Context.type? (block :: outer) target = some v.type) :
      StmtTyped names outer block (.assign span target e) (.setLocal span slot v) block
  | assignOutput {outer : Context} {block : Bindings} {span : Span} {target qualified : String}
      {e : Expr} {slot : Nat} {v : Value} (hvalue : HasType names (block :: outer) e v.type)
      (hlocal : Context.type? (block :: outer) target = none)
      (hresolved : names.resolve? target = some (qualified, ⟨v.type, .output⟩)) :
      StmtTyped names outer block (.assign span target e) (.setOutput span slot v) block
  | intent {outer : Context} {block : Bindings} {span : Span} {channel qualified : String}
      {value urgency : Expr} {valueSlot urgencySlot : Nat} {v : Value} {u : Scalar}
      (hvalue : HasType names (block :: outer) value v.type)
      (hurgency : HasType names (block :: outer) urgency .number)
      (hresolved : names.resolve? channel = some (qualified, ⟨v.type, .channel⟩)) :
      StmtTyped names outer block (.intent span channel value urgency)
        (.intent span valueSlot urgencySlot v u) block
  | branch {outer : Context} {block thenBlock elseBlock : Bindings} {span : Span}
      {condition : Expr} {thenBody elseBody : List Behavior.Stmt} {c : Scalar}
      {thenStmts elseStmts : List Stmt} (hcondition : HasType names (block :: outer) condition .bool)
      (hthen : StmtsTyped names (block :: outer) [] thenBody thenStmts thenBlock)
      (helse : StmtsTyped names (block :: outer) [] elseBody elseStmts elseBlock) :
      StmtTyped names outer block (.branch span condition thenBody elseBody)
        (.branch span c thenStmts elseStmts) block
  | loop {outer : Context} {block bodyBlock : Bindings} {span : Span} {count counter : Nat}
      {body : List Behavior.Stmt} {stmts : List Stmt} (hcount : count ≤ maxLoopCount)
      (hbody : StmtsTyped names (block :: outer) [] body stmts bodyBlock) :
      StmtTyped names outer block (.loop span count body) (.loop span count counter stmts) block
  | call {outer : Context} {block : Bindings} {span : Span} {name : String} {flow : Nat}
      (hflow : names.flows.lookup name = some flow) :
      StmtTyped names outer block (.call span name) (.call span flow) block
  | goto {outer : Context} {block : Bindings} {span : Span} {name : String} {flow : Nat}
      (hflow : names.flows.lookup name = some flow) :
      StmtTyped names outer block (.goto span name) (.goto span flow) block
  | wait {outer : Context} {block : Bindings} {span : Span} {seconds : Expr} {x : Scalar}
      (hseconds : HasType names (block :: outer) seconds .number) :
      StmtTyped names outer block (.wait span seconds) (.wait span x) block
  | continuation {outer : Context} {block : Bindings} {span : Span} {name default : String}
      {seconds : Float} {point flow : Nat} (hflow : names.flows.lookup default = some flow) :
      StmtTyped names outer block (.continuation span name seconds default)
        (.continuation span point flow) block
  | halt {outer : Context} {block : Bindings} {span : Span} :
      StmtTyped names outer block (.halt span) (.halt span) block

/-- Statements are those of the document, one by one. -/
inductive StmtsTyped (names : Names) :
    Context → Bindings → List Behavior.Stmt → List Stmt → Bindings → Prop
  | nil {outer : Context} {block : Bindings} : StmtsTyped names outer block [] [] block
  | cons {outer : Context} {block block' block'' : Bindings} {stmt : Behavior.Stmt}
      {rest : List Behavior.Stmt} {t : Stmt} {ts : List Stmt}
      (hhead : StmtTyped names outer block stmt t block')
      (htail : StmtsTyped names outer block' rest ts block'') :
      StmtsTyped names outer block (stmt :: rest) (t :: ts) block''

end

/-- A checked flow is that of the document, and its statements are well typed. -/
structure FlowTyped (names : Names) (flow : Behavior.Flow) (t : Flow) : Prop where
  name : t.name = flow.name
  span : t.span = flow.span
  body : ∃ block, StmtsTyped names [] [] flow.body t.body block

/-! ## Scopes and contexts -/

/-- A context has the types of the locals in scope, and every one of them has a type. -/
def Describes (Γ : Context) (scopes : List Scope) : Prop :=
  List.Forall₂ (fun block scope => block.map (Prod.map id some) = scope.map (Prod.map id Local.type?))
    Γ scopes

theorem lookup_map_snd {α β : Type} (f : α → β) (xs : List (String × α)) (name : String) :
    (xs.map (Prod.map id f)).lookup name = (xs.lookup name).map f := by
  induction xs with
  | nil => rfl
  | cons x rest ih =>
    obtain ⟨key, value⟩ := x
    simp only [List.map_cons, Prod.map_apply, id_eq, List.lookup_cons, ih]
    cases name == key <;> rfl

theorem filter_map_snd {α β : Type} (f : α → β) (xs : List (String × α)) (name : String) :
    (xs.filter (·.1 != name)).map (Prod.map id f) =
      (xs.map (Prod.map id f)).filter (·.1 != name) := by
  rw [List.filter_map]
  rfl

variable {names : Names} {T : Tables}

namespace Describes

variable {Γ : Context} {scopes : List Scope}

theorem map_type? (h : Describes Γ scopes) (name : String) :
    (Γ.type? name).map some = (find scopes name).map Local.type? := by
  induction h with
  | nil => rfl
  | @cons block scope Γ scopes hhead _ ih =>
    have hlookup : (block.lookup name).map some = (scope.lookup name).map Local.type? := by
      rw [← lookup_map_snd, hhead, lookup_map_snd]
    rw [Context.type?, find, List.findSome?_cons, List.findSome?_cons]
    cases hb : block.lookup name with
    | some type =>
      rw [hb] at hlookup
      cases hs : scope.lookup name with
      | some l =>
        rw [hs] at hlookup
        exact hlookup
      | none =>
        rw [hs] at hlookup
        cases hlookup
    | none =>
      rw [hb] at hlookup
      rw [Option.map_eq_none_iff.1 hlookup.symm]
      exact ih

theorem type?_of_find (h : Describes Γ scopes) {name : String} {slot : Nat} {type : ValueType}
    (hfound : find scopes name = some ⟨slot, some type⟩) : Γ.type? name = some type := by
  have htype := h.map_type? name
  rw [hfound] at htype
  obtain ⟨t, ht, hsome⟩ := Option.map_eq_some_iff.1 htype
  cases hsome
  exact ht

theorem type?_of_find_none (h : Describes Γ scopes) {name : String}
    (hfound : find scopes name = none) : Γ.type? name = none := by
  have htype := h.map_type? name
  rw [hfound] at htype
  exact Option.map_eq_none_iff.1 htype

theorem define {block : Bindings} {scope : Scope} (h : Describes (block :: Γ) (scope :: scopes))
    (name : String) (slot : Nat) (type : ValueType) :
    Describes (block.define name type :: Γ) (scope.define name ⟨slot, some type⟩ :: scopes) := by
  cases h with
  | cons hhead htail =>
    refine .cons ?_ htail
    rw [Bindings.define, Scope.define, List.map_cons, List.map_cons,
      filter_map_snd, hhead, ← filter_map_snd]
    rfl

theorem inner (h : Describes Γ scopes) : Describes ([] :: Γ) ([] :: scopes) :=
  .cons rfl h

end Describes

/-! ## What has been checked is well typed -/

theorem Value.operates_of_combine? {op : BinaryOp} {a b v : Value} (h : combine? op a b = some v) :
    b.type = a.type ∧ Operates op a.type v.type := by
  cases a <;> cases b <;> cases op <;> cases h <;> refine ⟨rfl, ?_⟩
  all_goals first
    | exact .arithmetic (by decide)
    | exact .order (by decide)
    | exact .logic (by decide)
    | exact .equality (by decide) nofun

theorem Value.type_of_select? {c : Scalar} {a b v : Value} (h : select? c a b = some v) :
    a.type = v.type ∧ b.type = v.type := by
  cases a <;> cases b <;> cases h <;> exact ⟨rfl, rfl⟩

/-- A call needs just as many arguments as the function takes. -/
theorem Builtin.isSome_call?_iff {builtin : Builtin} {xs : List Scalar} :
    (builtin.call? xs).isSome ↔ xs.length = builtin.arity := by
  constructor
  · intro h
    unfold Builtin.call? at h
    split at h
    all_goals first
      | rfl
      | cases h
  · intro h
    obtain ⟨x, hx⟩ := builtin.exists_call h
    rw [hx]
    rfl

mutual

/-- The type of a checked expression is the one that the rules give. -/
theorem ExprElaborates.hasType {scopes : List Scope} {Γ : Context} {e : Expr} {v : Value}
    (h : ExprElaborates names T scopes e v) (hΓ : Describes Γ scopes) :
    HasType names Γ e v.type := by
  cases h with
  | number => exact .number
  | bool => exact .bool
  | str hstring => exact .str
  | vector hnumbers =>
    obtain ⟨hlength, hitems⟩ := hnumbers.hasType hΓ
    exact .vector hlength hitems
  | ofLocal hfound =>
    rw [Value.type_ofLocal]
    exact .var (.ofLocal (hΓ.type?_of_find hfound))
  | ofInput hfound hresolved hinput =>
    rw [Value.type_ofInput]
    exact .var (.ofInput (hΓ.type?_of_find_none hfound) hresolved)
  | constant hfound hresolved hconstant =>
    exact .var (.constant (hΓ.type?_of_find_none hfound) hresolved hconstant)
  | neg hoperand => exact .neg (hoperand.hasType hΓ)
  | not hoperand => exact .not (hoperand.hasType hΓ)
  | binary hleft hright hcombined =>
    obtain ⟨htype, hop⟩ := Value.operates_of_combine? hcombined
    exact .binary (hleft.hasType hΓ) (htype ▸ hright.hasType hΓ) hop
  | conditional hcondition hthen helse hselected =>
    obtain ⟨ha, hb⟩ := Value.type_of_select? hselected
    exact .conditional (hcondition.hasType hΓ) (ha ▸ hthen.hasType hΓ) (hb ▸ helse.hasType hΓ)
  | call hfunction hargs hcalled =>
    obtain ⟨hlength, hargs⟩ := hargs.hasType hΓ
    have harity := Builtin.isSome_call?_iff.1 (Option.isSome_of_eq_some hcalled)
    exact .call hfunction (hlength.trans harity) hargs

theorem NumbersElaborate.hasType {scopes : List Scope} {Γ : Context} {items : List Expr}
    {xs : List Scalar} (h : NumbersElaborate names T scopes items xs) (hΓ : Describes Γ scopes) :
    items.length = xs.length ∧ ∀ e ∈ items, HasType names Γ e .number := by
  cases h with
  | nil => exact ⟨rfl, by simp⟩
  | cons hhead htail =>
    obtain ⟨hlength, hitems⟩ := htail.hasType hΓ
    exact ⟨congrArg (· + 1) hlength, List.forall_mem_cons.2 ⟨hhead.hasType hΓ, hitems⟩⟩

end

mutual

/-- A checked statement is well typed, and the locals after it have types again. -/
theorem StmtElaborates.typed {outer : List Scope} {p p' : Place} {stmt : Behavior.Stmt} {t : Stmt}
    (h : StmtElaborates names T outer p stmt t p') {Γ : Context} {block : Bindings}
    (hΓ : Describes (block :: Γ) (p.scope :: outer)) :
    ∃ block', StmtTyped names Γ block stmt t block' ∧
      Describes (block' :: Γ) (p'.scope :: outer) := by
  cases h with
  | bind hvalue hfits => exact ⟨_, .bind (hvalue.hasType hΓ), hΓ.define _ _ _⟩
  | assignLocal hvalue hfound =>
    exact ⟨_, .assignLocal (hvalue.hasType hΓ) (hΓ.type?_of_find hfound), hΓ⟩
  | assignOutput hvalue hfound hresolved houtput =>
    exact ⟨_, .assignOutput (hvalue.hasType hΓ) (hΓ.type?_of_find_none hfound) hresolved, hΓ⟩
  | intent hvalue hurgency hresolved hchannel =>
    exact ⟨_, .intent (hvalue.hasType hΓ) (hurgency.hasType hΓ) hresolved, hΓ⟩
  | branch hcondition hthen helse =>
    obtain ⟨thenBlock, hthen, -⟩ := hthen.typed hΓ.inner
    obtain ⟨elseBlock, helse, -⟩ := helse.typed hΓ.inner
    exact ⟨_, .branch (hcondition.hasType hΓ) hthen helse, hΓ⟩
  | loop hcount hfits hbody =>
    obtain ⟨bodyBlock, hbody, -⟩ := hbody.typed hΓ.inner
    exact ⟨_, .loop hcount hbody, hΓ⟩
  | call hflow => exact ⟨_, .call hflow, hΓ⟩
  | goto hflow => exact ⟨_, .goto hflow, hΓ⟩
  | wait hseconds => exact ⟨_, .wait (hseconds.hasType hΓ), hΓ⟩
  | continuation htimeout hpoint hflow => exact ⟨_, .continuation hflow, hΓ⟩
  | halt => exact ⟨_, .halt, hΓ⟩

/-- Checked statements follow those of the document one by one. -/
theorem StmtsElaborate.typed {outer : List Scope} {p p' : Place} {stmts : List Behavior.Stmt}
    {ts : List Stmt} (h : StmtsElaborate names T outer p stmts ts p') {Γ : Context}
    {block : Bindings} (hΓ : Describes (block :: Γ) (p.scope :: outer)) :
    ∃ block', StmtsTyped names Γ block stmts ts block' ∧
      Describes (block' :: Γ) (p'.scope :: outer) := by
  cases h with
  | nil => exact ⟨_, .nil, hΓ⟩
  | cons hhead htail =>
    obtain ⟨block', hhead, hΓ'⟩ := hhead.typed hΓ
    obtain ⟨block'', htail, hΓ''⟩ := htail.typed hΓ'
    exact ⟨_, .cons hhead htail, hΓ''⟩

end

theorem FlowsElaborate.typed {n m : Nat} {flows : List Behavior.Flow} {ts : List Flow}
    (h : FlowsElaborate names T n flows ts m) : List.Forall₂ (FlowTyped names) flows ts := by
  induction h with
  | nil => exact .nil
  | cons hhead _ ih =>
    obtain ⟨block, hbody, -⟩ := hhead.typed (Describes.inner .nil)
    exact .cons ⟨rfl, rfl, block, hbody⟩ ih

/-- A document without problems is well typed. That lowering a value gives as many scalars as its
type is wide, and that a call takes just the arguments of its function, holds of all values, whether
they come from a document or not: a value has its width by its type. -/
theorem check_typed {registry : Registry} {d : Document} {p : Program}
    (h : check registry d = .ok p) :
    ∃ names : Names, names.registry = registry ∧
      names.imports = d.imports.map (·.namespaceName) ∧
      names.flows = (d.flows.map (·.name)).zipIdx ∧
      FlowsElaborate names p.tables 0 d.flows p.flows p.localCount ∧
      List.Forall₂ (FlowTyped names) d.flows p.flows ∧
      (p.points.toList.map (·.name)).Nodup ∧ (∀ q ∈ p.points, q.timeoutMs ≤ 0xffffffff) ∧
      (∀ flow ∈ p.flows, ∀ x ∈ Stmt.allPassages flow.body, x.1 < p.flows.length) ∧
      (∀ span v s, ((Lower.lowerValue span v).run s).1.length = v.type.width) ∧
      ∀ (builtin : Builtin) xs, (builtin.call? xs).isSome ↔ xs.length = builtin.arity := by
  obtain ⟨names, graph, hchecked⟩ := check_ok h
  refine ⟨names, hchecked.registry, hchecked.imports, hchecked.numbers, hchecked.flows,
    hchecked.flows.typed, hchecked.regular.points, ?_, ?_, Lower.length_lowerValue,
    fun builtin xs => Builtin.isSome_call?_iff⟩
  · intro q hq
    obtain ⟨seconds, hseconds⟩ := hchecked.regular.timeout q hq
    exact timeoutMs?_le hseconds
  · intro flow hflow x hx
    obtain ⟨k, hk⟩ := List.getElem?_of_mem hflow
    exact (hchecked.passes hk hx).1

/-- A document that binds a vector, repeats an assignment and pauses. -/
def patrol : Document where
  name := "patrol"
  flows := [
    ⟨"main", [
      .bind {} "spot" (.vector {} [.var {} "a", .number {} 0.0, .call {} "abs" [.var {} "a"]]),
      .loop {} 2 [.assign {} "b" (.binary {} .add (.var {} "a") (.number {} 1.0))],
      .continuation {} "pause" 1.5 "rest"], {}⟩,
    ⟨"rest", [.halt {}], {}⟩]

def patrolRegistry : Registry where
  declared := [("a", ⟨.number, .input⟩), ("b", ⟨.number, .output⟩)]

theorem check_typed_patrol : ∃ p names, check patrolRegistry patrol = .ok p ∧
    List.Forall₂ (FlowTyped names) patrol.flows p.flows ∧
    p.points.toList.map (·.timeoutMs) = [1500] := by
  have hrecursive : FlowGraph.recursive ⟨#[[(1, .jump)], []]⟩ = [] := by cbv
  have h : check patrolRegistry patrol = .ok (programOf patrolRegistry patrol 0) :=
    check_of_acyclic rfl (by decide +kernel) (by decide +kernel) hrecursive (by decide +kernel)
      (by decide)
  obtain ⟨names, -, -, -, -, htyped, -⟩ := check_typed h
  exact ⟨_, names, h, htyped, by decide +kernel⟩

end Behavior.Typed
