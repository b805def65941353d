import Behavior.Proofs.Placement
import Behavior.Typed.Check
import Mathlib

/-!
Checks that find nothing wrong. Problems are only ever added, so if none are left at the end of a
check, none were found in any of its parts; this is how a successful check is taken apart.
-/

namespace Behavior.Typed

variable {α : Type}

/-! ## Actions that only add problems -/

/-- Problems are only ever added. -/
structure Accumulates {α : Type} (act : Check α) : Prop where
  suffix : ∀ s, s.problems <:+ (act.run s).2.problems

/-- An action with the result and the state it leaves, in which no problem has been found. -/
structure Clean {α : Type} (act : Check α) (s : State) (a : α) (s' : State) : Prop where
  run : act.run s = (a, s')
  problems : s'.problems = []

section

variable {α β : Type} {x : Check α} {f : α → Check β} {g : State → α × State} {s s' : State} {b : β}

@[simp]
theorem Accumulates.pure (a : α) : Accumulates (pure a : Check α) :=
  ⟨fun _ => List.suffix_refl _⟩

theorem Accumulates.bind (hx : Accumulates x) (hf : ∀ a, Accumulates (f a)) : Accumulates (x >>= f) :=
  ⟨fun s => (hx.suffix s).trans ((hf _).suffix _)⟩

theorem Accumulates.map (hx : Accumulates x) (g : α → β) : Accumulates (g <$> x) :=
  hx.bind fun a => .pure (g a)

@[simp]
theorem Accumulates.get : Accumulates (get : Check State) :=
  ⟨fun _ => List.suffix_refl _⟩

theorem Accumulates.modifyGet (h : ∀ s, (g s).2.problems = s.problems) :
    Accumulates (modifyGet g : Check α) :=
  ⟨fun s => ⟨[], (h s).symm⟩⟩

theorem Accumulates.modify {g : State → State}
    (h : ∀ s, (g s).problems = s.problems := by intro; rfl) :
    Accumulates (modify g : Check PUnit) :=
  .modifyGet h

/-- A sequence in which no problem is found, taken apart. -/
theorem Clean.bind {s'' : State} (h : Clean (x >>= f) s b s'') (hf : ∀ a, Accumulates (f a)) :
    ∃ a s', Clean x s a s' ∧ Clean (f a) s' b s'' := by
  refine ⟨(x.run s).1, (x.run s).2, ⟨rfl, ?_⟩, ⟨h.run, h.problems⟩⟩
  have hrun : ((f (x.run s).1).run (x.run s).2).2 = s'' := congrArg Prod.snd h.run
  have hsuffix := (hf (x.run s).1).suffix (x.run s).2
  rw [hrun, h.problems] at hsuffix
  exact List.eq_nil_of_suffix_nil hsuffix

theorem Clean.pure {a b : α} (h : Clean (pure a : Check α) s b s') :
    b = a ∧ s' = s := by
  have hrun : (a, s) = (b, s') := h.run
  cases hrun
  exact ⟨rfl, rfl⟩

theorem Clean.get_bind {f : State → Check β} (h : Clean (get >>= f) s b s') : Clean (f s) s b s' :=
  ⟨h.run, h.problems⟩

theorem Clean.modify_bind {g : State → State} {f : PUnit → Check β}
    (h : Clean (modify g >>= f) s b s') : Clean (f ⟨⟩) (g s) b s' :=
  ⟨h.run, h.problems⟩

theorem Clean.map {g : α → β} (h : Clean (g <$> x) s b s') :
    ∃ a, Clean x s a s' ∧ b = g a := by
  obtain ⟨a, s₁, hx, hpure⟩ :=
    Clean.bind (f := fun a => Pure.pure (g a)) ⟨h.run, h.problems⟩ fun _ => .pure _
  obtain ⟨rfl, rfl⟩ := hpure.pure
  exact ⟨a, hx, rfl⟩

theorem Clean.modifyGet {a : α} (h : Clean (modifyGet g : Check α) s a s') : (a, s') = g s :=
  h.run.symm

end

/-! ### Every check accumulates -/

variable {names : Names} {role : Role} {span : Span} {name text target defaultFlow : String}
  {problem : Problem} {l : Local} {kind : SlotKind} {start width : Nat} {type expected : ValueType}
  {value? : Option Value} {op : BinaryOp} {timeout? : Option Nat} {flow : Behavior.Flow}

@[simp]
theorem report_accumulates : Accumulates (report span problem) :=
  ⟨fun _ => List.suffix_cons _ _⟩

@[simp]
theorem refuse_accumulates : Accumulates (refuse span problem : Check (Option α)) :=
  report_accumulates.bind fun _ => .pure none

@[simp]
theorem addString_accumulates : Accumulates (addString text) :=
  .modifyGet fun _ => rfl

@[simp]
theorem local?_accumulates : Accumulates (local? name) :=
  Accumulates.get.bind fun _ => .pure _

@[simp]
theorem define_accumulates : Accumulates (define name l) :=
  .modify

@[simp]
theorem fits_accumulates : Accumulates (fits kind start width span) := by
  unfold fits
  split
  · exact report_accumulates.bind fun _ => .pure _
  · exact .pure _

@[simp]
theorem newLocal_accumulates : Accumulates (newLocal width span) :=
  Accumulates.get.bind fun s => (Accumulates.modify).bind fun _ =>
    fits_accumulates.bind fun _ => .pure _

/-- Add a variable or channel that is used for the first time to the schema. -/
def register {α : Type} (kind : SlotKind) (start width : Nat) (span : Span) (name : String)
    (add : Schema → Schema) (result : α) : Check (Option α) := do
  if !(← fits kind start width span) then return none
  discard (addString name)
  modify fun s => { s with schema := add s.schema }
  return some result

@[simp]
theorem register_accumulates (add : Schema → Schema) (result : α) :
    Accumulates (register kind start width span name add result) := by
  refine fits_accumulates.bind fun ok => ?_
  split
  · exact .pure _
  · exact (addString_accumulates.map _).bind fun _ =>
      (Accumulates.modify).bind fun _ => .pure _

/-- Slots under a name: those of the schema, or new ones. -/
def lookupOr {α β : Type} (find? : Schema → Option α) (slots : α → β)
    (add : Schema → Check (Option β)) : Check (Option β) :=
  get >>= fun s =>
    match find? s.schema with
    | some e => pure (some (slots e))
    | none => add s.schema

theorem lookupOr_accumulates {β : Type} {find? : Schema → Option α} {slots : α → β}
    {add : Schema → Check (Option β)} (h : ∀ schema, Accumulates (add schema)) :
    Accumulates (lookupOr find? slots add) := by
  refine Accumulates.get.bind fun s => ?_
  split
  · exact .pure _
  · exact h _

theorem bindInput_eq (name : String) (type : ValueType) (span : Span) :
    bindInput name type span = lookupOr (·.input? name) (·.slot.toNat) fun schema =>
      register .input schema.inputSize type.width span name (fun s =>
        { s with inputs := s.inputs ++ [⟨name, type, schema.inputSize.toUInt16⟩] })
        schema.inputSize := by
  refine bind_congr fun s => ?_
  dsimp only
  cases s.schema.input? name <;> rfl

theorem bindOutput_eq (name : String) (type : ValueType) (span : Span) :
    bindOutput name type span = lookupOr (·.output? name) (·.slot.toNat) fun schema =>
      register .output schema.outputSize type.width span name (fun s =>
        { s with outputs := s.outputs ++ [⟨name, type, schema.outputSize.toUInt16⟩] })
        schema.outputSize := by
  refine bind_congr fun s => ?_
  dsimp only
  cases s.schema.output? name <;> rfl

theorem bindChannel_eq (name : String) (type : ValueType) (span : Span) :
    bindChannel name type span =
      lookupOr (·.channel? name) (fun c => (c.valueSlot.toNat, c.urgencySlot.toNat)) fun schema =>
        let slot := schema.outputSize
        let urgency := slot + type.width
        register .output slot (type.width + 1) span name (fun s =>
          { s with channels := s.channels ++ [⟨name, type, slot.toUInt16, urgency.toUInt16⟩] })
          (slot, urgency) := by
  refine bind_congr fun s => ?_
  dsimp only
  cases s.schema.channel? name <;> rfl

@[simp]
theorem bindInput_accumulates : Accumulates (bindInput name type span) :=
  bindInput_eq name type span ▸ lookupOr_accumulates fun _ => register_accumulates ..

@[simp]
theorem bindOutput_accumulates : Accumulates (bindOutput name type span) :=
  bindOutput_eq name type span ▸ lookupOr_accumulates fun _ => register_accumulates ..

@[simp]
theorem bindChannel_accumulates : Accumulates (bindChannel name type span) :=
  bindChannel_eq name type span ▸ lookupOr_accumulates fun _ => register_accumulates ..

@[simp]
theorem expect_accumulates : Accumulates (expect role expected span value?) := by
  unfold expect
  cases value? with
  | none => exact .pure _
  | some value =>
    dsimp only
    split <;> simp

@[simp]
theorem expectNumber_accumulates : Accumulates (expectNumber role span value?) :=
  expect_accumulates.bind fun _ => .pure _

@[simp]
theorem expectBool_accumulates : Accumulates (expectBool role span value?) :=
  expect_accumulates.bind fun _ => .pure _

@[simp]
theorem checkVar_accumulates : Accumulates (checkVar names span name) := by
  refine local?_accumulates.bind fun l => ?_
  split
  · exact .pure _
  · split
    · exact bindInput_accumulates.bind fun _ => .pure _
    · exact refuse_accumulates
    · split <;> simp

@[simp]
theorem checkCall_accumulates (function : String) (args : List (Option Scalar)) :
    Accumulates (checkCall span function args) := by
  unfold checkCall
  repeat' split
  all_goals simp

/-- The value of an operator, given what its operands are. -/
def checkBinary (span : Span) (op : BinaryOp) (left right : Option Value) :
    Check (Option Value) := do
  let (some a, some b) := (left, right) | return none
  match Value.combine? op a b with
  | some value => return some value
  | none => refuse span (.operandTypes op a.type b.type)

/-- The value of a choice, given what its parts are. -/
def checkChoice (span : Span) (condition : Option Scalar) (thenValue elseValue : Option Value) :
    Check (Option Value) := do
  let (some c, some a, some b) := (condition, thenValue, elseValue) | return none
  match Value.select? c a b with
  | some value => return some value
  | none => refuse span (.branchTypes a.type b.type)

theorem checkExpr_binary (names : Names) (span : Span) (op : BinaryOp) (left right : Expr) :
    checkExpr names (.binary span op left right) = (do
      let a ← checkExpr names left
      let b ← checkExpr names right
      checkBinary span op a b) := by
  rw [checkExpr]
  rfl

theorem checkExpr_conditional (names : Names) (span : Span) (condition thenExpr elseExpr : Expr) :
    checkExpr names (.conditional span condition thenExpr elseExpr) = (do
      let c ← expectBool .condition span (← checkExpr names condition)
      let a ← checkExpr names thenExpr
      let b ← checkExpr names elseExpr
      checkChoice span c a b) := by
  rw [checkExpr]
  rfl

@[simp]
theorem checkBinary_accumulates (left right : Option Value) :
    Accumulates (checkBinary span op left right) := by
  unfold checkBinary
  repeat' split
  all_goals simp

@[simp]
theorem checkChoice_accumulates (condition : Option Scalar) (thenValue elseValue : Option Value) :
    Accumulates (checkChoice span condition thenValue elseValue) := by
  unfold checkChoice
  repeat' split
  all_goals simp

mutual

@[simp]
theorem checkExpr_accumulates (names : Names) (e : Expr) : Accumulates (checkExpr names e) := by
  cases e with
  | number span x | bool span b => exact .pure _
  | str span text => exact addString_accumulates.bind fun _ => .pure _
  | vector span items =>
    rw [checkExpr]
    refine (checkNumbers_accumulates names _ items).bind fun parts => ?_
    split <;> simp
  | var span name => exact checkVar_accumulates
  | unary span op operand =>
    cases op with
    | neg =>
      rw [checkExpr]
      exact (checkExpr_accumulates names operand).bind fun _ =>
        expectNumber_accumulates.bind fun _ => .pure _
    | not =>
      rw [checkExpr]
      exact (checkExpr_accumulates names operand).bind fun _ =>
        expectBool_accumulates.bind fun _ => .pure _
  | binary span op left right =>
    rw [checkExpr_binary]
    exact (checkExpr_accumulates names left).bind fun _ =>
      (checkExpr_accumulates names right).bind fun _ => checkBinary_accumulates ..
  | conditional span condition thenExpr elseExpr =>
    rw [checkExpr_conditional]
    exact (checkExpr_accumulates names condition).bind fun _ =>
      expectBool_accumulates.bind fun _ =>
      (checkExpr_accumulates names thenExpr).bind fun _ =>
      (checkExpr_accumulates names elseExpr).bind fun _ => checkChoice_accumulates ..
  | call span function args =>
    rw [checkExpr]
    exact (checkNumbers_accumulates names _ args).bind fun _ => checkCall_accumulates ..

@[simp]
theorem checkNumbers_accumulates (names : Names) (role : Role) (items : List Expr) :
    Accumulates (checkNumbers names role items) := by
  cases items with
  | nil => exact .pure _
  | cons e rest =>
    rw [checkNumbers]
    exact (checkExpr_accumulates names e).bind fun _ => expectNumber_accumulates.bind fun _ =>
      (checkNumbers_accumulates names role rest).bind fun _ => .pure _

end

@[simp]
theorem enter_accumulates (passage : Passage) : Accumulates (enter names span passage name) := by
  unfold enter
  split
  · exact (Accumulates.modify).bind fun _ => .pure _
  · exact refuse_accumulates

@[simp]
theorem inBlock_accumulates {block : Check α} (h : Accumulates block) :
    Accumulates (inBlock block) :=
  (Accumulates.modify).bind fun _ => h.bind fun _ => (Accumulates.modify).bind fun _ => .pure _

@[simp]
theorem checkBind_accumulates : Accumulates (checkBind span name value?) := by
  unfold checkBind
  split
  · exact define_accumulates.bind fun _ => .pure _
  · refine newLocal_accumulates.bind fun slot => ?_
    split
    · exact .pure _
    · exact define_accumulates.bind fun _ => .pure _

@[simp]
theorem checkAssign_accumulates : Accumulates (checkAssign names span target value?) := by
  refine local?_accumulates.bind fun l => ?_
  split
  · exact .pure _
  · exact expect_accumulates.bind fun _ => .pure _
  · split
    · exact expect_accumulates.bind fun _ => bindOutput_accumulates.bind fun _ => .pure _
    · exact refuse_accumulates
    · split <;> simp

@[simp]
theorem checkIntent_accumulates (channel : String) (urgency? : Option Value) :
    Accumulates (checkIntent names span channel value? urgency?) := by
  refine expectNumber_accumulates.bind fun urgency => ?_
  split
  · refine expect_accumulates.bind fun value => bindChannel_accumulates.bind fun slots => ?_
    split <;> simp
  · exact refuse_accumulates
  · exact refuse_accumulates

/-- Add a continuation point, given its timeout. -/
def checkPoint (names : Names) (span : Span) (name : String) (timeout? : Option Nat)
    (defaultFlow : String) : Check (Option Stmt) := do
  let points := (← get).points
  if points.any (·.name == name) then refuse span (.duplicatePoint name)
  else
    let flow? ← enter names span .jump defaultFlow
    discard (addString name)
    modify fun s => { s with points := s.points.push ⟨name, timeout?.getD 0⟩ }
    let (some _, some flow) := (timeout?, flow?) | return none
    return some (.continuation span points.size flow)

theorem checkContinuation_eq (names : Names) (span : Span) (name : String) (seconds : Float)
    (defaultFlow : String) :
    checkContinuation names span name seconds defaultFlow =
      if (timeoutMs? seconds).isNone then do
        report span (.timeout name seconds)
        checkPoint names span name (timeoutMs? seconds) defaultFlow
      else checkPoint names span name (timeoutMs? seconds) defaultFlow := by
  unfold checkContinuation
  dsimp only
  split
  · rfl
  · rfl

@[simp]
theorem checkPoint_accumulates : Accumulates (checkPoint names span name timeout? defaultFlow) := by
  refine Accumulates.get.bind fun s => ?_
  dsimp only
  split
  · exact refuse_accumulates
  · refine (enter_accumulates _).bind fun flow =>
      (addString_accumulates.map _).bind fun _ => (Accumulates.modify).bind fun _ => ?_
    split <;> simp

@[simp]
theorem checkContinuation_accumulates (seconds : Float) :
    Accumulates (checkContinuation names span name seconds defaultFlow) := by
  rw [checkContinuation_eq]
  split
  · exact report_accumulates.bind fun _ => checkPoint_accumulates
  · exact checkPoint_accumulates

mutual

@[simp]
theorem checkStmt_accumulates (names : Names) (stmt : Behavior.Stmt) :
    Accumulates (checkStmt names stmt) := by
  cases stmt with
  | bind span name value =>
    rw [checkStmt]
    exact (checkExpr_accumulates ..).bind fun _ => checkBind_accumulates
  | assign span target value =>
    rw [checkStmt]
    exact (checkExpr_accumulates ..).bind fun _ => checkAssign_accumulates
  | intent span channel value urgency =>
    rw [checkStmt]
    exact (checkExpr_accumulates ..).bind fun _ => (checkExpr_accumulates ..).bind fun _ =>
      checkIntent_accumulates ..
  | branch span condition thenBody elseBody =>
    rw [checkStmt]
    exact (checkExpr_accumulates ..).bind fun _ => expectBool_accumulates.bind fun _ =>
      (inBlock_accumulates (checkStmts_accumulates names [] thenBody)).bind fun _ =>
      (inBlock_accumulates (checkStmts_accumulates names [] elseBody)).bind fun _ => .pure _
  | loop span count body =>
    have hbody := inBlock_accumulates (checkStmts_accumulates names [] body)
    rw [checkStmt]
    split
    · exact report_accumulates.bind fun _ => newLocal_accumulates.bind fun _ =>
        hbody.bind fun _ => .pure _
    · exact newLocal_accumulates.bind fun _ => hbody.bind fun _ => .pure _
  | call span flow | goto span flow =>
    rw [checkStmt]
    exact (enter_accumulates _).bind fun _ => .pure _
  | wait span seconds =>
    rw [checkStmt]
    exact (checkExpr_accumulates ..).bind fun _ => expectNumber_accumulates.bind fun _ =>
      .pure _
  | continuation span name seconds defaultFlow =>
    rw [checkStmt]
    exact checkContinuation_accumulates _
  | halt span =>
    rw [checkStmt]
    exact .pure _

@[simp]
theorem checkStmts_accumulates (names : Names) (done : List Stmt) (stmts : List Behavior.Stmt) :
    Accumulates (checkStmts names done stmts) := by
  cases stmts with
  | nil =>
    rw [checkStmts]
    exact .pure _
  | cons stmt rest =>
    rw [checkStmts]
    refine (checkStmt_accumulates names stmt).bind fun found => ?_
    split <;> exact checkStmts_accumulates names _ rest

end

@[simp]
theorem checkFlow_accumulates : Accumulates (checkFlow names flow) :=
  (Accumulates.modify).bind fun _ =>
    (inBlock_accumulates (checkStmts_accumulates names [] flow.body)).bind fun _ =>
    Accumulates.get.bind fun _ => .pure _

@[simp]
theorem mapM_accumulates {β : Type} {f : α → Check β} (h : ∀ a, Accumulates (f a)) (xs : List α) :
    Accumulates (xs.mapM f) := by
  induction xs with
  | nil =>
    rw [List.mapM_nil]
    exact .pure _
  | cons x xs ih =>
    rw [List.mapM_cons]
    exact (h x).bind fun _ => ih.bind fun _ => .pure _

@[simp]
theorem checkImports_accumulates (registry : Registry) (imports : List Import) :
    Accumulates (checkImports registry imports) := by
  induction imports with
  | nil => exact .pure _
  | cons i rest ih =>
    rw [checkImports]
    split
    · exact ih.bind fun _ => .pure _
    · exact report_accumulates.bind fun _ => ih

@[simp]
theorem numberFlows_accumulates (flows : List Behavior.Flow) (index : Nat)
    (numbered : List (String × Nat)) : Accumulates (numberFlows index numbered flows) := by
  induction flows generalizing index numbered with
  | nil => exact .pure _
  | cons flow rest ih =>
    rw [numberFlows]
    split
    · exact report_accumulates.bind fun _ => ih ..
    · exact ih ..

theorem forM_accumulates {f : α → Check PUnit} (h : ∀ a, Accumulates (f a)) (xs : List α) :
    Accumulates (xs.forM f) := by
  induction xs with
  | nil => exact .pure _
  | cons x xs ih => exact (h x).bind fun _ => ih

/-- Say of a flow that it can lead back to itself. -/
def reportRecursive (flows : List Flow) (index : Nat) : Check PUnit :=
  match flows[index]? with
  | some flow => report flow.span (.recursiveFlow flow.name)
  | none => return

@[simp]
theorem reportRecursive_accumulates (flows : List Flow) (index : Nat) :
    Accumulates (reportRecursive flows index) := by
  unfold reportRecursive
  split <;> simp

theorem checkGraph_eq (flows : List Flow) (graph : FlowGraph) :
    checkGraph flows graph =
      if graph.recursive.isEmpty then do
        if 0xffff < graph.callDepth then report {} .callDepth
        return graph.callDepth
      else do
        graph.recursive.forM (reportRecursive flows)
        return 0 :=
  rfl

@[simp]
theorem checkGraph_accumulates (flows : List Flow) (graph : FlowGraph) :
    Accumulates (checkGraph flows graph) := by
  rw [checkGraph_eq]
  split
  · split
    · exact report_accumulates.bind fun _ => .pure _
    · exact .pure _
  · exact (forM_accumulates (reportRecursive_accumulates flows) _).bind fun _ => .pure _

/-- A sequence of checks in which no problem is found, taken apart. -/
theorem Clean.parts {β : Type} {x : Check α} {f : α → Check β} {s s' : State} {b : β}
    (h : Clean (x >>= f) s b s')
    (hf : ∀ a, Accumulates (f a) := by
      intro _
      repeat' first
        | simp; done
        | exact .modify
        | exact addString_accumulates.map _
        | refine .bind ?_ fun _ => ?_
        | split) :
    ∃ a s₁, Clean x s a s₁ ∧ Clean (f a) s₁ b s' :=
  h.bind hf

end Behavior.Typed
