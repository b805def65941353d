import Behavior.Proofs.Lowered
import Behavior.Proofs.Meaning

/-!
What checked statements do, and that walks through the blocks they are lowered to do the same.

Statements work on a flat memory of locals and outputs. They end after the last one, by leaving
their flow for another, at a continuation point, or with the whole run. A walk follows: it comes to
what is left of the last block, to the end of some flow with the same calls around it, or to a stop.
-/

namespace Behavior

variable {e : Scalar}
variable {x : Extent} {j : Nat} {locals' : Nat → Float}

namespace Typed

/-! ## Execution -/

/-- What statements work on. -/
structure Memory where
  locals : Nat → Float
  outputs : Array Float
  tape : Tape

/-- The random numbers that are left. -/
def Memory.random (σ : Memory) : Random :=
  σ.tape.random

section

variable (inputs : Array Float) (locals : Nat → Float)

/-- The three numbers of a vector. -/
def Triple.eval : Triple → Tape → (Float × Float × Float) × Tape
  | .make x y z, r =>
    let a := x.eval inputs locals r
    let b := y.eval inputs locals a.2
    let c := z.eval inputs locals b.2
    ((a.1, b.1, c.1), c.2)
  | .inputSlots first, r =>
    ((inputs.getD first 0.0, inputs.getD (first + 1) 0.0, inputs.getD (first + 2) 0.0), r)
  | .localSlots first, r => ((locals first, locals (first + 1), locals (first + 2)), r)
  | .select condition a b, r =>
    let x := condition.eval inputs locals r
    if truthy x.1 then a.eval x.2 else b.eval x.2

def Value.eval : Value → Tape → Datum × Tape
  | .number e, r | .bool e, r | .string e, r =>
    let x := e.eval inputs locals r
    (.scalar x.1, x.2)
  | .vector v, r =>
    let x := v.eval inputs locals r
    (.vector x.1.1 x.1.2.1 x.1.2.2, x.2)

end

/-- Where a number can be stored. -/
inductive Target where
  | locals
  | outputs

def Target.set : Target → Nat → Scalar → Step
  | locals => .setLocal
  | outputs => .setOutput

namespace Memory

def put (σ : Memory) : Target → Nat → Float → Memory
  | .locals, slot, x => { σ with locals := Function.update σ.locals slot x }
  | .outputs, slot, x => { σ with outputs := σ.outputs.setIfInBounds slot x }

/-- Numbers in consecutive slots. -/
def putAll (σ : Memory) (target : Target) (slot : Nat) : List Float → Memory
  | [] => σ
  | x :: rest => (σ.put target slot x).putAll target (slot + 1) rest

/-- The memory with a value stored. -/
def store (inputs : Array Float) (σ : Memory) (target : Target) (slot : Nat) (value : Value) :
    Memory :=
  let x := value.eval inputs σ.locals σ.tape
  { σ.putAll target slot x.1.numbers with tape := x.2 }

end Memory

/-- A body that runs as long as a counter is positive, which it is at most `n` times. -/
def runLoop (counter : Nat) (body : Memory → Option (Memory × Ending)) :
    (n : Nat) → Memory → Option (Memory × Ending)
  | 0, σ => if truthy (BinaryFn.gt.apply (σ.locals counter) 0.0) then none else some (σ, .done)
  | n + 1, σ =>
    if truthy (BinaryFn.gt.apply (σ.locals counter) 0.0) then
      Ending.andThen (body (σ.put .locals counter (σ.locals counter - 1.0)))
        (runLoop counter body n)
    else some (σ, .done)

section

variable (inputs : Array Float) (enter : Nat → Memory → Option (Memory × Ending))

mutual

/-- Execute a statement, given what it is to enter a flow. -/
def Stmt.exec : Stmt → Memory → Option (Memory × Ending)
  | .setLocal _ slot value, σ => some (σ.store inputs .locals slot value, .done)
  | .setOutput _ slot value, σ => some (σ.store inputs .outputs slot value, .done)
  | .intent _ valueSlot urgencySlot value urgency, σ =>
    some ((σ.store inputs .outputs valueSlot value).store inputs .outputs urgencySlot
      (.number urgency), .done)
  | .branch _ condition thenBody elseBody, σ =>
    let x := condition.eval inputs σ.locals σ.tape
    if truthy x.1 then Stmt.execAll thenBody { σ with tape := x.2 }
    else Stmt.execAll elseBody { σ with tape := x.2 }
  | .loop _ count counter body, σ =>
    if count = 0 then some (σ, .done)
    else runLoop counter (Stmt.execAll body) count (σ.put .locals counter (Float.ofNat count))
  | .call _ flow, σ => (enter flow σ).map fun x => (x.1, x.2.ofCall)
  | .goto _ flow, σ => (enter flow σ).map fun x => (x.1, x.2.ofGoto)
  | .wait _ seconds, σ => some ({ σ with tape := (seconds.eval inputs σ.locals σ.tape).2 }, .done)
  | .continuation .., σ => some (σ, .paused)
  | .halt _, σ => some (σ, .halted)

def Stmt.execAll : List Stmt → Memory → Option (Memory × Ending)
  | [], σ => some (σ, .done)
  | stmt :: rest, σ => Ending.andThen (stmt.exec σ) (Stmt.execAll rest)

end

end

/-- Execute a flow, with flows nested in each other at most `depth` deep. -/
def execFlow (inputs : Array Float) (flows : List Flow) :
    (depth flow : Nat) → Memory → Option (Memory × Ending)
  | 0, _, _ => none
  | depth + 1, flow, σ =>
    match flows[flow]? with
    | some f => Stmt.execAll inputs (execFlow inputs flows depth) f.body σ
    | none => none

end Typed

/-! ## Expressions while locals change -/

/-- An expression depends on a local. -/
def Scalar.Reads (i : Nat) : Scalar → Prop
  | .const _ | .inputSlot _ | .random => False
  | .localSlot slot => slot = i
  | .unary _ a => a.Reads i
  | .binary _ a b => a.Reads i ∨ b.Reads i
  | .ternary _ a b c | .select a b c => a.Reads i ∨ b.Reads i ∨ c.Reads i

theorem Scalar.eval_of_reads {inputs : Array Float} {locals : Nat → Float}
    (h : ∀ i, e.Reads i → locals' i = locals i) (r : Tape) :
    e.eval inputs locals' r = e.eval inputs locals r := by
  induction e generalizing r with
  | const v => rfl
  | inputSlot slot => rfl
  | localSlot slot => simp only [eval, h slot rfl]
  | random => rfl
  | unary f a iha => simp only [eval, iha h]
  | binary f a b iha ihb =>
    simp only [eval, iha fun i hi => h i (.inl hi), ihb fun i hi => h i (.inr hi)]
  | ternary f a b c iha ihb ihc | select a b c iha ihb ihc =>
    simp only [eval, iha fun i hi => h i (.inl hi), ihb fun i hi => h i (.inr (.inl hi)),
      ihc fun i hi => h i (.inr (.inr hi))]

theorem Scalar.eval_update {inputs : Array Float} {locals : Nat → Float} {slot : Nat}
    (h : ¬ e.Reads slot) (x : Float) (r : Tape) :
    e.eval inputs (Function.update locals slot x) r = e.eval inputs locals r :=
  eval_of_reads (fun i hi => Function.update_of_ne (show i ≠ slot from fun heq => h (heq ▸ hi)) ..) r

theorem Scalar.Reads.lt {i : Nat} (h : e.Reads i) (he : e.Within x) : i < x.locals := by
  induction e with
  | const v | inputSlot slot | random => exact h.elim
  | localSlot slot =>
    have h : slot = i := h
    exact h ▸ he
  | unary f a iha => exact iha h he
  | binary f a b iha ihb =>
    rcases h with h | h
    · exact iha h he.1
    · exact ihb h he.2
  | ternary f a b c iha ihb ihc | select a b c iha ihb ihc =>
    rcases h with h | h | h
    · exact iha h he.1
    · exact ihb h he.2.1
    · exact ihc h he.2.2

namespace Typed

variable {v : Triple}

/-- An expression does not depend on a slot. -/
def Target.Avoids : Target → Nat → Scalar → Prop
  | .locals, slot, e => ¬ e.Reads slot
  | .outputs, _, _ => True

/-- A vector can be stored number by number: none depends on a slot that has been written before. -/
def Triple.Apart (target : Target) (slot : Nat) (v : Triple) : Prop :=
  target.Avoids slot (v.component 1) ∧ target.Avoids slot (v.component 2) ∧
    target.Avoids (slot + 1) (v.component 2)

def Value.Apart (target : Target) (slot : Nat) : Value → Prop
  | .vector v => v.Apart target slot
  | _ => True

mutual

/-- Locals are assigned values that can be stored number by number. -/
def Stmt.Apart : Stmt → Prop
  | .setLocal _ slot value => value.Apart .locals slot
  | .branch _ _ thenBody elseBody => Stmt.AllApart thenBody ∧ Stmt.AllApart elseBody
  | .loop _ _ _ body => Stmt.AllApart body
  | _ => True

def Stmt.AllApart : List Stmt → Prop
  | [] => True
  | stmt :: rest => stmt.Apart ∧ Stmt.AllApart rest

end

/-- A vector without random conditions is evaluated number by number. -/
theorem Triple.eval_settled (h : v.Settled) (inputs : Array Float) (locals : Nat → Float) (r : Tape) :
    v.eval inputs locals r =
      let x := (v.component 0).eval inputs locals r
      let y := (v.component 1).eval inputs locals x.2
      let z := (v.component 2).eval inputs locals y.2
      ((x.1, y.1, z.1), z.2) := by
  induction v generalizing r with
  | make x y z => rfl
  | inputSlots first => rfl
  | localSlots first => rfl
  | select condition a b iha ihb =>
    obtain ⟨hpure, ha, hb⟩ := h
    obtain ⟨x, hx⟩ := Scalar.eval_of_isPure hpure inputs locals
    simp only [Triple.eval, component, Scalar.eval, hx]
    cases truthy x with
    | true => exact iha ha r
    | false => exact ihb hb r

theorem Triple.Within.mono {y : Extent} (h : v.Within x) (hle : x.Le y) : v.Within y := by
  induction v with
  | make a b c => exact ⟨hle.scalar h.1, hle.scalar h.2.1, hle.scalar h.2.2⟩
  | inputSlots first => exact Nat.le_trans h hle.inputs
  | localSlots first => exact Nat.le_trans h hle.locals
  | select condition a b iha ihb => exact ⟨hle.scalar h.1, iha h.2.1, ihb h.2.2⟩

theorem Triple.within_component (h : v.Within x) (hj : j < 3) : (v.component j).Within x := by
  induction v with
  | make a b c =>
    unfold component
    split
    · exact h.1
    · split
      · exact h.2.1
      · exact h.2.2
  | inputSlots first | localSlots first => exact Nat.lt_of_lt_of_le (Nat.add_lt_add_left hj first) h
  | select condition a b iha ihb => exact ⟨h.1, iha h.2.1, ihb h.2.2⟩

end Typed

/-! ## Walks that follow -/

namespace Walk

variable {G : BlockGraph} {inputs : Array Float} {w v u : Walk}

/-- Whatever a run from the second walk comes to, a run from the first comes to as well. Waits are
passed over. -/
structure Reaches (G : BlockGraph) (inputs : Array Float) (w v : Walk) : Prop where
  run : ∀ {n signal w'}, Runs G inputs true n v signal w' → ∃ k, Runs G inputs true k w signal w'

theorem Reaches.refl (w : Walk) : Reaches G inputs w w :=
  ⟨fun h => ⟨_, h⟩⟩

theorem Reaches.trans (h : Reaches G inputs w v) (h' : Reaches G inputs v u) :
    Reaches G inputs w u := by
  refine ⟨fun hruns => ?_⟩
  obtain ⟨k, hruns'⟩ := h'.run hruns
  exact h.run hruns'

theorem Reaches.next (h : w.step G inputs = .next v) : Reaches G inputs w v :=
  ⟨fun hruns => ⟨_, .step h hruns⟩⟩

theorem Reaches.wait {x : Float} (h : w.step G inputs = .stop (.wait x) v) : Reaches G inputs w v :=
  ⟨fun hruns => ⟨_, .pass rfl h hruns⟩⟩

end Walk

namespace Typed

/-- A walk is at what is left of a block, with the given memory in its first `n` locals. -/
structure Memory.At (n : Nat) (σ : Memory) (b : Block) (calls : List Block) (w : Walk) : Prop where
  block : w.block = b
  calls : w.calls = calls
  locals : ∀ i < n, w.locals i = σ.locals i
  outputs : w.outputs = σ.outputs
  tape : w.tape = σ.tape

section

variable {G : BlockGraph} {inputs : Array Float} {n slot kept i : Nat} {σ σ' : Memory}
  {b b' : Block} {calls calls' : List Block} {w : Walk} {e condition : Scalar} {span : Span}
  {target : Target} {v : Triple} {p : Program}
variable {random : Random} {locals : Nat → Float} {depth counter next : Nat} {outputs : Array Float}
  {a : Triple}

theorem Memory.At.eval (h : σ.At n b calls w) (he : e.Within (extent n)) :
    e.eval inputs w.locals w.tape = e.eval inputs σ.locals σ.tape := by
  rw [Scalar.eval_congr he h.locals, h.tape]

theorem Memory.At.put (G : BlockGraph) (inputs : Array Float) (target : Target)
    (h : σ.At n (b'.prepend [(target.set slot e, span)]) calls w) (he : e.Within (extent n)) :
    ∃ w', Walk.Reaches G inputs w w' ∧
      (σ.store inputs target slot (.number e)).At n b' calls w' := by
  have heval : e.eval inputs w.locals w.tape = e.eval inputs σ.locals σ.tape := h.eval he
  obtain ⟨block, calls, locals, outputs, tape⟩ := w
  obtain ⟨rfl, rfl, hlocals, rfl, rfl⟩ := h
  dsimp only at heval hlocals
  cases target with
  | locals =>
    refine ⟨_, .next rfl, rfl, rfl, fun i hi => ?_, rfl, congrArg Prod.snd heval⟩
    show Function.update locals slot _ i = Function.update σ.locals slot _ i
    rw [heval, Function.update_apply, Function.update_apply, hlocals i hi]
  | outputs =>
    refine ⟨_, .next rfl, rfl, rfl, hlocals, ?_, congrArg Prod.snd heval⟩
    show σ.outputs.setIfInBounds slot _ = σ.outputs.setIfInBounds slot _
    rw [heval]

theorem Target.Avoids.eval_put (h : target.Avoids slot e) (σ : Memory) (x : Float) (r : Tape) :
    e.eval inputs (σ.put target slot x).locals r = e.eval inputs σ.locals r := by
  cases target with
  | locals => exact Scalar.eval_update h x r
  | outputs => rfl

theorem Memory.put_tape (σ : Memory) (tape : Tape) (target : Target) (slot : Nat)
    (x : Float) : ({ σ with tape } : Memory).put target slot x =
      { σ.put target slot x with tape } := by
  cases target <;> rfl

/-- Storing number by number stores what the vector was before. -/
theorem Memory.store_vector (hsettled : v.Settled) (hapart : v.Apart target slot) (σ : Memory) :
    ((σ.store inputs target slot (.number (v.component 0))).store inputs target (slot + 1)
      (.number (v.component 1))).store inputs target (slot + 1 + 1) (.number (v.component 2)) =
      σ.store inputs target slot (.vector v) := by
  obtain ⟨hy, hz, hz'⟩ := hapart
  simp only [store, Value.eval, Triple.eval_settled hsettled, Datum.numbers, putAll, put_tape,
    hy.eval_put, hz.eval_put, hz'.eval_put]

/-- A walk stores the numbers of a vector without random conditions. -/
theorem Memory.At.storeSettled (G : BlockGraph) (inputs : Array Float)
    (h : σ.At n (b'.prepend (v.stores span target.set slot)) calls w) (hv : v.Within (extent n))
    (hsettled : v.Settled) (hapart : v.Apart target slot) :
    ∃ w', Walk.Reaches G inputs w w' ∧
      (σ.store inputs target slot (.vector v)).At n b' calls w' := by
  have h : σ.At n (((b'.prepend [(target.set (slot + 1 + 1) (v.component 2), span)]).prepend
      [(target.set (slot + 1) (v.component 1), span)]).prepend
      [(target.set slot (v.component 0), span)]) calls w := h
  obtain ⟨w₁, hreach₁, h₁⟩ := h.put G inputs target (Triple.within_component hv (by decide))
  obtain ⟨w₂, hreach₂, h₂⟩ := h₁.put G inputs target (Triple.within_component hv (by decide))
  obtain ⟨w₃, hreach₃, h₃⟩ := h₂.put G inputs target (Triple.within_component hv (by decide))
  rw [Memory.store_vector hsettled hapart] at h₃
  exact ⟨w₃, hreach₁.trans (hreach₂.trans hreach₃), h₃⟩

theorem Memory.At.narrow {m : Nat} (h : σ.At m b calls w) (hm : n ≤ m) : σ.At n b calls w :=
  { h with locals := fun i hi => h.locals i (Nat.lt_of_lt_of_le hi hm) }

/-- Memories with the same outputs and the same first `n` locals. -/
structure Memory.Agree (n : Nat) (σ σ' : Memory) : Prop where
  locals : ∀ i < n, σ.locals i = σ'.locals i
  outputs : σ.outputs = σ'.outputs

theorem Memory.At.agree (h : σ.At n b calls w) (h' : σ.Agree n σ') (hr : σ.tape = σ'.tape) :
    σ'.At n b calls w :=
  ⟨h.block, h.calls, fun i hi => (h.locals i hi).trans (h'.locals i hi),
    h.outputs.trans h'.outputs, h.tape.trans hr⟩

theorem Memory.Agree.put (h : σ.Agree n σ') (target : Target) (slot : Nat) (x : Float) :
    (σ.put target slot x).Agree n (σ'.put target slot x) := by
  cases target with
  | locals =>
    refine ⟨fun i hi => ?_, h.outputs⟩
    show Function.update σ.locals slot x i = Function.update σ'.locals slot x i
    rw [Function.update_apply, Function.update_apply, h.locals i hi]
  | outputs =>
    refine ⟨h.locals, ?_⟩
    show σ.outputs.setIfInBounds slot x = σ'.outputs.setIfInBounds slot x
    rw [h.outputs]

theorem Memory.Agree.putAll (h : σ.Agree n σ') (target : Target) (slot : Nat) (xs : List Float) :
    (σ.putAll target slot xs).Agree n (σ'.putAll target slot xs) := by
  induction xs generalizing σ σ' slot with
  | nil => exact h
  | cons x rest ih => exact ih (h.put target slot x) (slot + 1)

theorem Triple.eval_congr (hv : v.Within (extent n)) (h : ∀ i < n, locals' i = locals i) (r : Tape)
    :
    v.eval inputs locals' r = v.eval inputs locals r := by
  induction v generalizing r with
  | make x y z =>
    simp only [Triple.eval, Scalar.eval_congr hv.1 h, Scalar.eval_congr hv.2.1 h,
      Scalar.eval_congr hv.2.2 h]
  | inputSlots first => rfl
  | localSlots first =>
    have hv : first + 3 ≤ n := hv
    simp only [Triple.eval, h first (by omega), h (first + 1) (by omega), h (first + 2) (by omega)]
  | select condition a b iha ihb =>
    simp only [Triple.eval, Scalar.eval_congr hv.1 h, iha hv.2.1, ihb hv.2.2]

/-- A condition that is kept where no value looks does not matter. -/
theorem Triple.Apart.keep {b : Triple} (h : (Triple.select condition a b).Apart target slot)
    (hkept : target = .locals → slot + 1 < kept) :
    (Triple.select (.localSlot kept) a b).Apart target slot := by
  cases target with
  | outputs => exact ⟨trivial, trivial, trivial⟩
  | locals =>
    have hlt := hkept rfl
    have hne {s : Nat} (hs : s ≤ slot + 1) {x y : Scalar}
        (havoid : ¬ (Scalar.select condition x y).Reads s) :
        ¬ (Scalar.select (.localSlot kept) x y).Reads s := by
      rintro (hread | hread)
      · have hread : kept = s := hread
        omega
      · exact havoid (.inr hread)
    exact ⟨hne (Nat.le_succ _) h.1, hne (Nat.le_succ _) h.2.1, hne (Nat.le_refl _) h.2.2⟩

/-- Once the condition of a vector is kept, storing what is left of it stores the same numbers. -/
theorem Memory.store_kept (inputs : Array Float) {b : Triple}
    (hv : (Triple.select condition a b).Within (extent n)) (hkept : n ≤ kept)
    (h : ∀ i < n, locals i = σ.locals i) (target : Target) (slot : Nat) :
    let σ₁ := ({ σ with locals } : Memory).store inputs .locals kept (.number condition)
    let σ₂ := σ₁.store inputs target slot (.vector (.select (.localSlot kept) a b))
    let σ' := σ.store inputs target slot (.vector (.select condition a b))
    σ₂.Agree n σ' ∧ σ₂.tape = σ'.tape := by
  intro σ₁ σ₂ σ'
  have hcondition : condition.eval inputs locals σ.tape =
      condition.eval inputs σ.locals σ.tape := Scalar.eval_congr hv.1 h _
  have hagree : σ₁.Agree n σ :=
    ⟨fun i hi => (Function.update_of_ne (show i ≠ kept by omega) ..).trans (h i hi), rfl⟩
  have hkeep : σ₁.locals kept = (condition.eval inputs σ.locals σ.tape).1 :=
    (Function.update_self ..).trans (congrArg Prod.fst hcondition)
  have htape : σ₁.tape = (condition.eval inputs σ.locals σ.tape).2 :=
    congrArg Prod.snd hcondition
  have heval : (Value.vector (.select (.localSlot kept) a b)).eval inputs σ₁.locals σ₁.tape =
      (Value.vector (.select condition a b)).eval inputs σ.locals σ.tape := by
    simp only [Value.eval, Triple.eval, Scalar.eval, hkeep, htape,
      Triple.eval_congr hv.2.1 hagree.locals, Triple.eval_congr hv.2.2 hagree.locals]
  have hput := fun xs => hagree.putAll target slot xs
  unfold σ₂ σ' Memory.store
  rw [heval]
  exact ⟨⟨(hput _).locals, (hput _).outputs⟩, rfl⟩

/-- A walk stores a steady value. -/
theorem Memory.At.store (G : BlockGraph) (inputs : Array Float) (target : Target) {v : Value}
    (h : σ.At n (b'.prepend (v.stores span target.set slot kept)) calls w)
    (hv : v.Within (extent n)) (hsteady : v.Steady) (hapart : v.Apart target slot)
    (hkept : n ≤ kept) (hslot : target = .locals → slot + v.type.width ≤ n) :
    ∃ w', Walk.Reaches G inputs w w' ∧ (σ.store inputs target slot v).At n b' calls w' := by
  cases v with
  | number e | bool e | string e => exact h.put G inputs target hv
  | vector v =>
    cases v with
    | make x y z | inputSlots first | localSlots first =>
      exact h.storeSettled G inputs hv trivial hapart
    | select condition a b =>
      obtain ⟨ha, hb⟩ := hsteady
      by_cases hpure : condition.isPure = true
      · have hsettled : (Triple.select condition a b).Settled := ⟨hpure, ha, hb⟩
        rw [Value.stores, hsettled.hoist] at h
        exact h.storeSettled G inputs hv hsettled hapart
      · simp only [Value.stores, Triple.hoist, if_neg hpure, ha.hoist, hb.hoist] at h
        -- the walk's own locals serve as memory while the condition is kept
        have hle : (extent n).Le (extent (kept + 1)) :=
          ⟨Nat.le_refl _, Nat.le_refl _, Nat.le_succ_of_le hkept⟩
        have hwide : Memory.At (kept + 1) { σ with locals := w.locals }
            ((b'.prepend ((Triple.select (.localSlot kept) a b).stores span target.set slot)).prepend
              [(Target.locals.set kept condition, span)]) calls w :=
          ⟨h.block, h.calls, fun _ _ => rfl, h.outputs, h.tape⟩
        obtain ⟨w₁, hreach₁, h₁⟩ := hwide.put G inputs .locals (hle.scalar hv.1)
        have hkept' : target = .locals → slot + 1 < kept := fun ht =>
          have hslot : slot + 3 ≤ n := hslot ht
          by omega
        obtain ⟨w₂, hreach₂, h₂⟩ := h₁.storeSettled G inputs
          ⟨Nat.lt_succ_self kept, hv.2.1.mono hle, hv.2.2.mono hle⟩ ⟨rfl, ha, hb⟩
          (hapart.keep hkept')
        obtain ⟨hagree, htape⟩ := Memory.store_kept inputs hv hkept h.locals target slot
        exact ⟨w₂, hreach₁.trans hreach₂, (h₂.narrow (Nat.le_succ_of_le hkept)).agree hagree htape⟩

/-! ### Leaving a block -/

theorem Memory.At.jump (G : BlockGraph) (inputs : Array Float)
    (h : σ.At n ⟨[], .jump i, span⟩ calls w) :
    ∃ w', Walk.Reaches G inputs w w' ∧ σ.At n (G.block i) calls w' := by
  obtain ⟨block, calls, locals, outputs, tape⟩ := w
  obtain ⟨rfl, rfl, hlocals, rfl, rfl⟩ := h
  exact ⟨_, .next rfl, rfl, rfl, hlocals, rfl, rfl⟩

theorem Memory.At.branch (G : BlockGraph) (inputs : Array Float)
    (h : σ.At n ⟨[], .branch condition i j, span⟩ calls w)
    (hcondition : condition.Within (extent n)) :
    let x := condition.eval inputs σ.locals σ.tape
    ∃ w', Walk.Reaches G inputs w w' ∧
      ({ σ with tape := x.2 } : Memory).At n (G.block (if truthy x.1 then i else j)) calls w' := by
  have heval : condition.eval inputs w.locals w.tape = condition.eval inputs σ.locals σ.tape :=
    h.eval hcondition
  obtain ⟨block, calls, locals, outputs, tape⟩ := w
  obtain ⟨rfl, rfl, hlocals, rfl, rfl⟩ := h
  intro x
  refine ⟨_, .next rfl, ?_, rfl, hlocals, rfl, congrArg Prod.snd heval⟩
  dsimp only
  rw [heval]

theorem Memory.At.call (G : BlockGraph) (inputs : Array Float) {flow : Nat}
    (h : σ.At n (b'.prepend [(.call flow, span)]) calls w) :
    ∃ w', Walk.Reaches G inputs w w' ∧ σ.At n (G.block flow) (b' :: calls) w' := by
  obtain ⟨block, calls, locals, outputs, tape⟩ := w
  obtain ⟨rfl, rfl, hlocals, rfl, rfl⟩ := h
  exact ⟨_, .next rfl, rfl, rfl, hlocals, rfl, rfl⟩

theorem Memory.At.ret (G : BlockGraph) (inputs : Array Float)
    (h : σ.At n ⟨[], .ret, span⟩ (b' :: calls) w) :
    ∃ w', Walk.Reaches G inputs w w' ∧ σ.At n b' calls w' := by
  obtain ⟨block, _, locals, outputs, tape⟩ := w
  obtain ⟨rfl, rfl, hlocals, rfl, rfl⟩ := h
  exact ⟨_, .next rfl, rfl, rfl, hlocals, rfl, rfl⟩

/-- A wait is passed over and leads to a jump. -/
theorem Memory.At.wait (G : BlockGraph) (inputs : Array Float) {seconds : Scalar}
    (h : σ.At n ⟨[], .wait seconds i, span⟩ calls w) (hseconds : seconds.Within (extent n)) :
    ∃ w', Walk.Reaches G inputs w w' ∧
      ({ σ with tape := (seconds.eval inputs σ.locals σ.tape).2 } : Memory).At n (G.block i) calls
        w' := by
  have heval : seconds.eval inputs w.locals w.tape = seconds.eval inputs σ.locals σ.tape :=
    h.eval hseconds
  obtain ⟨block, calls, locals, outputs, tape⟩ := w
  obtain ⟨rfl, rfl, hlocals, rfl, rfl⟩ := h
  exact ⟨_, .trans (.wait rfl) (.next rfl), rfl, rfl, hlocals, rfl, congrArg Prod.snd heval⟩

/-! ### Statements -/

/-- Where a walk comes to when statements end in the given memory, if `b` is left after them. -/
inductive Arrives (G : BlockGraph) (inputs : Array Float) (n : Nat) (b : Block)
    (calls : List Block) (w : Walk) (σ : Memory) : Ending → Prop
  | done {w' : Walk} : Walk.Reaches G inputs w w' → σ.At n b calls w' →
      Arrives G inputs n b calls w σ .done
  | left {w' : Walk} {span : Span} : Walk.Reaches G inputs w w' →
      σ.At n ⟨[], .ret, span⟩ calls w' → Arrives G inputs n b calls w σ .left
  | halted {k : Nat} {w' : Walk} : Walk.Runs G inputs true k w .halt w' →
      w'.outputs = σ.outputs → w'.tape = σ.tape → Arrives G inputs n b calls w σ .halted
  | paused {k point : Nat} {w' : Walk} : Walk.Runs G inputs true k w (.pause point) w' →
      Arrives G inputs n b calls w σ .paused

variable {ending : Ending}

theorem Arrives.after {v : Walk} (hreach : Walk.Reaches G inputs w v)
    (h : Arrives G inputs n b calls v σ ending) : Arrives G inputs n b calls w σ ending := by
  cases h with
  | done hreach' h => exact .done (hreach.trans hreach') h
  | left hreach' h => exact .left (hreach.trans hreach') h
  | halted hruns houtputs htape =>
    obtain ⟨k, hruns⟩ := hreach.run hruns
    exact .halted hruns houtputs htape
  | paused hruns =>
    obtain ⟨k, hruns⟩ := hreach.run hruns
    exact .paused hruns

/-- What is left after the statements may be a jump. -/
theorem Arrives.jump (h : Arrives G inputs n ⟨[], .jump i, span⟩ calls w σ ending) :
    Arrives G inputs n (G.block i) calls w σ ending := by
  cases h with
  | done hreach h =>
    obtain ⟨w', hreach', h'⟩ := h.jump G inputs
    exact .done (hreach.trans hreach') h'
  | left hreach h => exact .left hreach h
  | halted hruns houtputs htape => exact .halted hruns houtputs htape
  | paused hruns => exact .paused hruns

theorem Arrives.andThen {o : Option (Memory × Ending)}
    {next : Memory → Option (Memory × Ending)}
    (hexec : Ending.andThen o next = some (σ', ending))
    (h : ∀ {σ₁ ending₁}, o = some (σ₁, ending₁) → Arrives G inputs n b calls w σ₁ ending₁)
    (hnext : ∀ {σ₁ w₁}, σ₁.At n b calls w₁ → next σ₁ = some (σ', ending) →
      Arrives G inputs n b' calls w₁ σ' ending) :
    Arrives G inputs n b' calls w σ' ending := by
  unfold Ending.andThen at hexec
  split at hexec
  · cases h rfl with
    | done hreach hdone => exact (hnext hdone hexec).after hreach
  · next heq =>
    obtain ⟨⟩ := hexec
    cases h rfl with
    | done hreach hdone => exact (heq rfl).elim
    | left hreach hleft => exact .left hreach hleft
    | halted hruns houtputs htape => exact .halted hruns houtputs htape
    | paused hruns => exact .paused hruns
  · cases hexec

/-- The end of the whole run does not depend on what is left. -/
theorem Arrives.final (h : Arrives G inputs n b calls w σ ending) (hfinal : ending.isFinal = true) :
    Arrives G inputs n b' calls' w σ ending := by
  cases h with
  | done | left => cases hfinal
  | halted hruns houtputs htape => exact .halted hruns houtputs htape
  | paused hruns => exact .paused hruns

/-- A flow that does not end with the whole run is left by its end. -/
theorem Arrives.returned (h : Arrives G inputs n ⟨[], .ret, span⟩ calls w σ ending)
    (hfinal : ¬ ending.isFinal = true) :
    ∃ span' w', Walk.Reaches G inputs w w' ∧ σ.At n ⟨[], .ret, span'⟩ calls w' := by
  cases h with
  | done hreach h => exact ⟨span, _, hreach, h⟩
  | left hreach h => exact ⟨_, _, hreach, h⟩
  | halted | paused => exact absurd rfl hfinal

theorem Memory.At.running (G : BlockGraph) (inputs : Array Float)
    (h : σ.At n ⟨[], .branch (isRunning counter) i next, span⟩ calls w) (hcounter : counter < n) :
    ∃ w', Walk.Reaches G inputs w w' ∧
      σ.At n (G.block (if truthy (BinaryFn.gt.apply (σ.locals counter) 0.0) then i else next)) calls
        w' :=
  h.branch G inputs ⟨hcounter, trivial⟩

/-- The walk follows a loop if it follows its body. -/
theorem runLoop_arrives {header : Nat} {first : Block} {body : Memory → Option (Memory × Ending)}
    (hcounter : counter < n)
    (hheader : G.block header = ⟨[], .branch (isRunning counter) i next, span⟩)
    (hi : G.block i = first.prepend [(.setLocal counter (countDown counter), span)])
    (hbody : ∀ {σ σ' ending w}, σ.At n first calls w → body σ = some (σ', ending) →
      Arrives G inputs n ⟨[], .jump header, span⟩ calls w σ' ending) (k : Nat)
    (h : σ.At n (G.block header) calls w) (hexec : runLoop counter body k σ = some (σ', ending)) :
    Arrives G inputs n (G.block next) calls w σ' ending := by
  induction k generalizing σ w with
  | zero =>
    rw [runLoop] at hexec
    rw [hheader] at h
    obtain ⟨w₁, hreach₁, h₁⟩ := h.running G inputs hcounter
    split at hexec
    · cases hexec
    · next hstop =>
      cases hexec
      rw [if_neg hstop] at h₁
      exact .done hreach₁ h₁
  | succ k ih =>
    rw [runLoop] at hexec
    rw [hheader] at h
    obtain ⟨w₁, hreach₁, h₁⟩ := h.running G inputs hcounter
    split at hexec
    · next hgo =>
      rw [if_pos hgo, hi] at h₁
      obtain ⟨w₂, hreach₂, h₂⟩ := Memory.At.put G inputs .locals h₁ ⟨hcounter, trivial⟩
      exact .after (hreach₁.trans hreach₂)
        (Arrives.andThen hexec (fun heq => (hbody h₂ heq).jump) fun h₃ heq => ih h₃ heq)
    · next hstop =>
      cases hexec
      rw [if_neg hstop] at h₁
      exact .done hreach₁ h₁

theorem Value.apart_outputs (v : Value) (slot : Nat) : v.Apart .outputs slot := by
  cases v with
  | vector v => exact ⟨trivial, trivial, trivial⟩
  | _ => trivial

/-- Walks follow flows that are entered, to the end of some flow. -/
structure Enters (G : BlockGraph) (inputs : Array Float) (n : Nat)
    (enter : Nat → Memory → Option (Memory × Ending)) : Prop where
  arrives : ∀ {flow : Nat} {σ σ' : Memory} {ending : Ending} {calls : List Block} {w : Walk},
    enter flow σ = some (σ', ending) → σ.At n (G.block flow) calls w →
    ∃ span, Arrives G inputs n ⟨[], .ret, span⟩ calls w σ' ending

mutual

/-- A walk follows a statement. -/
theorem Stmt.exec_arrives {enter : Nat → Memory → Option (Memory × Ending)} {stmt : Stmt}
    {b b' : Block} {calls : List Block} {w : Walk} {σ σ' : Memory} {ending : Ending}
    (henter : Enters G inputs n enter)
    (hwithin : stmt.Within (extent n)) (hsteady : stmt.Steady)
    (hapart : stmt.Apart) (hlowered : stmt.Lowered G n b b') (h : σ.At n b calls w)
    (hexec : stmt.exec inputs enter σ = some (σ', ending)) :
    Arrives G inputs n b' calls w σ' ending := by
  cases stmt with
  | setLocal span slot value =>
    rw [Stmt.exec] at hexec
    cases hexec
    obtain ⟨kept, hkept, rfl⟩ := hlowered
    obtain ⟨w', hreach, h'⟩ := Memory.At.store G inputs .locals h hwithin.2 hsteady hapart
      hkept fun _ => hwithin.1
    exact .done hreach h'
  | setOutput span slot value =>
    rw [Stmt.exec] at hexec
    cases hexec
    obtain ⟨kept, hkept, rfl⟩ := hlowered
    obtain ⟨w', hreach, h'⟩ := Memory.At.store G inputs .outputs h hwithin.2 hsteady
      (value.apart_outputs slot) hkept Target.noConfusion
    exact .done hreach h'
  | intent span valueSlot urgencySlot value urgency =>
    rw [Stmt.exec] at hexec
    cases hexec
    obtain ⟨-, -, hvalue, hurgency⟩ := hwithin
    obtain ⟨kept, hkept, rfl⟩ := hlowered
    obtain ⟨w₁, hreach₁, h₁⟩ := Memory.At.store G inputs .outputs h hvalue hsteady
      (value.apart_outputs valueSlot) hkept Target.noConfusion
    obtain ⟨w₂, hreach₂, h₂⟩ := Memory.At.put G inputs .outputs h₁ hurgency
    exact .done (hreach₁.trans hreach₂) h₂
  | branch span condition thenBody elseBody =>
    rw [Stmt.exec] at hexec
    obtain ⟨i, j, merge, rfl, rfl, hthen, helse⟩ := hlowered
    obtain ⟨w₁, hreach₁, h₁⟩ := h.branch G inputs hwithin.1
    obtain ⟨-, hthenWithin, helseWithin⟩ := hwithin
    split at hexec
    · next htruthy =>
      rw [if_pos htruthy] at h₁
      exact .after hreach₁
        (Stmt.execAll_arrives henter hthenWithin hsteady.1 hapart.1 hthen h₁ hexec).jump
    · next hfalsy =>
      rw [if_neg hfalsy] at h₁
      rcases helse with helse | ⟨rfl, rfl⟩
      · exact .after hreach₁
          (Stmt.execAll_arrives henter helseWithin hsteady.2 hapart.2 helse h₁ hexec).jump
      · rw [Stmt.execAll] at hexec
        cases hexec
        exact .done hreach₁ h₁
  | loop span count counter body =>
    rw [Stmt.exec] at hexec
    rcases hlowered with ⟨rfl, rfl⟩ | ⟨hcount, header, i, next, first, rfl, hheader, hi, rfl, hbody⟩
    · cases hexec
      exact .done (.refl w) h
    · rw [if_neg hcount] at hexec
      have h : σ.At n (Block.prepend ⟨[], .jump header, span⟩
          [(Target.locals.set counter (.const (Float.ofNat count)), span)]) calls w := h
      obtain ⟨w₁, hreach₁, h₁⟩ := h.put G inputs .locals trivial
      obtain ⟨w₂, hreach₂, h₂⟩ := h₁.jump G inputs
      refine .after (hreach₁.trans hreach₂) (runLoop_arrives hwithin.1 hheader hi ?_ count h₂ hexec)
      intro σ σ' ending w hfirst heq
      exact Stmt.execAll_arrives henter hwithin.2 hsteady hapart hbody hfirst heq
  | call span flow =>
    rw [Stmt.exec] at hexec
    have hlowered : b = b'.prepend [(.call flow, span)] := by rwa [Stmt.Lowered] at hlowered
    subst hlowered
    obtain ⟨w₁, hreach₁, h₁⟩ := h.call G inputs
    obtain ⟨⟨σ₁, ending₁⟩, heq, hpair⟩ := Option.map_eq_some_iff.1 hexec
    cases hpair
    obtain ⟨span', harrives⟩ := henter.arrives heq h₁
    rw [Ending.ofCall_eq]
    by_cases hfinal : ending₁.isFinal = true
    · rw [if_pos hfinal]
      exact .after hreach₁ (harrives.final hfinal)
    · rw [if_neg hfinal]
      obtain ⟨_, w₂, hreach₂, h₂⟩ := harrives.returned hfinal
      obtain ⟨w₃, hreach₃, h₃⟩ := h₂.ret G inputs
      exact .done (hreach₁.trans (hreach₂.trans hreach₃)) h₃
  | goto span flow =>
    rw [Stmt.exec] at hexec
    have hlowered : b = ⟨[], .jump flow, span⟩ := by rwa [Stmt.Lowered] at hlowered
    subst hlowered
    obtain ⟨w₁, hreach₁, h₁⟩ := h.jump G inputs
    obtain ⟨⟨σ₁, ending₁⟩, heq, hpair⟩ := Option.map_eq_some_iff.1 hexec
    cases hpair
    obtain ⟨span', harrives⟩ := henter.arrives heq h₁
    rw [Ending.ofGoto_eq]
    by_cases hfinal : ending₁.isFinal = true
    · rw [if_pos hfinal]
      exact .after hreach₁ (harrives.final hfinal)
    · rw [if_neg hfinal]
      obtain ⟨_, w₂, hreach₂, h₂⟩ := harrives.returned hfinal
      exact .left (hreach₁.trans hreach₂) h₂
  | wait span seconds =>
    rw [Stmt.exec] at hexec
    cases hexec
    obtain ⟨i, rfl, rfl⟩ := hlowered
    obtain ⟨w', hreach, h'⟩ := h.wait G inputs hwithin
    exact .done hreach h'
  | continuation span point flow =>
    rw [Stmt.exec] at hexec
    cases hexec
    have hlowered : b = ⟨[], .pause point flow, span⟩ := by rwa [Stmt.Lowered] at hlowered
    subst hlowered
    obtain ⟨block, calls, locals, outputs, tape⟩ := w
    obtain ⟨rfl, rfl, hlocals, rfl, rfl⟩ := h
    exact .paused (.stop rfl fun _ _ => Signal.noConfusion)
  | halt span =>
    rw [Stmt.exec] at hexec
    cases hexec
    have hlowered : b = ⟨[], .halt, span⟩ := by rwa [Stmt.Lowered] at hlowered
    subst hlowered
    obtain ⟨block, calls, locals, outputs, tape⟩ := w
    obtain ⟨rfl, rfl, hlocals, rfl, rfl⟩ := h
    exact .halted (.stop rfl fun _ _ => Signal.noConfusion) rfl rfl

theorem Stmt.execAll_arrives {enter : Nat → Memory → Option (Memory × Ending)} {stmts : List Stmt}
    {b b' : Block} {calls : List Block} {w : Walk} {σ σ' : Memory} {ending : Ending}
    (henter : Enters G inputs n enter)
    (hwithin : Stmt.AllWithin (extent n) stmts)
    (hsteady : Stmt.AllSteady stmts) (hapart : Stmt.AllApart stmts)
    (hlowered : Stmt.AllLowered G n stmts b b') (h : σ.At n b calls w)
    (hexec : Stmt.execAll inputs enter stmts σ = some (σ', ending)) :
    Arrives G inputs n b' calls w σ' ending := by
  cases stmts with
  | nil =>
    rw [Stmt.execAll] at hexec
    cases hexec
    exact .done (.refl w) (hlowered ▸ h)
  | cons stmt rest =>
    rw [Stmt.execAll] at hexec
    obtain ⟨c, hhead, htail⟩ := hlowered
    exact Arrives.andThen hexec
      (fun heq => Stmt.exec_arrives henter hwithin.1 hsteady.1 hapart.1 hhead h heq)
      fun h₁ heq => Stmt.execAll_arrives henter hwithin.2 hsteady.2 hapart.2 htail h₁ heq

end

/-! ### Flows -/

/-- What executing the flows of a checked document relies on. -/
structure Program.Executable (p : Program) : Prop where
  within : ∀ flow ∈ p.flows, Stmt.AllWithin (extent p.localCount) flow.body
  steady : ∀ flow ∈ p.flows, Stmt.AllSteady flow.body
  apart : ∀ flow ∈ p.flows, Stmt.AllApart flow.body

theorem execFlow_enters (h : p.Executable) (inputs : Array Float) (depth : Nat) :
    Enters p.toBlocks inputs p.localCount (execFlow inputs p.flows depth) := by
  induction depth with
  | zero =>
    refine ⟨fun hexec _ => ?_⟩
    rw [execFlow] at hexec
    cases hexec
  | succ depth ih =>
    refine ⟨fun {k} {σ} {σ'} {ending} {calls} {w} hexec hat => ?_⟩
    rw [execFlow] at hexec
    split at hexec
    · next flow hk =>
      have hmem : flow ∈ p.flows := List.mem_of_getElem? hk
      exact ⟨flow.span, Stmt.execAll_arrives ih (h.within flow hmem) (h.steady flow hmem)
        (h.apart flow hmem) (p.lowered hk) hat hexec⟩
    · cases hexec

/-- The memory at the start of a run. -/
def Memory.start (outputs : Array Float) (random : Random) : Memory where
  locals := fun _ => 0.0
  outputs := outputs
  tape := .start random

/-- A walk from the entry ends as executing the first flow does: at a continuation point, or with
the outputs and the tape that are left. -/
theorem Program.Executable.ends (h : p.Executable) {inputs : Array Float}
    (hexec : execFlow inputs p.flows depth 0 (.start outputs random) = some (σ', ending)) :
    ∃ k signal w', Walk.Runs p.toBlocks inputs true k (.start p.toBlocks outputs random) signal w' ∧
      if ending = .paused then ∃ point, signal = .pause point
      else signal = .halt ∧ w'.outputs = σ'.outputs ∧ w'.tape = σ'.tape := by
  have hstart : (Memory.start outputs random).At p.localCount (p.toBlocks.block 0) []
      (.start p.toBlocks outputs random) := ⟨rfl, rfl, fun _ _ => rfl, rfl, rfl⟩
  obtain ⟨span, harrives⟩ := (execFlow_enters h inputs depth).arrives hexec hstart
  by_cases hfinal : ending.isFinal = true
  · cases harrives with
    | done | left => cases hfinal
    | halted hruns houtputs htape => exact ⟨_, _, _, hruns, rfl, houtputs, htape⟩
    | paused hruns => exact ⟨_, _, _, hruns, _, rfl⟩
  · obtain ⟨span', w₁, hreach, h₁⟩ := harrives.returned hfinal
    have hstop : Walk.Runs p.toBlocks inputs true 1 w₁ .halt w₁ := by
      obtain ⟨block, calls, locals, outputs, tape⟩ := w₁
      obtain ⟨rfl, rfl, hlocals, rfl, rfl⟩ := h₁
      exact .stop rfl fun _ _ => Signal.noConfusion
    obtain ⟨k, hruns⟩ := hreach.run hstop
    have hne : ending ≠ .paused := fun hpaused => hfinal (hpaused ▸ rfl)
    exact ⟨k, .halt, w₁, hruns, if_neg hne ▸ ⟨rfl, h₁.outputs, h₁.tape⟩⟩

/-- Executing the first flow leaves a memory and does not come to a continuation point. -/
structure Program.Leaves (p : Program) (inputs outputs : Array Float) (random : Random)
    (depth : Nat) (σ : Memory) (ending : Ending) : Prop where
  exec : execFlow inputs p.flows depth 0 (.start outputs random) = some (σ, ending)
  ending : ending ≠ .paused

/-- A walk from the entry ends with the outputs that executing the first flow leaves. -/
theorem Program.Executable.run (h : p.Executable) {inputs : Array Float}
    (hexec : p.Leaves inputs outputs random depth σ' ending) :
    ∃ k w', Walk.Runs p.toBlocks inputs true k (.start p.toBlocks outputs random) .halt w' ∧
      w'.outputs = σ'.outputs ∧ w'.random = σ'.random := by
  obtain ⟨k, signal, w', hruns, hends⟩ := h.ends hexec.exec
  rw [if_neg hexec.ending] at hends
  obtain ⟨rfl, houtputs, htape⟩ := hends
  exact ⟨k, w', hruns, houtputs, congrArg Tape.random htape⟩

end

end Typed

end Behavior
