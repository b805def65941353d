import Behavior.Proofs.Bits
import Behavior.Proofs.Extent
import Behavior.Proofs.Instructions
import Behavior.Proofs.Placement
import Behavior.Proofs.Safety

/-!
Running the code of a block graph is walking through the graph.
-/

namespace Behavior

variable {m : Model} {g : BlockGraph} {points : Array Typed.Point} {inputs : Array Float}
  {s : Machine}
variable {skipWaits : Bool} {signal : Signal} {seconds : Float} {e : Scalar} {locals : Nat → Float}

/-! ## Instructions of the machine -/

namespace Machine

variable {f : Fitness m} {t s : Machine} {op : Opcode} {operand : Nat}

section

variable {s t : Machine} {word : Word} {limit fuel : Nat} (hw : m.code[s.ip]? = some word)

include hw

theorem run_of_next (h : s.step m inputs word = .next t) (skipWaits : Bool) :
    s.run m inputs limit skipWaits (fuel + 1) = t.run m inputs limit skipWaits fuel := by
  rw [run, hw]
  simp only [h]

theorem run_of_wait (h : s.step m inputs word = .stop (.wait seconds) t) (skipWaits : Bool) :
    s.run m inputs limit skipWaits (fuel + 1) =
      if skipWaits then t.run m inputs limit skipWaits fuel
      else .stopped (.wait seconds) t fuel := by
  rw [run, hw]
  simp only [h]

theorem run_of_stop (h : s.step m inputs word = .stop signal t)
    (hwait : ∀ seconds, signal = .wait seconds → skipWaits = false) :
    s.run m inputs limit skipWaits (fuel + 1) = .stopped signal t fuel := by
  cases signal with
  | wait seconds =>
    rw [run_of_wait hw h, hwait seconds rfl]
    rfl
  | halt | pause point =>
    rw [run, hw]
    simp only [h]

end

/-- A number of instructions, none of which stops the machine, with the numbers drawn before and
after them. -/
inductive Steps (m : Model) (inputs : Array Float) :
    Nat → List Float → Machine → List Float → Machine → Prop
  | refl (xs : List Float) (s : Machine) : Steps m inputs 0 xs s xs s
  | step {s t u : Machine} {word : Word} {n : Nat} {xs ys : List Float} :
      m.code[s.ip]? = some word → s.step m inputs word = .next t →
      Steps m inputs n (xs ++ s.drawn word) t ys u → Steps m inputs (n + 1) xs s ys u

namespace Steps

variable {s t u : Machine} {k n : Nat} {xs ys zs : List Float}

theorem trans (h : Steps m inputs k xs s ys t) (h' : Steps m inputs n ys t zs u) :
    Steps m inputs (k + n) xs s zs u := by
  induction h with
  | refl xs s => rwa [Nat.zero_add]
  | step hw hs _ ih =>
    rw [Nat.add_right_comm]
    exact .step hw hs (ih h')

theorem safe {f : Fitness m} (h : Steps m inputs n xs s ys t) (hs : s.Safe f)
    (hi : inputs.size = m.inputSize) : t.Safe f := by
  induction h with
  | refl xs s => exact hs
  | step hw hnext _ ih =>
    obtain ⟨word, hword, hsafe⟩ := hs.step hi
    rw [hw] at hword
    cases hword
    rw [hnext] at hsafe
    exact ih hsafe

/-- A run that stops comes past every machine that its instructions lead to. -/
theorem run_stopped {limit fuel rest : Nat} (h : Steps m inputs n xs s ys t)
    (hrun : s.run m inputs limit skipWaits fuel = .stopped signal u rest) :
    ∃ fuel', fuel = fuel' + n ∧
      t.run m inputs limit skipWaits fuel' = .stopped signal u rest := by
  induction h generalizing fuel with
  | refl xs s => exact ⟨fuel, rfl, hrun⟩
  | step hw hs _ ih =>
    cases fuel with
    | zero =>
      rw [Machine.run, hw] at hrun
      cases hrun
    | succ fuel =>
      rw [Machine.run, hw] at hrun
      dsimp only at hrun
      rw [hs] at hrun
      obtain ⟨fuel', rfl, hrun'⟩ := ih hrun
      exact ⟨fuel', rfl, hrun'⟩

theorem run_eq (h : Steps m inputs n xs s ys t) (limit fuel : Nat) (skipWaits : Bool) :
    s.run m inputs limit skipWaits (fuel + n) = t.run m inputs limit skipWaits fuel := by
  induction h with
  | refl xs s => rfl
  | step hw hs _ ih => rw [← ih, ← Nat.add_assoc, run_of_next hw hs]

theorem eq_of_zero (h : Steps m inputs 0 xs s ys t) : ys = xs ∧ t = s := by
  cases h
  exact ⟨rfl, rfl⟩

/-- What a run draws, cut after its first instructions. -/
theorem draws_eq (h : Steps m inputs n xs s ys t) (skipWaits : Bool) (fuel : Nat) :
    xs ++ s.draws m inputs skipWaits (fuel + n) = ys ++ t.draws m inputs skipWaits fuel := by
  induction h with
  | refl xs s => rfl
  | step hw hs _ ih =>
    rw [← ih, ← Nat.add_assoc, Machine.draws, hw, List.append_assoc]
    simp only [hs]

end Steps

section

variable {s t : Machine} {word : Word} (hw : m.code[s.ip]? = some word) (hdrawn : s.drawn word = [])

include hw hdrawn

/-- A run that stops draws nothing more. -/
theorem draws_of_stop (h : s.step m inputs word = .stop signal t)
    (hwait : skipWaits = true → ∀ seconds, signal ≠ .wait seconds) (fuel : Nat) :
    s.draws m inputs skipWaits (fuel + 1) = [] := by
  rw [draws, hw]
  dsimp only
  rw [h]
  cases signal with
  | wait seconds =>
    have hskip : ¬ skipWaits = true := fun hskip => hwait hskip seconds rfl
    dsimp only
    rw [hdrawn, if_neg hskip, List.append_nil]
  | halt | pause point => exact hdrawn

theorem draws_of_wait (h : s.step m inputs word = .stop (.wait seconds) t) (fuel : Nat) :
    s.draws m inputs true (fuel + 1) = t.draws m inputs true fuel := by
  rw [draws, hw]
  simp only [h, hdrawn, List.nil_append, if_true]

end

/-- A condition whose failure is a fault. -/
theorem holds_of_safe {c : Prop} [Decidable c] {r : Reaction} {fault : Fault}
    (h : (if c then r else .fault fault t).Safe f) : c := by
  by_cases hc : c
  · exact hc
  · rw [if_neg hc] at h
    exact absurd h id

/-- Pushing onto the stack of a machine that has room for it. -/
theorem push_of_safe {value : Float} (h : (push m s value).Safe f) :
    push m s value = .next { s with stack := value :: s.stack, ip := s.ip + 1 } := by
  unfold push at h ⊢
  rw [if_pos (holds_of_safe h)]

theorem load_of_safe {vector : Array Float} {index : Nat} (h : (load m s vector index).Safe f) :
    ∃ value, vector[index]? = some value ∧
      load m s vector index = .next { s with stack := value :: s.stack, ip := s.ip + 1 } := by
  unfold load at h ⊢
  split at h
  · next value hv => exact ⟨value, hv, push_of_safe h⟩
  · exact absurd h id

/-- What the check allows an instruction to do, from its word. -/
theorem Safe.execute (hs : s.Safe f) (hi : inputs.size = m.inputSize)
    (hw : m.code[s.ip]? = some (Word.encode op operand)) (hop : operand ≤ Word.maxOperand) :
    (s.execute m inputs op operand).Safe f := by
  obtain ⟨word, hword, hsafe⟩ := hs.step hi
  rw [hw] at hword
  cases hword
  rw [Machine.step, Word.opcode?_encode op hop] at hsafe
  dsimp only at hsafe
  rwa [Word.operand_encode op hop] at hsafe

theorem step_of_encode (hop : operand ≤ Word.maxOperand) :
    s.step m inputs (Word.encode op operand) = s.execute m inputs op operand := by
  rw [Machine.step, Word.opcode?_encode op hop]
  dsimp only
  rw [Word.operand_encode op hop]

theorem drawn_of_ne (hop : operand ≤ Word.maxOperand) (hop' : op ≠ .random) :
    s.drawn (Word.encode op operand) = [] := by
  rw [drawn, Word.opcode?_encode op hop]
  exact if_neg fun h => hop' (Option.some.inj h)

/-- One instruction that draws nothing, from its word. -/
theorem Steps.single {xs : List Float} (hw : m.code[s.ip]? = some (Word.encode op operand))
    (hop : operand ≤ Word.maxOperand) (hop' : op ≠ .random)
    (h : s.execute m inputs op operand = .next t) :
    Steps m inputs 1 xs s xs t := by
  refine .step hw ((step_of_encode hop).trans h) ?_
  rw [drawn_of_ne hop hop', List.append_nil]
  exact .refl xs t

/-- The instruction that draws a number. -/
theorem Steps.random {xs : List Float} (hw : m.code[s.ip]? = some (Word.encode .random 0))
    (h : s.execute m inputs .random 0 = .next t) :
    Steps m inputs 1 xs s (xs ++ [s.random.next.1]) t := by
  have hdrawn : s.drawn (Word.encode .random 0) = [s.random.next.1] := by
    rw [drawn, Word.opcode?_encode .random (Nat.zero_le _)]
    exact if_pos rfl
  refine .step hw ((step_of_encode (Nat.zero_le _)).trans h) ?_
  rw [hdrawn]
  exact .refl _ t

end Machine

/-! ## The emitted code in a model -/

open Assembly in
/-- A model with the code of a block graph. -/
structure Assembled (m : Model) (g : BlockGraph) (points : Array Typed.Point) where
  /-- What has been emitted. -/
  emitted : Assembly.State
  size_le : emitted.code.size ≤ Word.maxOperand
  constants_le : emitted.constants.size ≤ Word.maxOperand
  points_le : emitted.points.size ≤ Word.maxOperand
  word : ∀ {i : Nat} {w : Word}, emitted.code[i]? = some (.word w) → m.code[i]? = some w
  link : ∀ {i b : Nat} {op : Opcode}, emitted.code[i]? = some (.toBlock op b) →
    ∃ start rest, m.code[i]? = some (Word.encode op start) ∧ start ≤ Word.maxOperand ∧
      b :: rest <:+ g.layout ∧ LayoutAt emitted g points start (b :: rest)
  constants : m.constants = emitted.constants
  point : ∀ {i : Nat} {p : PlacedPoint}, emitted.points[i]? = some p →
    ∃ q rest, m.points[i]? = some q ∧ q.name = p.point.name ∧
      q.timeoutMs = p.point.timeoutMs.toUInt32 ∧ p.defaultBlock :: rest <:+ g.layout ∧
      LayoutAt emitted g points q.defaultOffset.toNat (p.defaultBlock :: rest)
  entry : ∃ rest, BlockGraph.entry :: rest <:+ g.layout ∧
    LayoutAt emitted g points m.entry.toNat (BlockGraph.entry :: rest)

namespace Assembly

variable {starts : Array (Option Nat)}
variable {stringCount : Nat} {a : Assembly}

theorem checkTable_ok {table : TableKind} {size : Nat} (h : checkTable table size = .ok ()) :
    size ≤ Word.maxOperand := by
  unfold checkTable at h
  split at h
  · assumption
  · cases h

theorem startOf_ok {b start : Nat} (h : startOf starts b = .ok start) :
    starts[b]? = some (some start) := by
  unfold startOf at h
  split at h
  · next start' hs =>
    cases h
    rw [Array.getD_eq_getD_getElem?] at hs
    cases hb : starts[b]? with
    | none =>
      rw [hb] at hs
      cases hs
    | some o =>
      rw [hb] at hs
      exact congrArg some hs
  · cases h

theorem resolvePoint_ok {p : PlacedPoint} {q : ContinuationPoint}
    (h : resolvePoint starts p = .ok q) :
    ∃ start, starts[p.defaultBlock]? = some (some start) ∧ q.name = p.point.name ∧
      q.timeoutMs = p.point.timeoutMs.toUInt32 ∧ q.defaultOffset = start.toUInt32 := by
  obtain ⟨start, hstart, h⟩ := bind_eq_ok.1 h
  cases h
  exact ⟨start, startOf_ok hstart, rfl, rfl, rfl⟩

theorem toNat_toUInt32_of_le {n : Nat} (h : n ≤ Word.maxOperand) : n.toUInt32.toNat = n := by
  have : n < 2 ^ 32 := Nat.lt_of_le_of_lt h (by decide)
  exact Nat.mod_eq_of_lt this

/-- What is assembled is what was emitted, once every block has its place. -/
theorem ofBlocks_ok (h : ofBlocks g points stringCount = .ok a) :
    let t := emission g points
    (t.code.size ≤ Word.maxOperand ∧ t.constants.size ≤ Word.maxOperand ∧
      stringCount ≤ Word.maxOperand ∧ t.points.size ≤ Word.maxOperand) ∧
    t.code.mapM (resolveItem t.starts) = .ok a.code ∧ a.constants = t.constants ∧
    t.points.mapM (resolvePoint t.starts) = .ok a.points ∧
    startOf t.starts BlockGraph.entry = .ok a.entry ∧ a.debug = ⟨t.spans, t.flows.reverse⟩ := by
  obtain ⟨⟨⟩, hcode, h⟩ := bind_eq_ok.1 h
  obtain ⟨⟨⟩, hconstants, h⟩ := bind_eq_ok.1 h
  obtain ⟨⟨⟩, hstrings, h⟩ := bind_eq_ok.1 h
  obtain ⟨⟨⟩, hpoints, h⟩ := bind_eq_ok.1 h
  obtain ⟨code, hwords, h⟩ := bind_eq_ok.1 h
  obtain ⟨placed, hplaced, h⟩ := bind_eq_ok.1 h
  obtain ⟨entry, hentry, h⟩ := bind_eq_ok.1 h
  cases h
  exact ⟨⟨checkTable_ok hcode, checkTable_ok hconstants, checkTable_ok hstrings,
    checkTable_ok hpoints⟩, hwords, rfl, hplaced, hentry, rfl⟩

/-- Assembling a graph leaves its code in the tables. -/
theorem ofBlocks_assembled (h : ofBlocks g points stringCount = .ok a) (hcode : m.code = a.code)
    (hconstants : m.constants = a.constants) (hpoints : m.points = a.points)
    (hentry : m.entry = a.entry.toUInt32) : Nonempty (Assembled m g points) := by
  let t := emission g points
  obtain ⟨⟨hsize, hconstants_size, -, hpoints_size⟩, hwords, heq, hplaced, hstart, -⟩ :=
    ofBlocks_ok h
  obtain ⟨-, -, -, hstarts⟩ := emitBlocks_placed g points g.layout
    { starts := Array.replicate g.blocks.size none }
  -- No block had a start before.
  have hlayout : ∀ {b start : Nat}, t.starts[b]? = some (some start) →
      start ≤ Word.maxOperand ∧
        ∃ rest, b :: rest <:+ g.layout ∧ LayoutAt t g points start (b :: rest) := by
    intro b start hb
    rcases hstarts b start hb with hnone | ⟨hle, hat⟩
    · have hlt := (Array.getElem?_eq_some_iff.1 hnone).1
      rw [Array.getElem?_eq_getElem hlt, Array.getElem_replicate] at hnone
      cases hnone
    · exact ⟨Nat.le_trans hle hsize, hat⟩
  refine ⟨⟨t, hsize, hconstants_size, hpoints_size, ?_, ?_, hconstants.trans heq, ?_, ?_⟩⟩
  · intro i w hw
    obtain ⟨w', hw', hresolve⟩ := mapM_array_getElem? hwords hw
    cases hresolve
    rw [hcode]
    exact hw'
  · intro i b op hlink
    obtain ⟨w, hw, hresolve⟩ := mapM_array_getElem? hwords hlink
    obtain ⟨start, hb, hresolve⟩ := bind_eq_ok.1 hresolve
    cases hresolve
    obtain ⟨hle, rest, hat⟩ := hlayout (startOf_ok hb)
    rw [hcode]
    exact ⟨start, rest, hw, hle, hat⟩
  · intro i p hp
    obtain ⟨q, hq, hresolve⟩ := mapM_array_getElem? hplaced hp
    obtain ⟨start, hb, hname, htimeout, hdefault⟩ := resolvePoint_ok hresolve
    obtain ⟨hle, rest, hsuffix, hat⟩ := hlayout hb
    refine ⟨q, rest, ?_, hname, htimeout, hsuffix, ?_⟩
    · rw [hpoints]
      exact hq
    · rw [hdefault, toNat_toUInt32_of_le hle]
      exact hat
  · obtain ⟨hle, rest, hsuffix, hat⟩ := hlayout (startOf_ok hstart)
    refine ⟨rest, hsuffix, ?_⟩
    rw [hentry, toNat_toUInt32_of_le hle]
    exact hat

end Assembly

/-! ## Expressions -/

/-- The machine after code of the given length that has pushed a value. -/
def Machine.pushed (s : Machine) (length : Nat) (value : Float × Tape) : Machine :=
  { s with ip := s.ip + length, stack := value.1 :: s.stack, random := value.2.random }

theorem Assembly.ScalarAt.stop_le {t : Assembly.State} {pos : Nat} (h : ScalarAt t pos e) :
    pos + e.codeSize ≤ t.code.size := by
  have hlt : ∀ {i : Nat} {item : Item}, t.code[i]? = some item → i + 1 ≤ t.code.size :=
    fun hi => (Array.getElem?_eq_some_iff.1 hi).1
  induction e generalizing pos with
  | const x =>
    obtain ⟨i, -, hw⟩ := h
    exact hlt hw
  | inputSlot slot | localSlot slot | random => exact hlt h
  | unary f a iha => exact hlt h.2
  | binary f a b iha ihb =>
    have := hlt h.2.2
    simp only [Scalar.codeSize]
    omega
  | ternary f a b c iha ihb ihc =>
    have := hlt h.2.2.2
    simp only [Scalar.codeSize]
    omega
  | select c a b ihc iha ihb =>
    have := ihb h.2.2.2.2
    simp only [Scalar.codeSize]
    omega

/-- Locals of a machine and of a walk; the machine has no more than it declares. -/
def LocalsAgree (array : Array Float) (locals : Nat → Float) : Prop :=
  ∀ {i : Nat} {v : Float}, array[i]? = some v → locals i = v

section

variable {length dest : Nat} {value : Float × Tape} {xs : List Float}
  (hdest : dest ≤ Word.maxOperand)

include hdest

/-- A conditional jump pops its condition. -/
theorem Machine.Steps.jumpIfFalse
    (hw : m.code[s.ip + length]? = some (Word.encode .jumpIfFalse dest)) :
    Steps m inputs 1 xs (s.pushed length value) xs
      { s with
        ip := if truthy value.1 then s.ip + length + 1 else dest
        random := value.2.random } := by
  refine .single hw hdest Opcode.noConfusion ?_
  simp only [execute, jumpIf, pop, pushed, advance]
  by_cases ht : truthy value.1 <;> simp [ht]

theorem Machine.Steps.jumpIfTrue
    (hw : m.code[s.ip + length]? = some (Word.encode .jumpIfTrue dest)) :
    Steps m inputs 1 xs (s.pushed length value) xs
      { s with
        ip := if truthy value.1 then dest else s.ip + length + 1
        random := value.2.random } := by
  refine .single hw hdest Opcode.noConfusion ?_
  simp only [execute, jumpIf, pop, pushed, advance]
  by_cases ht : truthy value.1 <;> simp [ht]

end

open Machine Assembly in
/-- The code of an expression pushes its value and draws what the expression does. -/
theorem Assembled.eval_scalar (A : Assembled m g points) {x : Extent} (hx : x.Encodable)
    {f : Fitness m} (hi : inputs.size = m.inputSize) (he : e.Within x) (hs : s.Safe f)
    (h : ScalarAt A.emitted s.ip e) (hl : LocalsAgree s.locals locals) {tape : Tape}
    (ht : tape.random = s.random) :
    Steps m inputs (e.cost inputs locals tape) tape.drawn s (e.eval inputs locals tape).2.drawn
      (s.pushed e.codeSize (e.eval inputs locals tape)) := by
  have hzero : 0 ≤ Word.maxOperand := Nat.zero_le _
  induction e generalizing s tape with
  | const v =>
    obtain ⟨i, hv, hw⟩ := h
    have hile : i ≤ Word.maxOperand :=
      Nat.le_trans (Nat.le_of_lt (Array.getElem?_eq_some_iff.1 hv).1) A.constants_le
    have hsafe := hs.execute hi (A.word hw) hile
    refine .single (A.word hw) hile Opcode.noConfusion ?_
    rw [← A.constants] at hv
    simp only [execute, hv] at hsafe ⊢
    rw [push_of_safe hsafe, Constant.value_ofFloat, pushed, Scalar.eval, ht]
    rfl
  | inputSlot slot =>
    have hop : slot ≤ Word.maxOperand := Nat.le_trans (Nat.le_of_lt he) hx.inputs
    obtain ⟨v, hv, hload⟩ := load_of_safe (hs.execute hi (A.word h) hop)
    refine .single (A.word h) hop Opcode.noConfusion ?_
    rw [execute, hload, pushed, Scalar.eval, Array.getD_eq_getD_getElem?, hv, ht]
    rfl
  | localSlot slot =>
    have hop : slot ≤ Word.maxOperand := Nat.le_trans (Nat.le_of_lt he) hx.locals
    obtain ⟨v, hv, hload⟩ := load_of_safe (hs.execute hi (A.word h) hop)
    refine .single (A.word h) hop Opcode.noConfusion ?_
    rw [execute, hload, pushed, Scalar.eval, hl hv, ht]
    rfl
  | random =>
    have hsafe := hs.execute hi (A.word h) hzero
    rw [Scalar.eval, Tape.next, ht]
    refine .random (A.word h) ?_
    obtain ⟨value, random, hdraw⟩ : ∃ value random, s.random.next = (value, random) :=
      ⟨_, _, rfl⟩
    simp only [execute, hdraw, pushed] at hsafe ⊢
    exact push_of_safe hsafe
  | unary fn a iha =>
    have ha := iha he hs h.1 hl ht
    have hsafe := (ha.safe hs hi).execute hi (A.word h.2) hzero
    refine ha.trans (.single (A.word h.2) hzero Opcode.noConfusion ?_)
    simp only [execute, pop, pushed] at hsafe ⊢
    exact push_of_safe hsafe
  | binary fn a b iha ihb =>
    obtain ⟨hat, hbt, hw⟩ := h
    have ha := iha he.1 hs hat hl ht
    have hab := ha.trans (ihb he.2 (ha.safe hs hi) hbt hl rfl)
    have hsafe := (hab.safe hs hi).execute hi (A.word hw) hzero
    refine hab.trans (.single (A.word hw) hzero Opcode.noConfusion ?_)
    simp only [execute, pop, pushed] at hsafe ⊢
    rw [push_of_safe hsafe]
    simp only [Scalar.eval, Scalar.codeSize, Nat.add_assoc]
  | ternary fn a b c iha ihb ihc =>
    obtain ⟨hat, hbt, hct, hw⟩ := h
    have ha := iha he.1 hs hat hl ht
    have hab := ha.trans (ihb he.2.1 (ha.safe hs hi) hbt hl rfl)
    have habc := hab.trans (ihc he.2.2 (hab.safe hs hi) hct hl rfl)
    have hsafe := (habc.safe hs hi).execute hi (A.word hw) hzero
    refine habc.trans (.single (A.word hw) hzero Opcode.noConfusion ?_)
    simp only [execute, pop, pushed] at hsafe ⊢
    rw [push_of_safe hsafe]
    simp only [Scalar.eval, Scalar.codeSize, Nat.add_assoc]
  | select c a b ihc iha ihb =>
    obtain ⟨hc, hif, ha, hjump, hb⟩ := h
    have hstop : s.ip + c.codeSize + a.codeSize + 2 + b.codeSize ≤ Word.maxOperand := by
      have := hb.stop_le
      have := A.size_le
      omega
    have helse : s.ip + c.codeSize + a.codeSize + 2 ≤ Word.maxOperand := by omega
    have hlength : s.ip + (c.codeSize + a.codeSize + b.codeSize + 2) =
        s.ip + c.codeSize + a.codeSize + 2 + b.codeSize := by omega
    have hcond := (ihc he.1 hs hc hl ht).trans (.jumpIfFalse helse (A.word hif))
    have hsafe := hcond.safe hs hi
    by_cases htruthy : truthy (c.eval inputs locals tape).1
    · simp only [if_pos htruthy] at hcond hsafe
      have htaken := hcond.trans (iha he.2.1 hsafe ha hl rfl)
      simp only [Scalar.eval, Scalar.cost, if_pos htruthy]
      refine htaken.trans (.single (A.word hjump) hstop Opcode.noConfusion ?_)
      simp only [execute, pushed, Scalar.codeSize]
      rw [hlength]
    · simp only [if_neg htruthy] at hcond hsafe
      rw [show s.ip + c.codeSize + 1 + a.codeSize + 1 = s.ip + c.codeSize + a.codeSize + 2 by
        omega] at hb
      have hall := hcond.trans (ihb he.2.2 hsafe hb hl rfl)
      simp only [pushed, Scalar.eval, Scalar.cost, Scalar.codeSize, if_neg htruthy] at hall ⊢
      rw [hlength]
      exact hall

/-! ## Steps of the walk -/

/-- What there is of a walk mentions only slots within an extent. -/
structure Walk.Within (x : Extent) (w : Walk) : Prop where
  block : w.block.Within x
  calls : ∀ b ∈ w.calls, b.Within x

namespace Assembled

open Assembly Machine

variable {outer : List (List Nat)} {pos b fuel : Nat} {span : Span} {rest : List (Step × Span)}
variable {offsets ahead : List Nat} {t : Machine}

/-- The code of what is left of a block stands at an offset, and after it comes the code of the
blocks ahead, with which the layout ends. -/
def Stands (A : Assembled m g points) (ahead : List Nat) (pos : Nat) (b : Block) : Prop :=
  ahead <:+ g.layout ∧ ∃ stop, BlockAt A.emitted points ahead.head? pos stop b ∧
    LayoutAt A.emitted g points stop ahead

/-- What is left of the blocks to come back to stands at the return offsets. -/
inductive Returns (A : Assembled m g points) : List (List Nat) → List Block → List Nat → Prop
  | nil : Returns A [] [] []
  | cons {ahead : List Nat} {pos : Nat} {b : Block} {outer : List (List Nat)} {calls : List Block}
      {offsets : List Nat} :
      A.Stands ahead pos b → Returns A outer calls offsets →
      Returns A (ahead :: outer) (b :: calls) (pos :: offsets)

theorem Returns.of_nil {A : Assembled m g points} (h : A.Returns outer [] offsets) :
    offsets = [] := by
  cases h
  rfl

theorem Returns.of_cons {A : Assembled m g points} {b : Block} {calls : List Block}
    (h : A.Returns outer (b :: calls) offsets) :
    ∃ ahead outer' pos offsets', outer = ahead :: outer' ∧ offsets = pos :: offsets' ∧
      A.Stands ahead pos b ∧ A.Returns outer' calls offsets' := by
  cases h with
  | cons hback hrest => exact ⟨_, _, _, _, rfl, rfl, hback, hrest⟩

/-- A machine is where a walk is. -/
structure Follows (A : Assembled m g points) (x : Extent) (site : Site) (w : Walk) (s : Machine) :
    Prop where
  stands : A.Stands site.ahead s.ip w.block
  returns : A.Returns site.outer w.calls s.calls
  stack : s.stack = []
  locals : LocalsAgree s.locals w.locals
  outputs : w.outputs = s.outputs
  random : w.random = s.random
  within : w.Within x

/-- A machine has stopped where a walk has. After a wait it is at the same site; after a pause it
goes on at the default offset. -/
def Stopped (A : Assembled m g points) (x : Extent) (site : Site) :
    Signal → Walk → Signal → Machine → Prop
  | .halt, w, .halt, s => w.outputs = s.outputs ∧ w.random = s.random
  | .wait v, w, .wait v', s => v = v' ∧ A.Follows x site w s
  | .pause point, w, .pause i, s =>
    ∃ p, m.points[i]? = some p ∧ p.name = (points.getD point default).name ∧
      p.timeoutMs = (points.getD point default).timeoutMs.toUInt32 ∧
      ∃ site, A.Follows x site w { s with ip := p.defaultOffset.toNat }
  | _, _, _, _ => False

/-- Instructions for one step of a walk, at most. -/
def pace : Nat :=
  Word.maxOperand + 2

variable {A : Assembled m g points} {x : Extent} {f : Fitness m} {s : Machine} {w : Walk}
  {site : Site}

theorem codeSize_le (h : ScalarAt A.emitted pos e) : e.codeSize ≤ Word.maxOperand :=
  Nat.le_trans (Nat.le_trans (Nat.le_add_left ..) h.stop_le) A.size_le

theorem Follows.cost_le (h : A.Follows x site w s) (inputs : Array Float) (next : Option Nat) :
    w.cost inputs next ≤ pace := by
  obtain ⟨-, stop, ⟨mid, hat, hexitAt⟩, -⟩ := h.stands
  -- the code of an expression leaves time for two more instructions
  have hcost {pos : Nat} {e : Scalar} (he : ScalarAt A.emitted pos e) :
      e.cost inputs w.locals w.tape + 2 ≤ pace :=
    Nat.add_le_add_right (Nat.le_trans (e.cost_le_codeSize ..) (codeSize_le he)) 2
  unfold Walk.cost
  cases hsteps : w.block.steps with
  | nil =>
    cases hexit : w.block.exit with
    | jump b => exact Nat.le_trans (jumpCost_le_one ..) (by decide)
    | branch condition thenBlock elseBlock =>
      rw [hexit] at hexitAt
      have hcondition := hcost hexitAt.1
      have hone := jumpCost_le_one next thenBlock
      simp only [Exit.cost]
      split <;> omega
    | wait seconds b =>
      rw [hexit] at hexitAt
      exact Nat.le_of_succ_le (hcost hexitAt.1)
    | ret | halt | pause point b => exact (by decide : 1 ≤ pace)
  | cons head rest =>
    obtain ⟨step, span⟩ := head
    rw [hsteps] at hat
    obtain ⟨stop, hstep, -⟩ := hat
    cases step with
    | setLocal slot value | setOutput slot value => exact Nat.le_of_succ_le (hcost hstep.1)
    | call b => exact (by decide : 1 ≤ pace)

theorem Stands.ofLayout {rest : List Nat} (hrest : b :: rest <:+ g.layout)
    (h : LayoutAt A.emitted g points pos (b :: rest)) : A.Stands rest pos (g.block b) := by
  obtain ⟨stop, hblock, hlayout⟩ := h
  exact ⟨(List.suffix_cons ..).trans hrest, stop, hblock, hlayout⟩

theorem jumpAt_here {t : State} : JumpAt t (some b) pos pos b := by
  rw [JumpAt, if_pos rfl]

/-- A jump takes an instruction unless the block comes next. -/
theorem jump (s : Machine) {stop : Nat} (hahead : ahead <:+ g.layout)
    (hjump : JumpAt A.emitted ahead.head? s.ip stop b)
    (hlayout : LayoutAt A.emitted g points stop ahead) :
    ∃ rest ip, b :: rest <:+ g.layout ∧
      (∀ xs, Steps m inputs (jumpCost ahead.head? b) xs s xs { s with ip }) ∧
      A.Stands rest ip (g.block b) ∧
      (jumpCost ahead.head? b = 0 → rest.length < ahead.length) := by
  unfold JumpAt at hjump
  unfold jumpCost
  split at hjump
  · next hnext =>
    subst hjump
    rw [if_pos hnext]
    cases ahead with
    | nil => cases hnext
    | cons b' rest =>
      cases hnext
      exact ⟨rest, s.ip, hahead, fun xs => .refl xs s, .ofLayout hahead hlayout,
        fun _ => Nat.lt_succ_self _⟩
  · next hnext =>
    obtain ⟨hlink, -⟩ := hjump
    obtain ⟨start, rest, hw, hle, hrest, hat⟩ := A.link hlink
    rw [if_neg hnext]
    exact ⟨rest, start, hrest, fun _ => .single hw hle Opcode.noConfusion rfl,
      .ofLayout hrest hat, fun h => absurd h (by decide)⟩

/-- Storing a value on both sides. -/
theorem localsAgree_set {array : Array Float} (h : LocalsAgree array locals) (slot : Nat)
    (value : Float) :
    LocalsAgree (array.setIfInBounds slot value) (Function.update locals slot value) := by
  intro i v hv
  rw [Array.getElem?_setIfInBounds] at hv
  by_cases hi : slot = i
  · subst hi
    rw [if_pos rfl] at hv
    split at hv
    · cases hv
      exact Function.update_self ..
    · cases hv
  · rw [if_neg hi] at hv
    rw [Function.update_of_ne (Ne.symm hi)]
    exact h hv

/-- What stands at a machine whose walk is about to take a step of its block, and after it. -/
theorem Follows.stepAt (h : A.Follows x site w s) {st : Step}
    (hsteps : w.block.steps = (st, span) :: rest) :
    let after : Block := { w.block with steps := rest }
    ∃ stop, StepAt A.emitted s.ip stop st ∧ st.Within x ∧ A.Stands site.ahead stop after ∧
      after.Within x := by
  obtain ⟨hahead, stop, ⟨mid, hat, hexit⟩, hlayout⟩ := h.stands
  have hwithin := h.within.block.steps
  rw [hsteps] at hat hwithin
  obtain ⟨next, hst, hrest⟩ := hat
  exact ⟨next, hst, hwithin _ List.mem_cons_self, ⟨hahead, stop, ⟨mid, hrest, hexit⟩, hlayout⟩,
    fun s hs => hwithin s (List.mem_cons_of_mem _ hs), h.within.block.exit⟩

section

variable (hx : x.Encodable) (hg : g.Within x) (hi : inputs.size = m.inputSize) (hs : s.Safe f)
  (h : A.Follows x site w s)
variable {value : Scalar} {slot : Nat}

include hx hi hs h

theorem Follows.setLocal (hsteps : w.block.steps = (.setLocal slot value, span) :: rest) :
    let y := value.eval inputs w.locals w.tape
    ∃ s', Steps m inputs (value.cost inputs w.locals w.tape + 1) w.tape.drawn s y.2.drawn s' ∧
      A.Follows x site
        { w with
          block := { w.block with steps := rest }
          locals := Function.update w.locals slot y.1
          tape := y.2 } s' := by
  intro y
  obtain ⟨-, ⟨hvalue, hword, rfl⟩, ⟨hslot, hv⟩, hstands, hwithin⟩ := h.stepAt hsteps
  have heval := A.eval_scalar hx hi hv hs hvalue h.locals h.random
  have hop : slot ≤ Word.maxOperand := Nat.le_trans (Nat.le_of_lt hslot) hx.locals
  have hsafe := (heval.safe hs hi).execute hi (A.word hword) hop
  simp only [execute, pop, pushed] at hsafe
  refine ⟨{ s with
    ip := s.ip + value.codeSize + 1
    locals := s.locals.setIfInBounds slot y.1
    random := y.2.random }, heval.trans (.single (A.word hword) hop Opcode.noConfusion ?_),
    hstands, h.returns, h.stack, localsAgree_set h.locals _ _, h.outputs, rfl, hwithin,
    h.within.calls⟩
  simp only [execute, pop, pushed]
  exact if_pos (holds_of_safe hsafe)

theorem Follows.setOutput (hsteps : w.block.steps = (.setOutput slot value, span) :: rest) :
    let y := value.eval inputs w.locals w.tape
    ∃ s', Steps m inputs (value.cost inputs w.locals w.tape + 1) w.tape.drawn s y.2.drawn s' ∧
      A.Follows x site
        { w with
          block := { w.block with steps := rest }
          outputs := w.outputs.setIfInBounds slot y.1
          tape := y.2 } s' := by
  intro y
  obtain ⟨-, ⟨hvalue, hword, rfl⟩, ⟨hslot, hv⟩, hstands, hwithin⟩ := h.stepAt hsteps
  have heval := A.eval_scalar hx hi hv hs hvalue h.locals h.random
  have hop : slot ≤ Word.maxOperand := Nat.le_trans (Nat.le_of_lt hslot) hx.outputs
  have hsafe := (heval.safe hs hi).execute hi (A.word hword) hop
  simp only [execute, pop, pushed] at hsafe
  refine ⟨{ s with
    ip := s.ip + value.codeSize + 1
    outputs := s.outputs.setIfInBounds slot y.1
    random := y.2.random }, heval.trans (.single (A.word hword) hop Opcode.noConfusion ?_),
    hstands, h.returns, h.stack, h.locals, by rw [h.outputs], rfl, hwithin, h.within.calls⟩
  simp only [execute, pop, pushed]
  exact if_pos (holds_of_safe hsafe)

omit hx in
include hg in
theorem Follows.call (hsteps : w.block.steps = (.call b, span) :: rest) :
    ∃ ahead s', b :: ahead <:+ g.layout ∧ (∀ xs, Steps m inputs 1 xs s xs s') ∧
      A.Follows x ⟨ahead, site.ahead :: site.outer⟩
        { w with block := g.block b, calls := { w.block with steps := rest } :: w.calls } s' := by
  obtain ⟨-, ⟨hlink, rfl⟩, -, hstands, hwithin⟩ := h.stepAt hsteps
  obtain ⟨start, after, hw, hle, hafter, hstart⟩ := A.link hlink
  have hsafe := hs.execute hi hw hle
  simp only [execute] at hsafe
  refine ⟨after, { s with calls := (s.ip + 1) :: s.calls, ip := start }, hafter,
    fun xs => .single hw hle Opcode.noConfusion ?_, .ofLayout hafter hstart,
    .cons hstands h.returns, h.stack, h.locals, h.outputs, h.random, hg b,
    List.forall_mem_cons.2 ⟨hwithin, h.within.calls⟩⟩
  exact if_pos (holds_of_safe hsafe)

end

/-- What the machine does while the walk takes a step: it takes the instructions of the step, or
stops with the last of them, which draws nothing. -/
def Answers (A : Assembled m g points) (x : Extent) (inputs : Array Float) (site : Site) (w : Walk)
    (s : Machine) : Walk.Reaction → Prop
  | .next v => ∃ site' s', site.Turns g.layout (w.turn inputs) site' ∧
      Steps m inputs (w.cost inputs site.ahead.head?) w.tape.drawn s v.tape.drawn s' ∧
      A.Follows x site' v s' ∧
      (w.cost inputs site.ahead.head? = 0 → site'.ahead.length < site.ahead.length)
  | .stop signal v => ∃ k t word signal' s', w.cost inputs site.ahead.head? = k + 1 ∧
      Steps m inputs k w.tape.drawn s v.tape.drawn t ∧ m.code[t.ip]? = some word ∧
      t.drawn word = [] ∧ t.step m inputs word = .stop signal' s' ∧
      A.Stopped x site signal v signal' s'

/-- The machine goes to a block. -/
theorem Follows.goto (hg : g.Within x) (h : A.Follows x site w s) {ip : Nat} (tape : Tape)
    (hstands : A.Stands ahead ip (g.block b)) :
    A.Follows x ⟨ahead, site.outer⟩ { w with block := g.block b, tape }
      { s with ip, random := tape.random } :=
  ⟨hstands, h.returns, h.stack, h.locals, h.outputs, rfl, hg b, h.within.calls⟩

theorem safe_of_wait {t' : Machine} {word : Word} (ht : t.Safe f) (hi : inputs.size = m.inputSize)
    (hw : m.code[t.ip]? = some word) (hstop : t.step m inputs word = .stop (.wait seconds) t') :
    t'.Safe f := by
  obtain ⟨word', hw', hsafe⟩ := ht.step hi
  rw [hw] at hw'
  cases hw'
  rwa [hstop] at hsafe

section

variable (hx : x.Encodable) (hg : g.Within x) (hi : inputs.size = m.inputSize) (hs : s.Safe f)
  (h : A.Follows x site w s)
variable {limit : Nat}

include hx hg hi hs h

theorem Follows.branch (hsteps : w.block.steps = []) {condition : Scalar}
    {thenBlock elseBlock : Nat} (hexit : w.block.exit = .branch condition thenBlock elseBlock) :
    let y := condition.eval inputs w.locals w.tape
    let b := if truthy y.1 then thenBlock else elseBlock
    ∃ ahead s', b :: ahead <:+ g.layout ∧
      Steps m inputs (w.block.exit.cost inputs w.locals w.tape site.ahead.head?) w.tape.drawn s
        y.2.drawn s' ∧
      A.Follows x ⟨ahead, site.outer⟩ { w with block := g.block b, tape := y.2 } s' := by
  intro y b
  obtain ⟨hahead, stop, ⟨mid, hat, hexitAt⟩, hlayout⟩ := h.stands
  have hwithin := h.within.block.exit
  rw [hsteps] at hat
  rw [hexit] at hexitAt hwithin ⊢
  obtain rfl : mid = s.ip := hat
  obtain ⟨hcond, hlinks⟩ := hexitAt
  have heval := A.eval_scalar hx hi hwithin hs hcond h.locals h.random
  simp only [Exit.cost]
  split at hlinks
  · next hnext =>
    obtain ⟨hlink, rfl⟩ := hlinks
    obtain ⟨start, rest, hw, hle, hrest, hstart⟩ := A.link hlink
    have hsteps := heval.trans (.jumpIfTrue hle hw)
    rw [if_neg fun h => h.2 hnext]
    by_cases ht : truthy y.1
    · simp only [b, y, if_pos ht] at hsteps ⊢
      exact ⟨rest, _, hrest, hsteps, h.goto hg _ (.ofLayout hrest hstart)⟩
    · simp only [b, y, if_neg ht] at hsteps ⊢
      -- the second block comes next
      obtain ⟨rest, hrest⟩ : ∃ rest, site.ahead = elseBlock :: rest := by
        cases hs : site.ahead with
        | nil =>
          rw [hs] at hnext
          cases hnext
        | cons b' rest =>
          rw [hs] at hnext
          cases hnext
          exact ⟨rest, rfl⟩
      rw [hrest] at hahead hlayout
      exact ⟨rest, _, hahead, hsteps, h.goto hg _ (.ofLayout hahead hlayout)⟩
  · next hnext =>
    obtain ⟨hlink, hjump⟩ := hlinks
    obtain ⟨start, rest, hw, hle, hrest, hstart⟩ := A.link hlink
    have hsteps := heval.trans (.jumpIfFalse hle hw)
    by_cases ht : truthy y.1
    · rw [if_pos ⟨ht, hnext⟩]
      simp only [b, y, if_pos ht] at hsteps ⊢
      obtain ⟨rest, ip, hrest, hmore, hstands, -⟩ := jump { s with
        ip := s.ip + condition.codeSize + 1
        random := y.2.random } hahead hjump hlayout
      exact ⟨rest, _, hrest, hsteps.trans (hmore _), h.goto hg _ hstands⟩
    · rw [if_neg fun h => ht h.1]
      simp only [b, y, if_neg ht] at hsteps ⊢
      exact ⟨rest, _, hrest, hsteps, h.goto hg _ (.ofLayout hrest hstart)⟩

theorem Follows.leave (hsteps : w.block.steps = []) :
    A.Answers x inputs site w s (w.leave g inputs) := by
  have hzero : 0 ≤ Word.maxOperand := Nat.zero_le _
  obtain ⟨hahead, stop, ⟨mid, hat, hexitAt⟩, hlayout⟩ := h.stands
  have hwithin := h.within.block.exit
  rw [hsteps] at hat
  obtain rfl : mid = s.ip := hat
  have hcost (next : Option Nat) :
      w.cost inputs next = w.block.exit.cost inputs w.locals w.tape next := by
    rw [Walk.cost, hsteps]
  unfold Walk.leave
  cases hexit : w.block.exit with
  | jump b =>
    rw [hexit] at hexitAt
    obtain ⟨rest, ip, hrest, hjump, hstands, hless⟩ := jump s hahead hexitAt hlayout
    have hfollows := h.goto hg w.tape hstands
    rw [show w.tape.random = s.random from h.random] at hfollows
    have hturns : site.Turns g.layout (w.turn inputs) ⟨rest, site.outer⟩ := by
      simp only [Walk.turn, hsteps, hexit]
      exact ⟨hrest, rfl⟩
    refine ⟨⟨rest, site.outer⟩, _, hturns, ?_, hfollows, ?_⟩
    · rw [hcost, hexit]
      exact hjump _
    · rw [hcost, hexit]
      exact hless
  | branch condition thenBlock elseBlock =>
    obtain ⟨rest, s', hrest, hbranch, hfollows⟩ := h.branch hx hg hi hs hsteps hexit
    have hturns : site.Turns g.layout (w.turn inputs) ⟨rest, site.outer⟩ := by
      simp only [Walk.turn, hsteps, hexit]
      exact ⟨hrest, rfl⟩
    refine ⟨⟨rest, site.outer⟩, s', hturns, ?_, hfollows, ?_⟩
    · rw [hcost]
      exact hbranch
    · rw [hcost, hexit, Exit.cost]
      omega
  | ret =>
    rw [hexit] at hexitAt hcost
    have hw := A.word hexitAt.1
    have hreturns := h.returns
    cases hcalls : w.calls with
    | nil =>
      rw [hcalls] at hreturns
      refine ⟨0, s, _, .halt, s.advance, hcost _, .refl _ s, hw,
        drawn_of_ne hzero Opcode.noConfusion, ?_, h.outputs, h.random⟩
      rw [step_of_encode hzero]
      simp only [execute, hreturns.of_nil]
    | cons back rest =>
      have hwithin_calls := h.within.calls
      rw [hcalls] at hreturns hwithin_calls
      obtain ⟨ahead, outer, ip, offsets, houter, hoffsets, hback, hrest⟩ := hreturns.of_cons
      have hturns : site.Turns g.layout (w.turn inputs) ⟨ahead, outer⟩ := by
        simp only [Walk.turn, hsteps, hexit]
        exact houter
      refine ⟨⟨ahead, outer⟩, { s with calls := offsets, ip }, hturns, ?_,
        ⟨hback, hrest, h.stack, h.locals, h.outputs, h.random,
          hwithin_calls _ List.mem_cons_self,
          fun b hb => hwithin_calls b (List.mem_cons_of_mem _ hb)⟩, ?_⟩
      · rw [hcost]
        refine .single hw hzero Opcode.noConfusion ?_
        simp only [execute, hoffsets]
      · rw [hcost]
        exact fun h => absurd h Nat.one_ne_zero
  | halt =>
    rw [hexit] at hexitAt hcost
    refine ⟨0, s, _, .halt, s.advance, hcost _, .refl _ s, A.word hexitAt.1,
      drawn_of_ne hzero Opcode.noConfusion, ?_, h.outputs, h.random⟩
    rw [step_of_encode hzero]
    rfl
  | wait seconds next =>
    rw [hexit] at hexitAt hwithin hcost
    obtain ⟨hseconds, hword, hjump⟩ := hexitAt
    refine ⟨_, _, _, .wait (seconds.eval inputs w.locals w.tape).1, { s with
      ip := s.ip + seconds.codeSize + 1
      random := (seconds.eval inputs w.locals w.tape).2.random }, hcost _,
      A.eval_scalar hx hi hwithin hs hseconds h.locals h.random, A.word hword,
      drawn_of_ne hzero Opcode.noConfusion, ?_, rfl, ?_⟩
    · rw [step_of_encode hzero]
      rfl
    · exact ⟨⟨hahead, stop, ⟨_, rfl, hjump⟩, hlayout⟩, h.returns, h.stack, h.locals, h.outputs,
        rfl, ⟨fun _ hs => absurd hs List.not_mem_nil, trivial⟩, h.within.calls⟩
  | pause point defaultBlock =>
    rw [hexit] at hexitAt hcost
    obtain ⟨i, hword, hpoint, -⟩ := hexitAt
    have hile : i ≤ Word.maxOperand :=
      Nat.le_trans (Nat.le_of_lt (Array.getElem?_eq_some_iff.1 hpoint).1) A.points_le
    obtain ⟨q, rest, hq, hname, htimeout, hrest, hstart⟩ := A.point hpoint
    refine ⟨0, s, _, .pause i, s.advance, hcost _, .refl _ s, A.word hword,
      drawn_of_ne hile Opcode.noConfusion, ?_, q, hq, hname, htimeout,
      ⟨defaultBlock :: rest, site.outer⟩, ?_⟩
    · rw [step_of_encode hile]
      rfl
    -- The default block stands at the default offset, so nothing is to be done to jump there.
    · exact ⟨⟨hrest, q.defaultOffset.toNat, ⟨_, rfl, jumpAt_here⟩, hstart⟩, h.returns, h.stack,
        h.locals, h.outputs, h.random, ⟨fun _ hs => absurd hs List.not_mem_nil, trivial⟩,
        h.within.calls⟩

/-- Whatever the walk does next, the machine does it as well. -/
theorem Follows.step : A.Answers x inputs site w s (w.step g inputs) := by
  unfold Walk.step
  split
  · next hsteps => exact h.leave hx hg hi hs hsteps
  · next slot value span rest hsteps =>
    obtain ⟨s', hset, hfollows⟩ := h.setLocal hx hi hs hsteps
    refine ⟨site, s', ?_, ?_, hfollows, ?_⟩
    · rw [Walk.turn, hsteps]
      rfl
    all_goals rw [Walk.cost, hsteps]
    · exact hset
    · exact fun h => absurd h (Nat.succ_ne_zero _)
  · next slot value span rest hsteps =>
    obtain ⟨s', hset, hfollows⟩ := h.setOutput hx hi hs hsteps
    refine ⟨site, s', ?_, ?_, hfollows, ?_⟩
    · rw [Walk.turn, hsteps]
      rfl
    all_goals rw [Walk.cost, hsteps]
    · exact hset
    · exact fun h => absurd h (Nat.succ_ne_zero _)
  · next b span rest hsteps =>
    obtain ⟨ahead, s', hahead, hcall, hfollows⟩ := h.call hg hi hs hsteps
    refine ⟨⟨ahead, site.ahead :: site.outer⟩, s', ?_, ?_, hfollows, ?_⟩
    · rw [Walk.turn, hsteps]
      exact ⟨hahead, rfl⟩
    all_goals rw [Walk.cost, hsteps]
    · exact hcall _
    · exact fun h => absurd h (Nat.succ_ne_zero _)

theorem Follows.answers {r : Walk.Reaction} (hstep : w.step g inputs = r) :
    A.Answers x inputs site w s r :=
  hstep ▸ h.step hx hg hi hs

/-- A run of the machine that stops has a run of the walk behind it, which draws the same numbers.
The induction is on the fuel and, for steps of the walk that take no instruction, on what is left of
the layout. -/
theorem Follows.run {rest : Nat} {signal' : Signal} {s' : Machine}
    (hrun : s.run m inputs limit skipWaits fuel = .stopped signal' s' rest) :
    ∃ k site' signal w', Walk.Runs g inputs skipWaits k w signal w' ∧
      A.Stopped x site' signal w' signal' s' ∧
      w'.tape.drawn = w.tape.drawn ++ s.draws m inputs skipWaits fuel := by
  induction fuel using Nat.strongRecOn generalizing site w s with
  | ind fuel ihfuel =>
    induction hlength : site.ahead.length using Nat.strongRecOn generalizing site w with
    | ind n ihn =>
      cases hstep : w.step g inputs with
      | next v =>
        obtain ⟨site', t, -, hsteps, hfollows, hless⟩ := h.answers hx hg hi hs hstep
        generalize w.cost inputs site.ahead.head? = k at hsteps hless
        obtain ⟨fuel', rfl, hrun'⟩ := hsteps.run_stopped hrun
        rw [hsteps.draws_eq]
        have hsafe := hsteps.safe hs hi
        rcases Nat.eq_zero_or_pos k with rfl | hpos
        · -- the machine stands still, and the walk has come nearer to the end of the layout
          obtain ⟨-, rfl⟩ := hsteps.eq_of_zero
          obtain ⟨k, site', signal, w', hruns, hends⟩ :=
            ihn _ (hlength ▸ hless rfl) hfollows rfl
          exact ⟨k + 1, site', signal, w', .step hstep hruns, hends⟩
        · obtain ⟨k, site', signal, w', hruns, hends⟩ :=
            ihfuel fuel' (Nat.lt_add_of_pos_right hpos) hsafe hfollows hrun'
          exact ⟨k + 1, site', signal, w', .step hstep hruns, hends⟩
      | stop signal v =>
        obtain ⟨k, t, word, signal₁, t', -, hsteps, hw, hdrawn, ht, hstopped⟩ :=
          h.answers hx hg hi hs hstep
        obtain ⟨fuel', rfl, hrun'⟩ := hsteps.run_stopped hrun
        rw [hsteps.draws_eq]
        cases fuel' with
        | zero =>
          rw [Machine.run, hw] at hrun'
          cases hrun'
        | succ fuel' =>
          rw [Machine.run, hw] at hrun'
          dsimp only at hrun'
          rw [ht] at hrun'
          -- unless the walk passes over a wait, both are at the end
          have hends (hwait : skipWaits = true → ∀ seconds, signal₁ ≠ .wait seconds) :
              v.tape.drawn = v.tape.drawn ++ t.draws m inputs skipWaits (fuel' + 1) := by
            rw [draws_of_stop hw hdrawn ht hwait, List.append_nil]
          cases signal with
          | halt =>
            cases signal₁ with
            | halt =>
              cases hrun'
              exact ⟨1, site, _, v, .stop hstep (fun _ _ => Signal.noConfusion), hstopped,
                hends fun _ _ => Signal.noConfusion⟩
            | wait _ | pause _ => exact absurd hstopped id
          | wait seconds =>
            cases signal₁ with
            | halt | pause _ => exact absurd hstopped id
            | wait seconds' =>
              obtain ⟨rfl, hfollows⟩ := hstopped
              dsimp only at hrun'
              cases skipWaits with
              | false =>
                cases hrun'
                exact ⟨1, site, _, v, .stop hstep (fun h => absurd h (by decide)),
                  ⟨rfl, hfollows⟩, hends Bool.noConfusion⟩
              | true =>
                rw [draws_of_wait hw hdrawn ht]
                obtain ⟨k, site', signal, w', hruns, hends⟩ := ihfuel fuel' (by omega)
                  (safe_of_wait (hsteps.safe hs hi) hi hw ht) hfollows hrun'
                exact ⟨k + 1, site', signal, w', .pass rfl hstep hruns, hends⟩
          | pause point =>
            cases signal₁ with
            | halt | wait _ => exact absurd hstopped id
            | pause i =>
              cases hrun'
              exact ⟨1, site, _, v, .stop hstep (fun _ _ => Signal.noConfusion), hstopped,
                hends fun _ _ => Signal.noConfusion⟩

/-! ## Instructions of whole walks -/

/-- A machine that stops has had fuel for all that its walk spends. The induction is on the run. -/
theorem Follows.spends {k : Nat} {w' : Walk} (hruns : Walk.Runs g inputs true k w .halt w')
    {rest : Nat} (hrun : s.run m inputs limit true fuel = .stopped signal t rest) :
    ∃ n ≤ fuel, ∃ entered, Walk.Spends g inputs n entered site w := by
  generalize hhalt : Signal.halt = signal' at hruns
  induction hruns generalizing site s fuel with
  | stop hstep _ =>
    subst hhalt
    exact ⟨1, Nat.lt_of_le_of_lt (Nat.zero_le _) (Machine.fuel_lt_of_run hrun), [], .halt hstep⟩
  | step hstep _ ih =>
    obtain ⟨site', s', hturns, hsteps, hfollows, -⟩ := h.answers hx hg hi hs hstep
    obtain ⟨fuel', rfl, hrun'⟩ := hsteps.run_stopped hrun
    obtain ⟨n, hle, entered, hspends⟩ := ih (hsteps.safe hs hi) hfollows hrun' hhalt
    exact ⟨_, by omega, _, .step hstep hturns hspends⟩
  | pass _ hstep _ ih =>
    obtain ⟨k, t, word, signal₁, t', hcost, hsteps, hw, -, ht, hstopped⟩ :=
      h.answers hx hg hi hs hstep
    obtain ⟨fuel', rfl, hrun'⟩ := hsteps.run_stopped hrun
    cases signal₁ with
    | halt | pause _ => exact hstopped.elim
    | wait seconds =>
      obtain ⟨-, hfollows⟩ := hstopped
      cases fuel' with
      | zero =>
        rw [Machine.run, hw] at hrun'
        cases hrun'
      | succ fuel' =>
        rw [run_of_wait hw ht, if_pos rfl] at hrun'
        obtain ⟨n, hle, entered, hspends⟩ :=
          ih (safe_of_wait (hsteps.safe hs hi) hi hw ht) hfollows hrun' hhalt
        exact ⟨_, by omega, _, .pass hstep hspends⟩

/-- A machine with fuel for all that its walk spends halts. The layout has no repetition, so both go
the same way. -/
theorem Follows.run_of_spends (hnodup : g.layout.Nodup) {n : Nat} {entered : List Nat}
    (hspends : Walk.Spends g inputs n entered site w) (hle : n ≤ fuel) (limit : Nat) :
    ∃ t rest, s.run m inputs limit true fuel = .stopped .halt t rest := by
  induction hspends generalizing s fuel with
  | halt hstep =>
    obtain ⟨k, t, word, signal, t', hcost, hsteps, hw, -, ht, hstopped⟩ :=
      h.answers hx hg hi hs hstep
    obtain rfl : k = 0 := Nat.succ.inj (hcost.symm.trans (Walk.cost_of_halt hstep _))
    obtain ⟨-, rfl⟩ := hsteps.eq_of_zero
    obtain ⟨fuel, rfl⟩ := Nat.exists_eq_add_of_le' hle
    cases signal with
    | halt => exact ⟨t', fuel, run_of_stop hw ht nofun⟩
    | wait _ | pause _ => exact hstopped.elim
  | step hstep hturns _ ih =>
    obtain ⟨site', s', hturns', hsteps, hfollows, -⟩ := h.answers hx hg hi hs hstep
    cases hturns.unique hnodup hturns'
    obtain ⟨fuel, rfl⟩ := Nat.exists_eq_add_of_le' (Nat.le_trans (Nat.le_add_right ..) hle)
    rw [hsteps.run_eq]
    exact ih (hsteps.safe hs hi) hfollows (by omega)
  | pass hstep _ ih =>
    obtain ⟨k, t, word, signal, t', hcost, hsteps, hw, -, ht, hstopped⟩ :=
      h.answers hx hg hi hs hstep
    cases signal with
    | halt | pause _ => exact hstopped.elim
    | wait seconds =>
      obtain ⟨fuel, rfl⟩ := Nat.exists_eq_add_of_le' (show k + 1 ≤ fuel by omega)
      rw [← Nat.add_assoc, Nat.add_right_comm, hsteps.run_eq, run_of_wait hw ht, if_pos rfl]
      exact ih (safe_of_wait (hsteps.safe hs hi) hi hw ht) hstopped.2 (by omega)

end

theorem Follows.start (A : Assembled m g points) (hg : g.Within x) (outputs : Array Float)
    (random : Random) :
    ∃ ahead, BlockGraph.entry :: ahead <:+ g.layout ∧
      A.Follows x ⟨ahead, []⟩ (Walk.start g outputs random)
        { toFrame := Frame.start m random, outputs } := by
  obtain ⟨rest, hrest, hentry⟩ := A.entry
  refine ⟨rest, hrest, .ofLayout hrest hentry, .nil, rfl, ?_, rfl, rfl, hg _, ?_⟩
  · intro i v hv
    obtain ⟨hlt, hv⟩ := Array.getElem?_eq_some_iff.1 hv
    rw [← hv]
    exact (Array.getElem_replicate ..).symm
  · intro b hb
    cases hb

end Assembled

end Behavior
