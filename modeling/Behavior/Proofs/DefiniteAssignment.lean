import Behavior.Proofs.ExposedLocals
import Behavior.Proofs.StackExactness
import Behavior.Proofs.StreamLevels

/-!
Locals are set before they are read.

An offset of the code exposes a local if it may be read from there on while nothing has been stored
to it. Where the blocks of a document expose no local, its code does not either. A machine wants a
local that is exposed at its offset or at one to come back to; an instruction can only add what it
stores to, so whatever a machine wants has been stored before. Locals that it does not want have no
influence on what it does.
-/

namespace Behavior

open StackDepth (Edge Holds)

variable {m : Model}
variable {op : Opcode} {operand b : Nat} {k : Float → Machine → Reaction} {words : List Word}
  {stage : Stage}

/-! ## Exposed locals of code -/

/-- An instruction reads a local, or leads to where it is exposed without a store to it. -/
def Model.Exposes (m : Model) (slot : Nat) (exposed : Nat → Prop) (ip : Nat) : Prop :=
  ∃ op operand, Holds m.code ip op operand ∧ (op = .loadLocal ∧ operand = slot ∨
    ¬ (op = .storeLocal ∧ operand = slot) ∧ ∃ j, Edge m.code m.points ip j ∧ exposed j)

/-- Offsets where locals may be read before they are set. No local is exposed at the entry. -/
structure Exposure (m : Model) where
  exposed : Nat → Nat → Prop
  closed : ∀ {slot ip : Nat}, m.Exposes slot (exposed slot) ip → exposed slot ip
  entry : ∀ slot, ¬ exposed slot m.entry.toNat

/-- A local is exposed at an offset, by reading it after so many instructions at most. -/
def Model.Exposed (m : Model) (slot : Nat) : Nat → Nat → Prop
  | 0, _ => False
  | n + 1, ip => m.Exposes slot (m.Exposed slot n) ip

/-- Whether an instruction reads no local and leads to the next one only. -/
def Opcode.goesOn : Opcode → Bool
  | loadLocal | jump | jumpIfFalse | jumpIfTrue | call | ret | halt | pause => false
  | _ => true

namespace Model

variable {m : Model} {slot n ip : Nat}

theorem exposed_of_le {k : Nat} (hle : k ≤ n) (h : m.Exposed slot k ip) : m.Exposed slot n ip := by
  induction k generalizing n ip with
  | zero => exact h.elim
  | succ k ih =>
    obtain ⟨n, rfl⟩ := Nat.exists_eq_add_of_le' (Nat.lt_of_lt_of_le (Nat.succ_pos k) hle)
    obtain ⟨op, operand, hop, h⟩ := h
    exact ⟨op, operand, hop, h.imp_right fun ⟨hstore, j, hedge, h⟩ =>
      ⟨hstore, j, hedge, ih (Nat.le_of_succ_le_succ hle) h⟩⟩

theorem exposed_of_word (hw : m.code[ip]? = some (.encode op operand))
    (hle : operand ≤ Word.maxOperand) (h : m.Exposed slot n ip) :
    op = .loadLocal ∧ operand = slot ∨ ¬ (op = .storeLocal ∧ operand = slot) ∧ ∃ k < n,
      op.continues = true ∧ m.Exposed slot k (ip + 1) ∨
      op.branches = true ∧ m.Exposed slot k operand ∨
      op = .pause ∧ ∃ p, m.points[operand]? = some p ∧
        m.Exposed slot k p.defaultOffset.toNat := by
  cases n with
  | zero => exact h.elim
  | succ n =>
    have hholds : Holds m.code ip op operand :=
      ⟨_, hw, Word.opcode?_encode op hle, Word.operand_encode op hle⟩
    obtain ⟨_, _, hop, h⟩ := h
    obtain ⟨rfl, rfl⟩ := hholds.unique hop
    refine h.imp_right fun ⟨hstore, j, hedge, hj⟩ => ⟨hstore, n, Nat.lt_succ_self n, ?_⟩
    rcases hholds.edge_iff.1 hedge with ⟨hnext, rfl⟩ | ⟨hbranch, rfl⟩ | ⟨hpause, p, hp, rfl⟩
    · exact .inl ⟨hnext, hj⟩
    · exact .inr (.inl ⟨hbranch, hj⟩)
    · exact .inr (.inr ⟨hpause, p, hp, hj⟩)

theorem exposed_of_next (hw : m.code[ip]? = some (.encode op operand))
    (hle : operand ≤ Word.maxOperand) (hop : op.goesOn = true) (h : m.Exposed slot n ip) :
    ¬ (op = .storeLocal ∧ operand = slot) ∧ m.Exposed slot n (ip + 1) := by
  rcases exposed_of_word hw hle h with ⟨rfl, -⟩ | ⟨hstore, k, hk, ⟨-, h⟩ | ⟨hbranch, -⟩ | ⟨rfl, -⟩⟩
  · cases hop
  · exact ⟨hstore, exposed_of_le (Nat.le_of_lt hk) h⟩
  · cases op with
    | jump | jumpIfFalse | jumpIfTrue | call => cases hop
    | _ => cases hbranch
  · cases hop

end Model

namespace Assembled

open Assembly

variable {m : Model} {g : BlockGraph} {points : Array Typed.Point} {A : Assembled m g points}
  {x : Extent} {slot n pos stop : Nat}
variable {next : Option Nat}

/-- The code of an expression exposes what the expression reads and what is exposed after it. -/
theorem exposed_of_scalar (hx : x.Encodable) {e : Scalar} (he : e.Within x)
    (hat : ScalarAt A.emitted pos e) (h : m.Exposed slot n pos) :
    e.Reads slot ∨ m.Exposed slot n (pos + e.codeSize) := by
  have hzero : 0 ≤ Word.maxOperand := Nat.zero_le _
  induction e generalizing pos with
  | const v =>
    obtain ⟨i, hv, hw⟩ := hat
    have hle : i ≤ Word.maxOperand :=
      Nat.le_trans (Nat.le_of_lt (Array.getElem?_eq_some_iff.1 hv).1) A.constants_le
    exact .inr (Model.exposed_of_next (A.word hw) hle rfl h).2
  | inputSlot i =>
    have hle : i ≤ Word.maxOperand := Nat.le_trans (Nat.le_of_lt he) hx.inputs
    exact .inr (Model.exposed_of_next (A.word hat) hle rfl h).2
  | localSlot i =>
    have hle : i ≤ Word.maxOperand := Nat.le_trans (Nat.le_of_lt he) hx.locals
    rcases Model.exposed_of_word (A.word hat) hle h with
      ⟨-, hread⟩ | ⟨-, k, hk, ⟨-, h⟩ | ⟨⟨⟩, -⟩ | ⟨⟨⟩, -⟩⟩
    · exact .inl hread
    · exact .inr (Model.exposed_of_le (Nat.le_of_lt hk) h)
  | random =>
    exact .inr (Model.exposed_of_next (A.word hat) hzero rfl h).2
  | unary f a iha =>
    refine (iha he hat.1 h).imp_right fun h => ?_
    exact (Model.exposed_of_next (A.word hat.2) hzero rfl h).2
  | binary f a b iha ihb =>
    obtain ⟨hat, hbt, hw⟩ := hat
    rw [Scalar.Reads, or_assoc]
    refine (iha he.1 hat h).imp_right fun h => (ihb he.2 hbt h).imp_right fun h => ?_
    have hnext := (Model.exposed_of_next (A.word hw) hzero rfl h).2
    simpa only [Scalar.codeSize, Nat.add_assoc] using hnext
  | ternary f a b c iha ihb ihc =>
    obtain ⟨hat, hbt, hct, hw⟩ := hat
    rw [Scalar.Reads, or_assoc, or_assoc]
    refine (iha he.1 hat h).imp_right fun h => (ihb he.2.1 hbt h).imp_right fun h =>
      (ihc he.2.2 hct h).imp_right fun h => ?_
    have hnext := (Model.exposed_of_next (A.word hw) hzero rfl h).2
    simpa only [Scalar.codeSize, Nat.add_assoc] using hnext
  | select c a b ihc iha ihb =>
    obtain ⟨hct, hif, hat, hjump, hbt⟩ := hat
    have hstop : pos + c.codeSize + a.codeSize + 2 + b.codeSize ≤ Word.maxOperand := by
      have := hbt.stop_le
      have := A.size_le
      omega
    have helse : pos + c.codeSize + a.codeSize + 2 ≤ Word.maxOperand := by omega
    have hlength : pos + (c.codeSize + a.codeSize + b.codeSize + 2) =
        pos + c.codeSize + a.codeSize + 2 + b.codeSize := by omega
    rw [Scalar.Reads, Scalar.codeSize, hlength, or_assoc, or_assoc]
    refine (ihc he.1 hct h).imp_right fun h => ?_
    rcases Model.exposed_of_word (A.word hif) helse h with
      ⟨⟨⟩, -⟩ | ⟨-, k, hk, ⟨-, h⟩ | ⟨-, h⟩ | ⟨⟨⟩, -⟩⟩
    · -- the first branch ends with a jump over the second
      have h := Model.exposed_of_le (Nat.le_of_lt hk) h
      refine (iha he.2.1 hat h).imp_right fun h => .inr ?_
      rcases Model.exposed_of_word (A.word hjump) hstop h with
        ⟨⟨⟩, -⟩ | ⟨-, k, hk, ⟨⟨⟩, -⟩ | ⟨-, h⟩ | ⟨⟨⟩, -⟩⟩
      exact Model.exposed_of_le (Nat.le_of_lt hk) h
    · have h := Model.exposed_of_le (Nat.le_of_lt hk) h
      rw [show pos + c.codeSize + 1 + a.codeSize + 1 = pos + c.codeSize + a.codeSize + 2 by
        omega] at hbt
      exact .inr (ihb he.2.2 hbt h)

/-- Blocks whose code exposes the local after so many instructions are exposed. -/
def Sees (A : Assembled m g points) (slot n : Nat) (exposed : Nat → Prop) : Prop :=
  ∀ {b start : Nat} {rest : List Nat}, b :: rest <:+ g.layout →
    LayoutAt A.emitted g points start (b :: rest) → m.Exposed slot n start → exposed b

variable {exposed : Nat → Prop}

theorem exposed_of_link (hbefore : ∀ k < n, A.Sees slot k exposed) (hat : LinkAt A.emitted pos op b)
    (hload : op ≠ .loadLocal) (hpause : op ≠ .pause) (h : m.Exposed slot n pos) :
    exposed b ∨ op.continues = true ∧ m.Exposed slot n (pos + 1) := by
  obtain ⟨start, rest, hw, hle, hrest, hlayout⟩ := A.link hat
  rcases Model.exposed_of_word hw hle h with
    ⟨hop, -⟩ | ⟨-, k, hk, ⟨hop, h⟩ | ⟨-, h⟩ | ⟨hop, -⟩⟩
  · exact (hload hop).elim
  · exact .inr ⟨hop, Model.exposed_of_le (Nat.le_of_lt hk) h⟩
  · exact .inl (hbefore k hk hrest hlayout h)
  · exact (hpause hop).elim

theorem exposes_of_steps (hx : x.Encodable) (hbefore : ∀ k < n, A.Sees slot k exposed)
    {steps : List (Step × Span)} (hsteps : ∀ s ∈ steps, s.1.Within x) {after : Prop}
    (hat : StepsAt A.emitted pos stop steps) (hafter : m.Exposed slot n stop → after)
    (h : m.Exposed slot n pos) : exposes slot exposed after steps := by
  induction steps generalizing pos with
  | nil =>
    obtain rfl := hat
    exact hafter h
  | cons s rest ih =>
    obtain ⟨mid, hstep, hrest⟩ := hat
    replace ih := ih (fun s hs => hsteps s (List.mem_cons_of_mem _ hs)) hrest
    have hwithin := hsteps s List.mem_cons_self
    obtain ⟨s, span⟩ := s
    cases s with
    | setLocal i value =>
      obtain ⟨hvalue, hw, rfl⟩ := hstep
      have hle : i ≤ Word.maxOperand := Nat.le_trans (Nat.le_of_lt hwithin.1) hx.locals
      refine (exposed_of_scalar hx hwithin.2 hvalue h).imp_right fun h => ?_
      obtain ⟨hstore, h⟩ := Model.exposed_of_next (A.word hw) hle rfl h
      exact ⟨fun heq => hstore ⟨rfl, heq⟩, ih h⟩
    | setOutput i value =>
      obtain ⟨hvalue, hw, rfl⟩ := hstep
      have hle : i ≤ Word.maxOperand := Nat.le_trans (Nat.le_of_lt hwithin.1) hx.outputs
      refine (exposed_of_scalar hx hwithin.2 hvalue h).imp_right fun h => ih ?_
      exact (Model.exposed_of_next (A.word hw) hle rfl h).2
    | call b =>
      obtain ⟨hlink, rfl⟩ := hstep
      refine (exposed_of_link hbefore hlink Opcode.noConfusion Opcode.noConfusion h).imp_right ?_
      exact fun h => ih h.2

/-- A jump exposes what its block does, also if there is nothing in between. -/
theorem exposed_of_jumpAt (hbefore : ∀ k < n, A.Sees slot k exposed)
    (hnext : ∀ b, next = some b → m.Exposed slot n stop → exposed b)
    (hat : JumpAt A.emitted next pos stop b) (h : m.Exposed slot n pos) : exposed b := by
  unfold JumpAt at hat
  split at hat
  · next heq =>
    subst hat
    exact hnext b heq h
  · rcases exposed_of_link hbefore hat.1 Opcode.noConfusion Opcode.noConfusion h with h | ⟨⟨⟩, -⟩
    exact h

theorem exposes_of_exit (hx : x.Encodable) (hbefore : ∀ k < n, A.Sees slot k exposed) {exit : Exit}
    (hexit : exit.Within x) (hnext : ∀ b, next = some b → m.Exposed slot n stop → exposed b)
    (hat : ExitAt A.emitted points next pos stop exit) (h : m.Exposed slot n pos) :
    exit.Exposes slot exposed := by
  have hzero : 0 ≤ Word.maxOperand := Nat.zero_le _
  cases exit with
  | jump b => exact .inr ⟨b, List.mem_cons_self, exposed_of_jumpAt hbefore hnext hat h⟩
  | branch condition i j =>
    obtain ⟨hcondition, hat⟩ := hat
    refine (exposed_of_scalar hx hexit hcondition h).imp (fun hread => ⟨_, rfl, hread⟩) fun h => ?_
    split at hat
    · next heq =>
      obtain ⟨hlink, rfl⟩ := hat
      rcases exposed_of_link hbefore hlink Opcode.noConfusion Opcode.noConfusion h with h | ⟨-, h⟩
      · exact ⟨i, List.mem_cons_self, h⟩
      · exact ⟨j, List.mem_cons_of_mem _ List.mem_cons_self, hnext j heq h⟩
    · obtain ⟨hlink, hjump⟩ := hat
      rcases exposed_of_link hbefore hlink Opcode.noConfusion Opcode.noConfusion h with h | ⟨-, h⟩
      · exact ⟨j, List.mem_cons_of_mem _ List.mem_cons_self, h⟩
      · exact ⟨i, List.mem_cons_self, exposed_of_jumpAt hbefore hnext hjump h⟩
  | ret | halt =>
    obtain ⟨⟨⟩, -⟩ | ⟨-, k, -, ⟨⟨⟩, -⟩ | ⟨⟨⟩, -⟩ | ⟨⟨⟩, -⟩⟩ :=
      Model.exposed_of_word (A.word hat.1) hzero h
  | wait seconds b =>
    obtain ⟨hseconds, hw, hjump⟩ := hat
    refine (exposed_of_scalar hx hexit hseconds h).imp (fun hread => ⟨_, rfl, hread⟩) fun h => ?_
    have h := (Model.exposed_of_next (A.word hw) hzero rfl h).2
    exact ⟨b, List.mem_cons_self, exposed_of_jumpAt hbefore hnext hjump h⟩
  | pause point b =>
    obtain ⟨i, hw, hp, -⟩ := hat
    have hle : i ≤ Word.maxOperand :=
      Nat.le_trans (Nat.le_of_lt (Array.getElem?_eq_some_iff.1 hp).1) A.points_le
    obtain ⟨q, rest, hq, -, -, hrest, hlayout⟩ := A.point hp
    rcases Model.exposed_of_word (A.word hw) hle h with
      ⟨⟨⟩, -⟩ | ⟨-, k, hk, ⟨⟨⟩, -⟩ | ⟨⟨⟩, -⟩ | ⟨-, p, hp, h⟩⟩
    cases hq.symm.trans hp
    exact .inr ⟨b, List.mem_cons_self, hbefore k hk hrest hlayout h⟩

/-- What the code of blocks exposes, the blocks do. The induction is on the number of instructions,
and where a block comes next without a jump, on the rest of the layout. -/
theorem sees (A : Assembled m g points) (hx : x.Encodable) (hg : g.Within x)
    (hclosed : ∀ i, (g.block i).Exposes slot exposed → exposed i) (n : Nat) :
    A.Sees slot n exposed := by
  induction n using Nat.strong_induction_on with
  | _ n hbefore =>
    intro b start rest
    induction rest generalizing b start with
    | nil =>
      rintro - ⟨stop, ⟨mid, hsteps, hexit⟩, -⟩ h
      refine hclosed b (exposes_of_steps hx hbefore (hg b).steps hsteps (fun h => ?_) h)
      exact exposes_of_exit hx hbefore (hg b).exit (fun _ hnext => by cases hnext) hexit h
    | cons b' rest ih =>
      rintro hrest ⟨stop, ⟨mid, hsteps, hexit⟩, hlayout⟩ h
      refine hclosed b (exposes_of_steps hx hbefore (hg b).steps hsteps (fun h => ?_) h)
      refine exposes_of_exit hx hbefore (hg b).exit (fun _ hnext h => ?_) hexit h
      cases hnext
      exact ih ((List.suffix_cons ..).trans hrest) hlayout h

/-- Code of blocks that expose no local exposes none at its entry. -/
theorem exposure (A : Assembled m g points) (hx : x.Encodable) (hg : g.Within x)
    (h : g.Unexposed) : Nonempty (Exposure m) := by
  refine ⟨⟨fun slot ip => ∃ n, m.Exposed slot n ip, ?_, ?_⟩⟩
  · rintro slot ip ⟨op, operand, hop, hload | ⟨hstore, j, hedge, n, hj⟩⟩
    · exact ⟨1, op, operand, hop, .inl hload⟩
    · exact ⟨n + 1, op, operand, hop, .inr ⟨hstore, j, hedge, hj⟩⟩
  · rintro slot ⟨n, hn⟩
    obtain ⟨exposed, hclosed, hentry⟩ := h slot
    obtain ⟨rest, hrest, hlayout⟩ := A.entry
    exact hentry (A.sees hx hg hclosed n hrest hlayout hn)

end Assembled

/-! ## Executions -/

/-- Where a machine goes on after a stop: past a wait, and after a pause at its default offset. -/
def Model.resume? (m : Model) : Signal → Machine → Option Machine
  | .halt, _ => none
  | .wait _, s => some s
  | .pause point, s => m.points[point]?.map fun p => { s with ip := p.defaultOffset.toNat }

/-- How a machine goes on after an instruction, if it does. -/
def Reaction.after? (m : Model) : Reaction → Option Machine
  | .next s => some s
  | .stop signal s => m.resume? signal s
  | .fault _ _ => none

/-- The words that are executed on the way from the entry of a model to a machine, in order. The
machine may start with any locals, and inputs and outputs may change on the way. -/
inductive Model.Executes (m : Model) : List Word → Machine → Prop
  | start (random : Random) (locals outputs : Array Float) :
      Executes m [] { toFrame := { Frame.start m random with locals }, outputs }
  | step {words : List Word} {s t : Machine} {word : Word} {inputs : Array Float}
      (h : Executes m words s) (hw : m.code[s.ip]? = some word)
      (hstep : (s.step m inputs word).after? m = some t) : Executes m (words ++ [word]) t
  | outputs {words : List Word} {s : Machine} (h : Executes m words s) (outputs : Array Float) :
      Executes m words { s with outputs }

/-- The words that a run executes, in order. -/
def Machine.executed (m : Model) (inputs : Array Float) (skipWaits : Bool) :
    (fuel : Nat) → Machine → List Word
  | 0, _ => []
  | fuel + 1, s =>
    match m.code[s.ip]? with
    | none => []
    | some word => word :: match s.step m inputs word with
      | .next t => t.executed m inputs skipWaits fuel
      | .stop (.wait _) t => if skipWaits then t.executed m inputs skipWaits fuel else []
      | _ => []

/-- Before each word that a run executes there is a machine that the words before it lead to. -/
theorem Model.Executes.executed {s : Machine} (h : m.Executes words s) {inputs : Array Float}
    {skipWaits : Bool} {fuel : Nat} {before later : List Word} {word : Word}
    (heq : s.executed m inputs skipWaits fuel = before ++ word :: later) :
    ∃ u, m.Executes (words ++ before) u ∧ m.code[u.ip]? = some word := by
  induction fuel generalizing s words before with
  | zero => cases List.append_eq_nil_iff.1 heq.symm |>.2
  | succ fuel ih =>
    rw [Machine.executed] at heq
    cases hw : m.code[s.ip]? with
    | none =>
      rw [hw] at heq
      cases List.append_eq_nil_iff.1 heq.symm |>.2
    | some w =>
      rw [hw] at heq
      dsimp only at heq
      cases before with
      | nil =>
        cases (List.cons.inj heq).1
        exact ⟨s, by rwa [List.append_nil], hw⟩
      | cons b before =>
        obtain ⟨rfl, htail⟩ := List.cons.inj heq
        have hnext {t : Machine} (ht : (s.step m inputs w).after? m = some t)
            (heq : t.executed m inputs skipWaits fuel = before ++ word :: later) :
            ∃ u, m.Executes (words ++ w :: before) u ∧ m.code[u.ip]? = some word := by
          obtain ⟨u, hu, hcode⟩ := ih (h.step hw ht) heq
          exact ⟨u, by rwa [List.append_assoc] at hu, hcode⟩
        cases hr : s.step m inputs w with
        | next t =>
          rw [hr] at htail hnext
          exact hnext rfl htail
        | stop signal t =>
          rw [hr] at htail hnext
          cases signal with
          | wait seconds =>
            cases skipWaits with
            | true => exact hnext rfl htail
            | false => cases List.append_eq_nil_iff.1 htail.symm |>.2
          | halt | pause point => cases List.append_eq_nil_iff.1 htail.symm |>.2
        | fault f t =>
          rw [hr] at htail
          cases List.append_eq_nil_iff.1 htail.symm |>.2

/-- A word stores to a local. -/
def Word.Stores (slot : Nat) (word : Word) : Prop :=
  Word.opcode? word = some .storeLocal ∧ Word.operand word = slot

namespace Machine

variable {m : Model} {inputs : Array Float} {s t u : Machine}

theorem after?_push {value : Float} (h : (push m u value).after? m = some t) :
    t.ip = u.ip + 1 ∧ t.calls = u.calls := by
  unfold push at h
  split at h
  · cases h
    exact ⟨rfl, rfl⟩
  · cases h

theorem after?_load {vector : Array Float} {index : Nat}
    (h : (load m u vector index).after? m = some t) : t.ip = u.ip + 1 ∧ t.calls = u.calls := by
  unfold load at h
  split at h
  · exact after?_push h
  · cases h

theorem after?_pop (h : (u.pop k).after? m = some t) :
    ∃ value rest, (k value { u with stack := rest }).after? m = some t := by
  unfold pop at h
  split at h
  · exact ⟨_, _, h⟩
  · cases h

theorem after?_jumpIf {dest : Nat} {jumps : Float → Bool}
    (h : (u.jumpIf dest jumps).after? m = some t) :
    t.ip = dest ∧ t.calls = u.calls ∨ t.ip = u.ip + 1 ∧ t.calls = u.calls := by
  obtain ⟨value, rest, h⟩ := after?_pop h
  rw [← Option.some.inj h]
  split
  · exact .inl ⟨rfl, rfl⟩
  · exact .inr ⟨rfl, rfl⟩

/-- A machine goes along the edges of the code, or back to where it was called. -/
theorem offsets_execute (hop : Holds m.code s.ip op operand)
    (h : (s.execute m inputs op operand).after? m = some t) :
    ∀ j ∈ t.ip :: t.calls, Edge m.code m.points s.ip j ∨ j ∈ s.calls := by
  have hgoto {j : Nat} (hedge : Edge m.code m.points s.ip j) (h : t.ip = j ∧ t.calls = s.calls) :
      ∀ j ∈ t.ip :: t.calls, Edge m.code m.points s.ip j ∨ j ∈ s.calls := by
    rw [h.1, h.2]
    exact List.forall_mem_cons.2 ⟨.inl hedge, fun _ hj => .inr hj⟩
  have hnext (hc : op.continues = true) := hgoto (.next hop hc)
  have hbranch (hb : op.branches = true) := hgoto (.branch hop hb)
  unfold execute at h
  cases op with
  | pushConst | dup =>
    dsimp only at h
    split at h
    · exact hnext rfl (after?_push h)
    · cases h
  | pop | wait =>
    obtain ⟨_, _, ⟨⟩⟩ := after?_pop h
    exact hnext rfl ⟨rfl, rfl⟩
  | swap =>
    dsimp only at h
    split at h
    · cases h
      exact hnext rfl ⟨rfl, rfl⟩
    · cases h
  | loadInput | loadLocal => exact hnext rfl (after?_load h)
  | storeLocal | storeOutput =>
    obtain ⟨_, _, h⟩ := after?_pop h
    dsimp only at h
    split at h
    · cases h
      exact hnext rfl ⟨rfl, rfl⟩
    · cases h
  | unary f =>
    obtain ⟨_, _, h⟩ := after?_pop h
    have hpush := after?_push h
    exact hnext rfl hpush
  | binary f =>
    obtain ⟨_, _, h⟩ := after?_pop h
    obtain ⟨_, _, h⟩ := after?_pop h
    have hpush := after?_push h
    exact hnext rfl hpush
  | ternary f =>
    obtain ⟨_, _, h⟩ := after?_pop h
    obtain ⟨_, _, h⟩ := after?_pop h
    obtain ⟨_, _, h⟩ := after?_pop h
    have hpush := after?_push h
    exact hnext rfl hpush
  | jump =>
    cases h
    exact hbranch rfl ⟨rfl, rfl⟩
  | jumpIfFalse | jumpIfTrue =>
    rcases after?_jumpIf h with hjumps | hstays
    · exact hbranch rfl hjumps
    · exact hnext rfl hstays
  | call =>
    dsimp only at h
    split at h
    · cases h
      exact List.forall_mem_cons.2 ⟨.inl (.branch hop rfl),
        List.forall_mem_cons.2 ⟨.inl (.next hop rfl), fun _ hj => .inr hj⟩⟩
    · cases h
  | ret =>
    dsimp only at h
    split at h
    · next back rest hcalls =>
      cases h
      rw [hcalls]
      exact fun _ hj => .inr hj
    · cases h
  | halt => cases h
  | random =>
    obtain ⟨value, random, hdraw⟩ : ∃ value random, s.random.next = (value, random) :=
      ⟨_, _, rfl⟩
    simp only [hdraw] at h
    have hpush := after?_push h
    exact hnext rfl hpush
  | pause =>
    obtain ⟨p, hp, rfl⟩ := Option.map_eq_some_iff.1 h
    exact hgoto (.resume hop hp) ⟨rfl, rfl⟩
  | nop =>
    cases h
    exact hnext rfl ⟨rfl, rfl⟩

end Machine

namespace Exposure

variable {m : Model} {E : Exposure m} {inputs : Array Float} {s t : Machine} {word : Word}
variable {slot : Nat}

/-- A machine may read a local before it is set, here or where it comes back to. -/
def Wants (E : Exposure m) (slot : Nat) (s : Frame) : Prop :=
  ∃ ip ∈ s.ip :: s.calls, E.exposed slot ip

/-- After an instruction a machine wants no more than before, apart from what has been stored. -/
theorem wants_of_step (hw : m.code[s.ip]? = some word)
    (hstep : (s.step m inputs word).after? m = some t) (h : E.Wants slot t.toFrame) :
    E.Wants slot s.toFrame ∨ word.Stores slot := by
  obtain ⟨j, hj, h⟩ := h
  unfold Machine.step at hstep
  split at hstep
  · next op hop =>
    have hholds : Holds m.code s.ip op word.operand := ⟨word, hw, hop, rfl⟩
    rcases Machine.offsets_execute hholds hstep j hj with hedge | hcalls
    · by_cases hstore : op = .storeLocal ∧ word.operand = slot
      · exact .inr ⟨hstore.1 ▸ hop, hstore.2⟩
      · exact .inl ⟨s.ip, List.mem_cons_self,
          E.closed ⟨op, _, hholds, .inr ⟨hstore, j, hedge, h⟩⟩⟩
    · exact .inl ⟨j, List.mem_cons_of_mem _ hcalls, h⟩
  · cases hstep

theorem wants_of_load (hw : m.code[s.ip]? = some word) (hop : Word.opcode? word = some .loadLocal) :
    E.Wants word.operand s.toFrame :=
  ⟨s.ip, List.mem_cons_self, E.closed ⟨_, _, ⟨word, hw, hop, rfl⟩, .inl ⟨rfl, rfl⟩⟩⟩

theorem not_wants_start (E : Exposure m) (slot : Nat) (random : Random) (locals : Array Float) :
    ¬ E.Wants slot { Frame.start m random with locals } := by
  rintro ⟨ip, hip, h⟩
  cases List.mem_singleton.1 hip
  exact E.entry slot h

/-- What a machine wants, it has stored to. -/
theorem stored (E : Exposure m) (h : m.Executes words s) (hslot : E.Wants slot s.toFrame) :
    ∃ w ∈ words, w.Stores slot := by
  induction h with
  | start random locals outputs => exact (E.not_wants_start slot random locals hslot).elim
  | step h hw hstep ih =>
    rcases wants_of_step hw hstep hslot with hslot | hstores
    · obtain ⟨w, hmem, hw⟩ := ih hslot
      exact ⟨w, List.mem_append_left _ hmem, hw⟩
    · exact ⟨_, List.mem_append_right _ List.mem_cons_self, hstores⟩
  | outputs _ _ ih => exact ih hslot

end Exposure

/-! ## Other locals -/

def Machine.withLocals (s : Machine) (locals : Array Float) : Machine :=
  { s with locals }

def Reaction.withLocals (locals : Array Float) : Reaction → Reaction
  | .next s => .next (s.withLocals locals)
  | .stop signal s => .stop signal (s.withLocals locals)
  | .fault f s => .fault f (s.withLocals locals)

def Machine.Outcome.withLocals (locals : Array Float) : Machine.Outcome → Machine.Outcome
  | .stopped signal s rest => .stopped signal (s.withLocals locals) rest
  | .faulted f s => .faulted f (s.withLocals locals)

namespace Machine

variable {m : Model} {inputs l : Array Float} {s : Machine}

/-- Conditions that are the same have the same result with other locals. -/
theorem ite_withLocals {c c' : Prop} [Decidable c] [Decidable c'] (hc : c' ↔ c)
    {a b a' b' : Reaction} (ha : a' = a.withLocals l) (hb : b' = b.withLocals l) :
    (if c' then a' else b') = (if c then a else b).withLocals l := by
  by_cases h : c
  · rw [if_pos h, if_pos (hc.2 h), ha]
  · rw [if_neg h, if_neg (mt hc.1 h), hb]

theorem push_withLocals (s : Machine) (l : Array Float) (value : Float) :
    push m (s.withLocals l) value = (push m s value).withLocals l :=
  ite_withLocals Iff.rfl rfl rfl

theorem load_withLocals (s : Machine) (l vector : Array Float) (index : Nat) :
    load m (s.withLocals l) vector index = (load m s vector index).withLocals l := by
  unfold load
  split
  · exact push_withLocals ..
  · rfl

theorem pop_withLocals
    (hk : ∀ value (t : Machine), k value (t.withLocals l) = (k value t).withLocals l) (s : Machine)
    :
    (s.withLocals l).pop k = (s.pop k).withLocals l := by
  obtain ⟨⟨ip, stack, calls, locals, random⟩, outputs⟩ := s
  cases stack with
  | nil => rfl
  | cons value rest => exact hk value { ip, stack := rest, calls, locals, random, outputs }

theorem jumpIf_withLocals (s : Machine) (l : Array Float) (dest : Nat) (jumps : Float → Bool) :
    (s.withLocals l).jumpIf dest jumps = (s.jumpIf dest jumps).withLocals l := by
  refine pop_withLocals (fun value t => ?_) s
  split <;> rfl

/-- All but a store does the same with other locals, if a load finds the same value. -/
theorem execute_withLocals (hstore : op ≠ .storeLocal)
    (hload : op = .loadLocal → l[operand]? = s.locals[operand]?) :
    (s.withLocals l).execute m inputs op operand =
      (s.execute m inputs op operand).withLocals l := by
  unfold execute
  cases op with
  | pushConst =>
    dsimp only
    split
    · exact push_withLocals ..
    · rfl
  | pop | wait => exact pop_withLocals (fun _ _ => rfl) s
  | dup =>
    obtain ⟨⟨ip, stack, calls, locals, random⟩, outputs⟩ := s
    cases stack with
    | nil => rfl
    | cons value rest => exact push_withLocals ..
  | swap =>
    obtain ⟨⟨ip, stack, calls, locals, random⟩, outputs⟩ := s
    match stack with
    | [] | [_] | _ :: _ :: _ => rfl
  | call => exact ite_withLocals Iff.rfl rfl rfl
  | ret =>
    obtain ⟨⟨ip, stack, calls, locals, random⟩, outputs⟩ := s
    cases calls <;> rfl
  | loadInput => exact load_withLocals ..
  | loadLocal =>
    refine Eq.trans ?_ (load_withLocals s l s.locals operand)
    show load m _ l operand = _
    rw [load, load, hload rfl]
  | storeLocal => exact (hstore rfl).elim
  | storeOutput =>
    refine pop_withLocals (fun value t => ?_) s
    exact ite_withLocals (c := operand < t.outputs.size) Iff.rfl rfl rfl
  | unary f => exact pop_withLocals (fun _ _ => push_withLocals ..) s
  | binary f =>
    exact pop_withLocals (fun _ t => pop_withLocals (fun _ _ => push_withLocals ..) t) s
  | ternary f =>
    exact pop_withLocals (fun _ t => pop_withLocals (fun _ u => pop_withLocals
      (fun _ _ => push_withLocals ..) u) t) s
  | jumpIfFalse | jumpIfTrue => exact jumpIf_withLocals ..
  | random =>
    obtain ⟨value, random, hdraw⟩ : ∃ value random, s.random.next = (value, random) :=
      ⟨_, _, rfl⟩
    simp only [withLocals, hdraw]
    exact push_withLocals { s with random } l value
  | jump | halt | pause | nop => rfl

theorem execute_storeLocal (m : Model) (inputs : Array Float) (hsize : l.size = s.locals.size)
    (operand : Nat) :
    ∃ l', (s.withLocals l).execute m inputs .storeLocal operand =
        (s.execute m inputs .storeLocal operand).withLocals l' ∧
      ∀ t, (s.execute m inputs .storeLocal operand).after? m = some t →
        l'.size = t.locals.size ∧ l'[operand]? = t.locals[operand]? ∧
          ∀ i ≠ operand, l'[i]? = l[i]? ∧ t.locals[i]? = s.locals[i]? := by
  cases hstack : s.stack with
  | nil =>
    have hfault {u : Machine} (hstack : u.stack = []) :
        u.execute m inputs .storeLocal operand = .fault (.stackUnderflow u.ip) u := by
      simp only [execute, pop, hstack]
    refine ⟨l, by rw [hfault hstack, hfault (u := s.withLocals l) hstack]; rfl, ?_⟩
    rw [hfault hstack]
    rintro t ⟨⟩
  | cons value rest =>
    by_cases hlt : operand < s.locals.size
    · have hnext {u : Machine} (hstack : u.stack = value :: rest) (hlt : operand < u.locals.size) :
          u.execute m inputs .storeLocal operand = .next { u with
            stack := rest, locals := u.locals.setIfInBounds operand value, ip := u.ip + 1 } := by
        simp only [execute, pop, hstack, if_pos hlt]
      have hlt' : operand < l.size := hsize ▸ hlt
      refine ⟨l.setIfInBounds operand value, ?_, ?_⟩
      · rw [hnext hstack hlt, hnext (u := s.withLocals l) hstack hlt']
        rfl
      · rw [hnext hstack hlt]
        rintro t ⟨⟩
        refine ⟨?_, ?_, fun i hi => ⟨?_, ?_⟩⟩
        · rw [Array.size_setIfInBounds, Array.size_setIfInBounds, hsize]
        · rw [Array.getElem?_setIfInBounds_self_of_lt hlt',
            Array.getElem?_setIfInBounds_self_of_lt hlt]
        · exact Array.getElem?_setIfInBounds_ne hi.symm
        · exact Array.getElem?_setIfInBounds_ne hi.symm
    · have hfault {u : Machine} (hstack : u.stack = value :: rest)
          (hlt : ¬ operand < u.locals.size) : u.execute m inputs .storeLocal operand =
            .fault (.invalidOperand u.ip) { u with stack := rest } := by
        simp only [execute, pop, hstack, if_neg hlt]
      refine ⟨l, ?_, ?_⟩
      · rw [hfault hstack hlt, hfault (u := s.withLocals l) hstack (hsize ▸ hlt)]
        rfl
      · rw [hfault hstack hlt]
        rintro t ⟨⟩

theorem after?_withLocals (r : Reaction) (l : Array Float) :
    (r.withLocals l).after? m = (r.after? m).map (·.withLocals l) := by
  cases r with
  | next s | fault f s => rfl
  | stop signal s =>
    cases signal with
    | halt | wait _ => rfl
    | pause point =>
      show m.points[point]?.map _ = (m.points[point]?.map _).map _
      rw [Option.map_map]
      rfl

/-- Instructions other than stores leave the locals alone. -/
theorem locals_of_execute {t : Machine} (hstore : op ≠ .storeLocal)
    (h : (s.execute m inputs op operand).after? m = some t) : t.locals = s.locals := by
  have hsame : s.execute m inputs op operand =
      (s.execute m inputs op operand).withLocals s.locals :=
    execute_withLocals (s := s) (l := s.locals) hstore fun _ => rfl
  rw [hsame, after?_withLocals] at h
  obtain ⟨u, -, rfl⟩ := Option.map_eq_some_iff.1 h
  rfl

/-- Other locals would do for a machine on its way: they agree on what it wants. -/
structure Alike (E : Exposure m) (s : Machine) (l : Array Float) : Prop where
  executed : ∃ words, m.Executes words s
  size : l.size = s.locals.size
  agree : ∀ slot, E.Wants slot s.toFrame → l[slot]? = s.locals[slot]?

variable {E : Exposure m}

/-- An instruction does the same with other locals, and again they would do. -/
theorem Alike.step (h : s.Alike E l) {word : Word} (hw : m.code[s.ip]? = some word)
    (inputs : Array Float) :
    ∃ l', (s.withLocals l).step m inputs word = (s.step m inputs word).withLocals l' ∧
      ∀ t, (s.step m inputs word).after? m = some t → t.Alike E l' := by
  obtain ⟨words, hexecuted⟩ := h.executed
  cases hop : Word.opcode? word with
  | none =>
    have hstep (s : Machine) : s.step m inputs word = .fault (.invalidOpcode s.ip word.byte) s := by
      rw [Machine.step, hop]
    refine ⟨l, by rw [hstep, hstep]; rfl, fun t ht => ?_⟩
    rw [hstep] at ht
    cases ht
  | some op =>
    have hstep (s : Machine) : s.step m inputs word = s.execute m inputs op word.operand := by
      rw [Machine.step, hop]
    by_cases hstore : op = .storeLocal
    · subst hstore
      obtain ⟨l', heq, hstored⟩ := execute_storeLocal m inputs h.size word.operand
      refine ⟨l', by rw [hstep, hstep, heq], fun t ht => ?_⟩
      obtain ⟨hsize, hslot, hothers⟩ := hstored t (hstep s ▸ ht)
      refine ⟨⟨_, hexecuted.step hw ht⟩, hsize, fun slot hwants => ?_⟩
      by_cases heq : slot = word.operand
      · rw [heq, hslot]
      · rcases E.wants_of_step hw ht hwants with hwants | hstores
        · rw [(hothers slot heq).1, (hothers slot heq).2, h.agree slot hwants]
        · exact (heq hstores.2.symm).elim
    · have heq : (s.withLocals l).execute m inputs op word.operand = _ :=
        execute_withLocals hstore fun hload => h.agree _ (E.wants_of_load hw (hload ▸ hop))
      refine ⟨l, by rw [hstep, hstep, heq], fun t ht => ?_⟩
      have hlocals := locals_of_execute hstore (hstep s ▸ ht)
      refine ⟨⟨_, hexecuted.step hw ht⟩, hlocals ▸ h.size, fun slot hwants => ?_⟩
      rw [hlocals]
      rcases E.wants_of_step hw ht hwants with hwants | hstores
      · exact h.agree slot hwants
      · exact (hstore (Option.some.inj (hop.symm.trans hstores.1))).elim

/-- So does a run, and they would do where it can be resumed. -/
theorem Alike.run (h : s.Alike E l) (inputs : Array Float) (limit : Nat) (skipWaits : Bool)
    (fuel : Nat) :
    ∃ l', (s.withLocals l).run m inputs limit skipWaits fuel =
        (s.run m inputs limit skipWaits fuel).withLocals l' ∧
      ∀ signal t rest u, s.run m inputs limit skipWaits fuel = .stopped signal t rest →
        m.resume? signal t = some u → u.Alike E l' := by
  induction fuel generalizing s l with
  | zero =>
    have hrun (s : Machine) : ∃ f, ∀ l, (s.withLocals l).run m inputs limit skipWaits 0 =
        .faulted f (s.withLocals l) := by
      have hip (l : Array Float) : (s.withLocals l).ip = s.ip := rfl
      cases hw : m.code[s.ip]? with
      | none | some word => exact ⟨_, fun l => by rw [Machine.run, hip, hw]⟩
    obtain ⟨f, hf⟩ := hrun s
    have hself : s.run m inputs limit skipWaits 0 = .faulted f s := hf s.locals
    exact ⟨l, by rw [hf, hself]; rfl, fun _ _ _ _ hstop => by rw [hself] at hstop; cases hstop⟩
  | succ fuel ih =>
    cases hw : m.code[s.ip]? with
    | none =>
      have hrun (l : Array Float) : (s.withLocals l).run m inputs limit skipWaits (fuel + 1) =
          .faulted (.programCounter s.ip) (s.withLocals l) := by
        rw [Machine.run, show (s.withLocals l).ip = s.ip from rfl, hw]
      have hself : s.run m inputs limit skipWaits (fuel + 1) = .faulted (.programCounter s.ip) s :=
        hrun s.locals
      exact ⟨l, by rw [hrun, hself]; rfl, fun _ _ _ _ hstop => by rw [hself] at hstop; cases hstop⟩
    | some word =>
      obtain ⟨l', hstep, hafter⟩ := h.step hw inputs
      have hw' : m.code[(s.withLocals l).ip]? = some word := hw
      cases hr : s.step m inputs word with
      | next t =>
        rw [hr] at hstep hafter
        rw [run_of_next hw hr, run_of_next hw' hstep]
        exact ih (hafter t rfl)
      | fault f t =>
        rw [hr] at hstep
        have hrun {s t : Machine} (hw : m.code[s.ip]? = some word)
            (hr : s.step m inputs word = .fault f t) :
            s.run m inputs limit skipWaits (fuel + 1) = .faulted f t := by
          rw [Machine.run, hw]
          dsimp only
          rw [hr]
        rw [hrun hw hr, hrun hw' hstep]
        refine ⟨l', rfl, ?_⟩
        rintro _ _ _ _ ⟨⟩
      | stop signal t =>
        rw [hr] at hstep hafter
        by_cases hwait : skipWaits = true ∧ ∃ seconds, signal = .wait seconds
        · obtain ⟨rfl, seconds, rfl⟩ := hwait
          rw [run_of_wait hw hr, run_of_wait hw' hstep]
          exact ih (hafter t rfl)
        · have hstops (seconds : Float) (hsignal : signal = .wait seconds) : skipWaits = false :=
            Bool.eq_false_iff.2 fun hskip => hwait ⟨hskip, seconds, hsignal⟩
          rw [run_of_stop hw hr hstops, run_of_stop hw' hstep hstops]
          refine ⟨l', rfl, ?_⟩
          rintro _ _ _ u ⟨⟩ hu
          exact hafter u hu

end Machine

theorem Machine.Alike.withOutputs {E : Exposure m} {s : Machine} {l : Array Float} (h : s.Alike E l)
    (outputs : Array Float) : Machine.Alike E { s with outputs } l :=
  ⟨h.executed.imp fun _ h => h.outputs outputs, h.size, h.agree⟩

/-- At its entry a model wants no locals. -/
theorem Machine.Alike.start {l : Array Float} (E : Exposure m) (random : Random)
    (outputs : Array Float) (hl : l.size = m.localCount.toNat) :
    Machine.Alike E { toFrame := Frame.start m random, outputs } l :=
  ⟨⟨[], .start random _ outputs⟩, hl.trans Array.size_replicate.symm,
    fun slot hwants => (E.not_wants_start slot random _ hwants).elim⟩

/-! ## Streams -/

namespace Stage

def withLocals (stage : Stage) (locals : Array Float) : Stage :=
  { stage with frame := { stage.frame with locals } }

def Outcome.withLocals (locals : Array Float) : Outcome → Outcome
  | .stopped signal stage outputs rest => .stopped signal (stage.withLocals locals) outputs rest
  | .faulted f stage outputs => .faulted f (stage.withLocals locals) outputs

/-- The end of a run of a stage that has no bridge. -/
def ofOutcome (stage : Stage) : Machine.Outcome → Outcome
  | .stopped signal s rest => .stopped signal { stage with frame := s.toFrame } s.outputs rest
  | .faulted f s => .faulted f { stage with frame := s.toFrame } s.outputs

theorem run_of_bridge (h : stage.bridge? = none) (limit fuel : Nat) (inputs outputs : Array Float) :
    stage.run limit fuel inputs outputs = stage.ofOutcome
      (Machine.run stage.model inputs limit false fuel { toFrame := stage.frame, outputs }) := by
  simp only [run, h]
  split
  · next hrun => rw [hrun, ofOutcome, h]
  · next hrun => rw [hrun, ofOutcome, h]

/-- A stage without a bridge runs the same way with other locals that do for its machine. -/
theorem run_withLocals {m : Model} {E : Exposure m} {l : Array Float} (hmodel : stage.model = m)
    (hbridge : stage.bridge? = none) {outputs : Array Float}
    (h : Machine.Alike E { toFrame := stage.frame, outputs } l) (limit fuel : Nat)
    (inputs : Array Float) :
    ∃ l', (stage.withLocals l).run limit fuel inputs outputs =
        (stage.run limit fuel inputs outputs).withLocals l' ∧
      ∀ {signal next after rest}, stage.run limit fuel inputs outputs =
          .stopped signal next after rest →
        next.model = m ∧ next.bridge? = none ∧
          ∀ u, m.resume? signal { toFrame := next.frame, outputs := after } = some u →
            u.Alike E l' := by
  obtain ⟨l', hrun, hresume⟩ := h.run inputs limit false fuel
  refine ⟨l', ?_, fun {signal next after rest} hstop => ?_⟩
  · have hbridge' : (stage.withLocals l).bridge? = none := hbridge
    rw [run_of_bridge hbridge, run_of_bridge hbridge']
    subst hmodel
    refine (congrArg _ hrun).trans ?_
    cases Machine.run stage.model inputs limit false fuel _ <;> rfl
  · rw [run_of_bridge hbridge, hmodel] at hstop
    cases ho : Machine.run m inputs limit false fuel { toFrame := stage.frame, outputs } with
    | faulted f s =>
      rw [ho] at hstop
      cases hstop
    | stopped signal' s rest' =>
      rw [ho] at hstop
      cases hstop
      exact ⟨hmodel, hbridge, fun u => hresume _ _ _ u ho⟩

end Stage

namespace Stream

variable {m : Model} {E : Exposure m} {s : Stream} {l : Array Float}

/-- The stream whose stage has other locals. -/
def withLocals (s : Stream) (locals : Array Float) : Stream :=
  { s with stage := s.stage.withLocals locals }

def Advance.withLocals (a : Advance) (locals : Array Float) : Advance :=
  { a with stream := a.stream.withLocals locals }

/-- Other locals would do for a stream of the model, to which no extension is attached. -/
structure Alike (E : Exposure m) (s : Stream) (l : Array Float) : Prop where
  model : s.stage.model = m
  bridge : s.stage.bridge? = none
  incoming : s.incoming? = none
  machine : ∀ outputs, Machine.Alike E { toFrame := s.nextFrame, outputs } l

theorem resumed_withLocals (s : Stream) (l : Array Float) :
    (s.withLocals l).resumed = s.resumed.withLocals l := by
  have hframe : (s.withLocals l).nextFrame = { s.nextFrame with locals := l } := by
    unfold nextFrame
    cases ha : s.awaiting? with
    | none | some a => simp only [withLocals, Stage.withLocals, ha]
  rw [resumed, hframe]
  rfl

/-- A stream that runs goes on the same way with other locals, and if it has to wait, they would do
again. -/
theorem Alike.proceed (h : s.Alike E l) (fuel : Nat) (inputs outputs : Array Float) :
    ∃ l', (s.withLocals l).proceed fuel inputs outputs =
        (s.proceed fuel inputs outputs).withLocals l' ∧
      ∀ phase, (s.proceed fuel inputs outputs).result = .ok phase → phase ≠ .terminal →
        (s.proceed fuel inputs outputs).stream.Alike E l' := by
  induction fuel using Nat.strong_induction_on generalizing s l outputs with
  | _ fuel ih =>
    have hready := ready_of_incoming h.incoming
    have hready' := ready_of_incoming (s := s.withLocals l) h.incoming
    rw [resumed_withLocals] at hready'
    have hblocked' : blocked? (s.withLocals l).clock (s.withLocals l).waitUntil?
        ((s.withLocals l).awaiting?.map (·.deadline)) =
      blocked? s.clock s.waitUntil? (s.awaiting?.map (·.deadline)) := rfl
    rw [hblocked'] at hready'
    cases hblocked : blocked? s.clock s.waitUntil? (s.awaiting?.map (·.deadline)) with
    | some phase =>
      rw [hblocked] at hready hready'
      rw [proceed_of_error hready, proceed_of_error hready']
      exact ⟨l, rfl, fun _ _ _ => h⟩
    | none =>
      rw [hblocked] at hready hready'
      rw [proceed_of_ok hready, proceed_of_ok hready']
      have hmodel : s.resumed.stage.model = m := h.model
      obtain ⟨l', hrun, hresume⟩ := Stage.run_withLocals hmodel h.bridge (h.machine outputs)
        s.settings.run.instructionLimit.toNat fuel inputs
      have hlimit : s.resumed.settings = s.settings := rfl
      have hrun' : (s.resumed.withLocals l).stage.run
          (s.resumed.withLocals l).settings.run.instructionLimit.toNat fuel inputs outputs = _ :=
        hrun
      rw [hrun', hlimit]
      cases ho : s.resumed.stage.run s.settings.run.instructionLimit.toNat fuel inputs outputs with
      | faulted f stage after => exact ⟨l', rfl, nofun⟩
      | stopped signal stage after rest =>
        obtain ⟨hmodel, hbridge, hmachine⟩ := hresume ho
        have hlt := Stage.fuel_lt_of_run ho
        cases signal with
        | halt =>
          refine ⟨l', rfl, fun phase hphase hne => ?_⟩
          cases hphase
          exact (hne rfl).elim
        | wait seconds =>
          have hwaits : Alike E { s.resumed with
              stage, waitUntil? := some (s.clock.add (.ofSeconds seconds)) } l' :=
            ⟨hmodel, hbridge, h.incoming, fun outputs => (hmachine _ rfl).withOutputs outputs⟩
          exact ih rest hlt hwaits after
        | pause point =>
          cases hp : stage.model.points[point]? with
          | none =>
            have hfault {t : Stream} {stage : Stage} (hp : stage.model.points[point]? = none) :
                t.afterRun inputs (.stopped (.pause point) stage after rest) =
                  ⟨.error (.invalidOperand (stage.frame.ip - 1)), { t with stage }, after⟩ := by
              simp only [afterRun, pauseAt, hp]
            have hp' : (stage.withLocals l').model.points[point]? = none := hp
            rw [hfault hp]
            refine ⟨l', hfault hp', ?_⟩
            rintro _ ⟨⟩
          | some p =>
            have hresumes : m.resume? (.pause point) { toFrame := stage.frame, outputs := after } =
                some ⟨{ stage.frame with ip := p.defaultOffset.toNat }, after⟩ := by
              rw [Model.resume?, ← hmodel, hp]
              rfl
            have hpaused : Alike E (s.resumed.pausedAt stage point p) l' :=
              ⟨hmodel, hbridge, h.incoming,
                fun outputs => (hmachine _ hresumes).withOutputs outputs⟩
            obtain ⟨l'', heq, hnext⟩ := ih rest hlt hpaused after
            have hp' : (stage.withLocals l').model.points[point]? = some p := hp
            rw [afterRun_pause hp]
            exact ⟨l'', (afterRun_pause hp' ..).trans heq, hnext⟩

theorem settle_withLocals (a : Advance) (l : Array Float) :
    (a.withLocals l).settle = a.settle.withLocals l := by
  obtain ⟨result, stream, outputs⟩ := a
  cases result <;> rfl

/-- Advances are the same with other locals, and those that are left would do, unless the stream is
done. -/
theorem advance_withLocals (h : s.phase = .terminal ∨ s.Alike E l) (dt : Duration)
    (inputs outputs : Array Float) :
    let a := s.advance dt inputs outputs
    ∃ l', (s.withLocals l).advance dt inputs outputs = a.withLocals l' ∧
      (a.stream.phase = .terminal ∨ a.stream.Alike E l') := by
  cases hfault : s.hasFault with
  | true =>
    have hadvance {s : Stream} (hfault : s.hasFault = true) :
        s.advance dt inputs outputs = ⟨.error .faulted, s, outputs⟩ := by
      rw [advance, if_pos hfault]
    rw [hadvance hfault, hadvance (s := s.withLocals l) hfault]
    exact ⟨l, rfl, h⟩
  | false =>
    by_cases hphase : s.phase = .terminal
    · rw [advance_of_terminal hfault hphase,
        advance_of_terminal (s := s.withLocals l) hfault hphase]
      exact ⟨l, rfl, h⟩
    · cases hsizes : s.root.checkVectors inputs outputs with
      | error f =>
        rw [advance_of_error hfault hphase hsizes,
          advance_of_error (s := s.withLocals l) hfault hphase hsizes]
        exact ⟨l, rfl, h⟩
      | ok _ =>
        rw [advance_of_ok hfault hphase hsizes,
          advance_of_ok (s := s.withLocals l) hfault hphase hsizes]
        have h := h.resolve_left hphase
        have hlater : (s.later dt).Alike E l := ⟨h.model, h.bridge, h.incoming, h.machine⟩
        obtain ⟨l', heq, hnext⟩ :=
          hlater.proceed s.settings.run.instructionLimit.toNat inputs outputs
        have heq : ((s.withLocals l).later dt).proceed s.settings.run.instructionLimit.toNat
            inputs outputs = _ := heq
        refine ⟨l', (congrArg Advance.settle heq).trans (settle_withLocals ..), ?_⟩
        generalize (s.later dt).proceed _ inputs outputs = a at hnext
        obtain ⟨result, stream, after⟩ := a
        cases result with
        | error f => exact .inl rfl
        | ok phase =>
          by_cases hend : phase = .terminal
          · exact .inl hend
          · obtain ⟨hmodel, hbridge, hincoming, hmachine⟩ := hnext phase rfl hend
            exact .inr ⟨hmodel, hbridge, hincoming, hmachine⟩

/-- So are all advances together. -/
theorem drive_withLocals (h : s.phase = .terminal ∨ s.Alike E l) (outputs : Array Float)
    (cues : List Cue) :
    ∃ l', (s.withLocals l).drive outputs cues =
        ((s.drive outputs cues).1, (s.drive outputs cues).2.withLocals l') ∧
      ((s.drive outputs cues).2.phase = .terminal ∨ (s.drive outputs cues).2.Alike E l') := by
  induction cues generalizing s l outputs with
  | nil => exact ⟨l, rfl, h⟩
  | cons cue rest ih =>
    obtain ⟨l', heq, hnext⟩ := advance_withLocals h cue.dt cue.inputs (cue.prepare outputs)
    obtain ⟨l'', hrest, hlast⟩ :=
      ih hnext (s.advance cue.dt cue.inputs (cue.prepare outputs)).outputs
    rw [drive, drive, heq]
    dsimp only [Advance.withLocals]
    rw [hrest]
    exact ⟨l'', rfl, hlast⟩

/-- Before its first advance a stream wants no locals. -/
theorem Alike.new (E : Exposure m) (settings : StreamSettings) (hl : l.size = m.localCount.toNat) :
    (Stream.new m settings).Alike E l :=
  ⟨rfl, rfl, rfl, fun outputs => .start E ⟨settings.run.seed⟩ outputs hl⟩

end Stream

/-- Of how a run ends, an evaluation leaves no locals behind. -/
theorem Evaluator.ofOutcome_withLocals (e : Evaluator) (o : Machine.Outcome) (l : Array Float) :
    e.ofOutcome (o.withLocals l) = e.ofOutcome o := by
  rcases o with ⟨_ | _ | _, _, _⟩ | _ <;> rfl

/-- Compiled models set their locals before they read them: wherever an execution from the entry has
got to, each word by which a run from there loads a local comes after one that stores to it.
Evaluations start such executions, and until they are done streams rest at them. So the locals to
start with make no difference to either. -/
theorem assigned_of_compile {registry : Registry} {o : CompileOptions} {d : Document} {m : Model}
    (h : compile registry o d = .ok m) :
    (∀ words s, m.Executes words s → ∀ inputs skipWaits fuel before word later,
      s.executed m inputs skipWaits fuel = before ++ word :: later →
      Word.opcode? word = some .loadLocal → ∃ w ∈ words ++ before, w.Stores word.operand) ∧
    (∀ e : Evaluator, e.model = m → m.Executes [] e.start ∧
      ∀ inputs outputs, m.checkVectors inputs outputs = .ok () →
        ∀ locals : Array Float, locals.size = m.localCount.toNat →
          e.ofOutcome ((e.start.withLocals locals).run m inputs e.limit true e.limit) =
            e.evaluate inputs outputs) ∧
    ∀ settings outputs cues,
      (((Stream.new m settings).drive outputs cues).2.phase = .terminal ∨
        ∃ words, ∀ after, m.Executes words
          ⟨((Stream.new m settings).drive outputs cues).2.nextFrame, after⟩) ∧
      ∀ locals : Array Float, locals.size = m.localCount.toNat →
        ∃ locals', ((Stream.new m settings).withLocals locals).drive outputs cues =
          (((Stream.new m settings).drive outputs cues).1,
            ((Stream.new m settings).drive outputs cues).2.withLocals locals') := by
  obtain ⟨p, hp, hcompiled⟩ := compile_ok h
  obtain ⟨names, graph, hchecked⟩ := Typed.check_ok hp
  obtain ⟨A⟩ := hcompiled.assembled
  obtain ⟨E⟩ := A.exposure hcompiled.encodable (Compiled.within hchecked)
    (hchecked.unexposed.optimize hchecked.within _)
  refine ⟨?_, ?_, ?_⟩
  · intro words s hs inputs skipWaits fuel before word later heq hload
    obtain ⟨u, hu, hw⟩ := hs.executed heq
    exact E.stored hu (E.wants_of_load hw hload)
  · rintro e rfl
    refine ⟨.start e.random _ _, fun inputs outputs hsizes locals hlocals => ?_⟩
    have hstart : Machine.Alike E e.start locals := .start E e.random _ hlocals
    obtain ⟨l, hrun, -⟩ := hstart.run inputs e.limit true e.limit
    rw [Evaluator.evaluate_eq hsizes, hrun, Evaluator.ofOutcome_withLocals]
  · intro settings outputs cues
    refine ⟨?_, fun locals hlocals => ?_⟩
    · have hnew := Stream.Alike.new E settings (Array.size_replicate (v := 0.0))
      obtain ⟨_, -, hend | hlast⟩ := Stream.drive_withLocals (.inr hnew) outputs cues
      · exact .inl hend
      · obtain ⟨words, hwords⟩ := (hlast.machine #[]).executed
        exact .inr ⟨words, fun after => hwords.outputs after⟩
    · obtain ⟨l, heq, -⟩ := Stream.drive_withLocals (.inr (.new E settings hlocals)) outputs cues
      exact ⟨l, heq⟩

open Evaluator (errand errandRegistry errandModel) in
theorem assigned_of_compile_errand :
    let e : Evaluator := ⟨errandModel, 100000, ⟨0⟩⟩
    let zeros : Array Float := Array.replicate errandModel.outputSize 0.0
    let before := errandModel.code.toList.take 11 ++
      [Word.encode .loadInput 1, Word.encode .storeLocal 3]
    compile errandRegistry { level := 0, id? := some ⟨1⟩ } errand = .ok errandModel ∧
      e.start.executed errandModel #[2.0, 3.0] true 14 = before ++ [Word.encode .loadLocal 3] ∧
      (∃ w ∈ before, w.Stores 3) ∧
      e.ofOutcome ((e.start.withLocals #[7.0, 7.0, 7.0, 7.0]).run errandModel #[2.0, 3.0] e.limit
        true e.limit) = e.evaluate #[2.0, 3.0] zeros := by
  intro e zeros before
  have hm : compile errandRegistry { level := 0, id? := some ⟨1⟩ } errand = .ok errandModel := by
    cbv
  have hwords : e.start.executed errandModel #[2.0, 3.0] true 14 =
      before ++ [Word.encode .loadLocal 3] := by decide +kernel
  obtain ⟨hstored, hevaluate, -⟩ := assigned_of_compile hm
  obtain ⟨hstart, hlocals⟩ := hevaluate e rfl
  exact ⟨hm, hwords, hstored [] e.start hstart _ _ _ _ _ _ hwords (by decide),
    hlocals _ _ rfl _ rfl⟩

end Behavior
