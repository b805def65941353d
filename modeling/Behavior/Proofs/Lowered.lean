import Behavior.Proofs.Slots

/-!
Where checked statements stand in the blocks they are lowered to. Lowering fills one block after
another and comes back to blocks it has set aside; what it leaves behind can be read off the finished
graph without going through the construction again.

A vector with a choice in it is lowered to three numbers, each with its own choice. Conditions that
draw random numbers are evaluated once, before all the numbers, and kept in locals of their own.
-/

namespace Behavior

/-- The block with steps in front. -/
def Block.prepend (b : Block) (steps : List (Step × Span)) : Block :=
  { b with steps := steps ++ b.steps }

/-! ## Values as steps -/

namespace Typed

/-- One of the three numbers of a vector. -/
def Triple.component : Triple → Nat → Scalar
  | .make x y z, j => if j = 0 then x else if j = 1 then y else z
  | .inputSlots first, j => .inputSlot (first + j)
  | .localSlots first, j => .localSlot (first + j)
  | .select condition a b, j => .select condition (a.component j) (b.component j)

/-- No condition of a choice draws random numbers. -/
def Triple.Settled : Triple → Prop
  | .select condition a b => condition.isPure = true ∧ a.Settled ∧ b.Settled
  | _ => True

/-- At most the outermost condition draws random numbers. -/
def Triple.Steady : Triple → Prop
  | .select _ a b => a.Settled ∧ b.Settled
  | _ => True

def Value.Steady : Value → Prop
  | .vector v => v.Steady
  | _ => True

mutual

/-- All values of a statement are steady. -/
def Stmt.Steady : Stmt → Prop
  | .setLocal _ _ value | .setOutput _ _ value | .intent _ _ _ value _ => value.Steady
  | .branch _ _ thenBody elseBody => Stmt.AllSteady thenBody ∧ Stmt.AllSteady elseBody
  | .loop _ _ _ body => Stmt.AllSteady body
  | .call .. | .goto .. | .wait .. | .continuation .. | .halt .. => True

def Stmt.AllSteady : List Stmt → Prop
  | [] => True
  | stmt :: rest => stmt.Steady ∧ Stmt.AllSteady rest

end

/-- Store the numbers of a vector in consecutive slots. -/
def Triple.stores (span : Span) (set : Nat → Scalar → Step) (slot : Nat) (v : Triple) :
    List (Step × Span) :=
  [(set slot (v.component 0), span), (set (slot + 1) (v.component 1), span),
    (set (slot + 1 + 1) (v.component 2), span)]

/-- The conditions of a vector that draw random numbers, and the vector that has them in the locals
from `kept` on. -/
def Triple.hoist (kept : Nat) : Triple → List Scalar × Triple
  | .select condition a b =>
    if condition.isPure then
      let x := a.hoist kept
      let y := b.hoist (kept + x.1.length)
      (x.1 ++ y.1, .select condition x.2 y.2)
    else
      let x := a.hoist (kept + 1)
      let y := b.hoist (kept + 1 + x.1.length)
      (condition :: (x.1 ++ y.1), .select (.localSlot kept) x.2 y.2)
  | v => ([], v)

/-- Keep conditions in the locals from `kept` on. -/
def keeps (span : Span) (kept : Nat) : List Scalar → List (Step × Span)
  | [] => []
  | condition :: rest => (.setLocal kept condition, span) :: keeps span (kept + 1) rest

/-- The steps that store a value. Conditions that draw random numbers are kept first. -/
def Value.stores (span : Span) (set : Nat → Scalar → Step) (slot kept : Nat) :
    Value → List (Step × Span)
  | .number e | .bool e | .string e => [(set slot e, span)]
  | .vector v => keeps span kept (v.hoist kept).1 ++ (v.hoist kept).2.stores span set slot

theorem keeps_append (span : Span) (kept : Nat) (xs ys : List Scalar) :
    keeps span kept (xs ++ ys) = keeps span kept xs ++ keeps span (kept + xs.length) ys := by
  induction xs generalizing kept with
  | nil => rfl
  | cons x rest ih =>
    simp only [List.cons_append, keeps, ih, List.length_cons, Nat.add_right_comm, Nat.add_assoc]

/-- Conditions that draw nothing stay where they are. -/
theorem Triple.Settled.hoist {v : Triple} (h : v.Settled) (kept : Nat) : v.hoist kept = ([], v) := by
  induction v generalizing kept with
  | select condition a b iha ihb =>
    obtain ⟨hpure, ha, hb⟩ := h
    simp only [Triple.hoist, if_pos hpure, iha ha, ihb hb, List.append_nil]
  | _ => rfl

/-- Whether a loop runs again. -/
def isRunning (counter : Nat) : Scalar :=
  .binary .gt (.localSlot counter) (.const 0.0)

def countDown (counter : Nat) : Scalar :=
  .binary .sub (.localSlot counter) (.const 1.0)

mutual

/-- The code of a statement leads from what is left of one block to what is left of another. Locals
from `n` on are free for conditions that are kept. -/
def Stmt.Lowered (G : BlockGraph) (n : Nat) : Stmt → Block → Block → Prop
  | .setLocal span slot value, b, b' =>
    ∃ kept, n ≤ kept ∧ b = b'.prepend (value.stores span .setLocal slot kept)
  | .setOutput span slot value, b, b' =>
    ∃ kept, n ≤ kept ∧ b = b'.prepend (value.stores span .setOutput slot kept)
  | .intent span valueSlot urgencySlot value urgency, b, b' =>
    ∃ kept, n ≤ kept ∧ b = (b'.prepend [(.setOutput urgencySlot urgency, span)]).prepend
      (value.stores span .setOutput valueSlot kept)
  | .branch span condition thenBody elseBody, b, b' =>
    ∃ i j merge, b = ⟨[], .branch condition i j, span⟩ ∧ b' = G.block merge ∧
      Stmt.AllLowered G n thenBody (G.block i) ⟨[], .jump merge, span⟩ ∧
      (Stmt.AllLowered G n elseBody (G.block j) ⟨[], .jump merge, span⟩ ∨
        elseBody = [] ∧ j = merge)
  | .loop span count counter body, b, b' =>
    count = 0 ∧ b = b' ∨
      count ≠ 0 ∧ ∃ header i next first,
        b = ⟨[(.setLocal counter (.const (Float.ofNat count)), span)], .jump header, span⟩ ∧
        G.block header = ⟨[], .branch (isRunning counter) i next, span⟩ ∧
        G.block i = first.prepend [(.setLocal counter (countDown counter), span)] ∧
        b' = G.block next ∧ Stmt.AllLowered G n body first ⟨[], .jump header, span⟩
  | .call span flow, b, b' => b = b'.prepend [(.call flow, span)]
  | .goto span flow, b, _ => b = ⟨[], .jump flow, span⟩
  | .wait span seconds, b, b' => ∃ i, b = ⟨[], .wait seconds i, span⟩ ∧ b' = G.block i
  | .continuation span point flow, b, _ => b = ⟨[], .pause point flow, span⟩
  | .halt span, b, _ => b = ⟨[], .halt, span⟩

def Stmt.AllLowered (G : BlockGraph) (n : Nat) : List Stmt → Block → Block → Prop
  | [], b, b' => b = b'
  | stmt :: rest, b, b' => ∃ c, stmt.Lowered G n b c ∧ Stmt.AllLowered G n rest c b'

end

end Typed

namespace Lower

open Typed (Triple Value)

/-- The state that an action leaves. -/
def after {α : Type} (act : Build α) (s : State) : State :=
  (act.run s).2

theorem run_bind {α β : Type} {act : Build α} {s s' : State} {x : α} (h : act.run s = (x, s'))
    (f : α → Build β) : (act >>= f).run s = (f x).run s' := by
  rw [StateT.run_bind, h]
  rfl

/-- Conditions have been kept. -/
def State.keeping (s : State) (span : Span) (conditions : List Scalar) : State :=
  { s with
    steps := (Typed.keeps span s.localCount conditions).reverse ++ s.steps
    localCount := s.localCount + conditions.length }

theorem State.keeping_keeping (s : State) (span : Span) (xs ys : List Scalar) :
    (s.keeping span xs).keeping span ys = s.keeping span (xs ++ ys) := by
  simp only [State.keeping, Typed.keeps_append, List.reverse_append, List.append_assoc,
    List.length_append, Nat.add_assoc]

/-- The three numbers of a vector. -/
def components (v : Triple) : Scalar × Scalar × Scalar :=
  (v.component 0, v.component 1, v.component 2)

/-- A vector is lowered to its numbers, once its conditions have been kept. -/
theorem run_lowerTriple (span : Span) (v : Triple) (s : State) :
    (lowerTriple span v).run s =
      (components (v.hoist s.localCount).2, s.keeping span (v.hoist s.localCount).1) := by
  induction v generalizing s with
  | make x y z => rfl
  | inputSlots first => rfl
  | localSlots first => rfl
  | select condition a b iha ihb =>
    have hchoice {s s' : State} {c : Scalar}
        (hcondition : (keepImpure span condition).run s = (c, s')) :
        (lowerTriple span (.select condition a b)).run s =
          let x := a.hoist s'.localCount
          let y := b.hoist (s'.localCount + x.1.length)
          (components (.select c x.2 y.2), s'.keeping span (x.1 ++ y.1)) := by
      rw [lowerTriple_select, run_bind hcondition, run_bind (iha s'), run_bind (ihb _)]
      dsimp only
      rw [← State.keeping_keeping]
      rfl
    rw [Triple.hoist]
    split
    · next hpure => exact hchoice (by rw [keepImpure, if_pos hpure]; rfl)
    · next himpure =>
      have hkept : (keepImpure span condition).run s =
          (.localSlot s.localCount, s.keeping span [condition]) := by
        rw [keepImpure, if_neg himpure]
        rfl
      rw [hchoice hkept]
      dsimp only
      rw [State.keeping_keeping]
      rfl

/-- A value is stored by its steps, and nothing else changes. -/
theorem after_store (span : Span) (set : Nat → Scalar → Step) (slot : Nat) (v : Value) (s : State) :
    ∃ n, s.localCount ≤ n ∧
      after (do store span set slot (← lowerValue span v)) s =
        { s with
          steps := (v.stores span set slot s.localCount).reverse ++ s.steps
          localCount := n } := by
  cases v with
  | number e | bool e | string e => exact ⟨_, Nat.le_refl _, rfl⟩
  | vector v =>
    refine ⟨s.localCount + (v.hoist s.localCount).1.length, Nat.le_add_right .., ?_⟩
    have hvalue : (lowerValue span (.vector v)).run s =
        ([(v.hoist s.localCount).2.component 0, (v.hoist s.localCount).2.component 1,
          (v.hoist s.localCount).2.component 2], s.keeping span (v.hoist s.localCount).1) := by
      rw [lowerValue, run_bind (run_lowerTriple span v s)]
      rfl
    rw [after, run_bind hvalue, Value.stores, List.reverse_append, List.append_assoc]
    rfl

/-! ## Blocks as they grow -/

/-- The block of a number, as far as it has been filled. -/
def State.block (s : State) (i : Nat) : Block :=
  s.blocks.getD i {}

/-- Blocks have been added. Of those that were there, only the current one may have been filled; the
new current one is the same or has been added. -/
structure Grows (s s' : State) : Prop where
  size : s.blocks.size ≤ s'.blocks.size
  current : s'.current = s.current ∨ s.blocks.size ≤ s'.current
  inside : s'.current < s'.blocks.size
  block : ∀ i < s.blocks.size, i ≠ s.current → s'.block i = s.block i
  locals : s.localCount ≤ s'.localCount

/-- A graph has the blocks that were filled on the way from one state to another. -/
def Realizes (G : BlockGraph) (s s' : State) : Prop :=
  ∀ i, i = s.current ∨ s.blocks.size ≤ i → i < s'.blocks.size → i ≠ s'.current →
    G.block i = s'.block i

/-- What is left of the current block in the finished graph. -/
def Open (G : BlockGraph) (s : State) (b : Block) : Prop :=
  G.block s.current = b.prepend s.steps.reverse

variable {G : BlockGraph} {s s' s'' : State} {b b' : Block}

theorem Grows.trans (h : Grows s s') (h' : Grows s' s'') : Grows s s'' where
  size := Nat.le_trans h.size h'.size
  current := by
    rcases h'.current with heq | hle
    · exact heq ▸ h.current
    · exact .inr (Nat.le_trans h.size hle)
  inside := h'.inside
  block i hi hne := by
    have hne' : i ≠ s'.current := by
      rcases h.current with heq | hle
      · exact heq ▸ hne
      · exact Nat.ne_of_lt (Nat.lt_of_lt_of_le hi hle)
    rw [h'.block i (Nat.lt_of_lt_of_le hi h.size) hne', h.block i hi hne]
  locals := Nat.le_trans h.locals h'.locals

theorem Realizes.right (h : Grows s s') (hG : Realizes G s s'') : Realizes G s' s'' := by
  intro i hi
  refine hG i ?_
  rcases hi with rfl | hi
  · exact h.current
  · exact .inr (Nat.le_trans h.size hi)

theorem Realizes.left (h' : Grows s' s'') (hG : Realizes G s s'') : Realizes G s s' := by
  intro i hi hlt hne
  have hne' : i ≠ s''.current := by
    rcases h'.current with heq | hle
    · exact heq ▸ hne
    · exact Nat.ne_of_lt (Nat.lt_of_lt_of_le hlt hle)
  rw [hG i hi (Nat.lt_of_lt_of_le hlt h'.size) hne', h'.block i hlt hne]

/-- An action grows the blocks, and its code stands in every graph that has them. -/
structure Placed (G : BlockGraph) (R : Block → Block → Prop) (act : Build Unit) (s : State) :
    Prop where
  grows : Grows s (after act s)
  code : ∀ {b'}, Realizes G s (after act s) → Open G (after act s) b' → ∃ b, Open G s b ∧ R b b'

variable {R : Block → Block → Prop} {act : Build Unit} {count : Nat} {exit : Exit} {span : Span}

theorem block_leave (hs : s.current < s.blocks.size) (span : Span) (exit : Exit) (i : Nat) :
    (after (leave span exit) s).block i =
      if i = s.current then ⟨s.steps.reverse, exit, span⟩ else s.block i := by
  show (s.blocks.setIfInBounds s.current ⟨s.steps.reverse, exit, span⟩).getD i {} = _
  rw [Array.getD_eq_getD_getElem?, Array.getElem?_setIfInBounds, State.block,
    Array.getD_eq_getD_getElem?]
  by_cases h : i = s.current
  · subst h
    rw [if_pos rfl, if_pos hs, if_pos rfl]
    rfl
  · rw [if_neg (Ne.symm h), if_neg h]

theorem block_newBlock (s : State) (i : Nat) : (after newBlock s).block i = s.block i := by
  show (s.blocks.push {}).getD i {} = s.blocks.getD i {}
  rw [Array.getD_eq_getD_getElem?, Array.getD_eq_getD_getElem?, Array.getElem?_push]
  split
  · next h =>
    rw [h, Array.getElem?_eq_none (Nat.le_refl _)]
    rfl
  · rfl

theorem Placed.ofSteps (code : List (Step × Span)) {n : Nat} (hs : s.current < s.blocks.size)
    (hn : s.localCount ≤ n)
    (hact : after act s = { s with steps := code.reverse ++ s.steps, localCount := n })
    (hR : ∀ b', R (b'.prepend code) b') : Placed G R act s := by
  refine ⟨?_, fun {b'} _ hopen => ⟨b'.prepend code, ?_, hR b'⟩⟩
  · rw [hact]
    exact ⟨Nat.le_refl _, .inl rfl, hs, fun _ _ _ => rfl, hn⟩
  · rw [hact] at hopen
    refine hopen.trans ?_
    simp only [Block.prepend, List.reverse_append, List.reverse_reverse, List.append_assoc]

theorem Placed.mono {R' : Block → Block → Prop} (h : Placed G R act s)
    (hR : ∀ b b', R b b' → R' b b') : Placed G R' act s := by
  refine ⟨h.grows, fun hG hopen => ?_⟩
  obtain ⟨b, hb, hlowered⟩ := h.code hG hopen
  exact ⟨b, hb, hR b _ hlowered⟩

/-- One action after another. -/
theorem Placed.seq {R' : Block → Block → Prop} {act' : Build Unit} (h : Placed G R act s)
    (h' : Placed G R' act' (after act s)) :
    Placed G (fun b b' => ∃ c, R b c ∧ R' c b') (do act; act') s := by
  refine ⟨h.grows.trans h'.grows, fun {b'} hG hopen => ?_⟩
  obtain ⟨c, hc, hR'⟩ := h'.code (hG.right h.grows) hopen
  obtain ⟨b, hb, hR⟩ := h.code (hG.left h'.grows) hc
  exact ⟨b, hb, c, hR, hR'⟩

theorem size_leave (s : State) (span : Span) (exit : Exit) :
    (after (leave span exit) s).blocks.size = s.blocks.size :=
  Array.size_setIfInBounds

theorem size_newBlock (s : State) : (after newBlock s).blocks.size = s.blocks.size + 1 :=
  Array.size_push ..

/-- The current block has been left, and new blocks have been set aside before that. -/
structure Opens (s s₀ : State) (count : Nat) (b : Block) : Prop where
  size : s₀.blocks.size = s.blocks.size + count
  block : ∀ i, s₀.block i = if i = s.current then b.prepend s.steps.reverse else s.block i
  steps : s₀.steps = []
  locals : s₀.localCount = s.localCount

theorem Opens.ofLeave (hs : s.current < s.blocks.size) (exit : Exit) (span : Span) :
    Opens s (after (leave span exit) s) 0 ⟨[], exit, span⟩ where
  size := size_leave ..
  block i := by rw [block_leave hs, Block.prepend, List.append_nil]
  steps := rfl
  locals := rfl

theorem Opens.newBlock {s₀ : State} (h : Opens (after newBlock s) s₀ count b) :
    Opens s s₀ (count + 1) b where
  size := by rw [h.size, size_newBlock, Nat.add_right_comm, Nat.add_assoc]
  block i := by rw [h.block, block_newBlock]; rfl
  steps := h.steps
  locals := h.locals

theorem Opens.step {s₀ : State} {st : Step} (h : Opens (after (step span st) s) s₀ count b) :
    Opens s s₀ count (b.prepend [(st, span)]) where
  size := h.size
  block i := by
    rw [h.block]
    show (if i = s.current then b.prepend ((st, span) :: s.steps).reverse else s.block i) = _
    rw [List.reverse_cons, Block.prepend, List.append_assoc]
    rfl
  steps := h.steps
  locals := h.locals

theorem inside_newBlock (hs : s.current < s.blocks.size) :
    (after newBlock s).current < (after newBlock s).blocks.size := by
  rw [size_newBlock]
  exact Nat.lt_succ_of_lt hs

/-- Some of the blocks that were there have been filled, and others have been added. -/
structure Fills (s s' : State) (filled : List Nat) : Prop where
  size : s.blocks.size ≤ s'.blocks.size
  block : ∀ i < s.blocks.size, i ∉ filled → s'.block i = s.block i
  steps : s'.steps = []
  locals : s.localCount ≤ s'.localCount

/-- A graph has the blocks that have been filled. -/
def Has (G : BlockGraph) (s s' : State) (filled : List Nat) : Prop :=
  ∀ i, i ∈ filled ∨ s.blocks.size ≤ i → i < s'.blocks.size → G.block i = s'.block i

section

variable {filled filled' : List Nat}

theorem Fills.refl (h : s.steps = []) : Fills s s [] :=
  ⟨Nat.le_refl _, fun _ _ _ => rfl, h, Nat.le_refl _⟩

theorem Fills.trans (h : Fills s s' filled) (h' : Fills s' s'' filled') :
    Fills s s'' (filled ++ filled') where
  size := Nat.le_trans h.size h'.size
  block i hi hmem := by
    obtain ⟨hmem, hmem'⟩ := not_or.1 (mt List.mem_append.2 hmem)
    rw [h'.block i (Nat.lt_of_lt_of_le hi h.size) hmem', h.block i hi hmem]
  steps := h'.steps
  locals := Nat.le_trans h.locals h'.locals

theorem Has.right (h : Fills s s' filled) (hG : Has G s s'' (filled ++ filled')) :
    Has G s' s'' filled' := fun i hi =>
  hG i (hi.imp (List.mem_append_right _) (Nat.le_trans h.size))

theorem Has.left (h' : Fills s' s'' filled') (hG : Has G s s'' (filled ++ filled'))
    (hapart : ∀ i ∈ filled', i < s.blocks.size ∧ i ∉ filled) : Has G s s' filled := by
  intro i hi hlt
  have hmem : i ∉ filled' := fun hmem =>
    hi.elim (hapart i hmem).2 (Nat.not_le.2 (hapart i hmem).1)
  rw [hG i (hi.imp_left (List.mem_append_left _)) (Nat.lt_of_lt_of_le hlt h'.size),
    h'.block i hlt hmem]

/-- A block is entered, and the last block of what is lowered there is left. -/
theorem Placed.fills {i : Nat} (h : Placed G R act (after (enter i) s)) (span : Span)
    (exit : Exit) : Fills s (after (do enter i; act; leave span exit) s) [i] := by
  let s' := after act (after (enter i) s)
  refine ⟨?_, fun j hj hmem => ?_, rfl, h.grows.locals⟩
  · exact Nat.le_trans h.grows.size (Nat.le_of_eq (size_leave s' span exit).symm)
  · have hi : j ≠ i := fun heq => hmem (List.mem_singleton.2 heq)
    have hne : j ≠ s'.current := by
      rcases h.grows.current with heq | hle
      · exact heq ▸ hi
      · exact Nat.ne_of_lt (Nat.lt_of_lt_of_le hj hle)
    exact (block_leave h.grows.inside span exit j).trans ((if_neg hne).trans (h.grows.block j hj hi))

theorem Placed.code_of_has {i : Nat} (h : Placed G R act (after (enter i) s)) (hsteps : s.steps = [])
    (hG : Has G s (after (do enter i; act; leave span exit) s) [i]) :
    R (G.block i) ⟨[], exit, span⟩ := by
  let s' := after act (after (enter i) s)
  have hblock {j : Nat} (hj : j = i ∨ s.blocks.size ≤ j) (hlt : j < s'.blocks.size) :
      G.block j = if j = s'.current then ⟨s'.steps.reverse, exit, span⟩ else s'.block j :=
    (hG j (hj.imp_left List.mem_singleton.2) (by rwa [← size_leave s' span exit] at hlt)).trans
      (block_leave h.grows.inside span exit j)
  have hend : Open G s' ⟨[], exit, span⟩ := by
    refine (hblock h.grows.current h.grows.inside).trans ((if_pos rfl).trans ?_)
    simp only [Block.prepend, List.append_nil]
  obtain ⟨b, hopen, hlowered⟩ :=
    h.code (fun j hj hlt hne => (hblock hj hlt).trans (if_neg hne)) hend
  rw [Open, show (after (enter i) s).steps = [] from hsteps] at hopen
  exact (show G.block i = b from hopen) ▸ hlowered

/-- The current block is left, other blocks are filled, and one that has been set aside becomes
current. -/
theorem Placed.ofFills {t : State} {m : Nat} (hs : s.current < s.blocks.size)
    (hopens : Opens s s' count b) (hfills : Fills s' t filled)
    (hact : after act s = after (enter m) t)
    (hfilled : ∀ i ∈ filled, s.blocks.size ≤ i ∧ i ≠ m)
    (hm : s.blocks.size ≤ m ∧ m < s'.blocks.size)
    (hR : Has G s' t filled → R b (G.block m)) : Placed G R act s := by
  have hsize := hopens.size
  have hle := hfills.size
  have hblock : ∀ i < s.blocks.size, t.block i = s'.block i := fun i hi =>
    hfills.block i (by omega) fun hmem => by
      have := hfilled i hmem
      omega
  refine ⟨?_, ?_⟩
  · rw [hact]
    refine ⟨(by omega : _ ≤ t.blocks.size), .inr hm.1, Nat.lt_of_lt_of_le hm.2 hle,
      fun i hi hne => ?_, Nat.le_trans (Nat.le_of_eq hopens.locals.symm) hfills.locals⟩
    exact (hblock i hi).trans ((hopens.block i).trans (if_neg hne))
  · rw [hact]
    intro b' hG hopen
    refine ⟨b, ?_, ?_⟩
    · have hne : s.current ≠ m := by omega
      rw [Open, hG s.current (.inl rfl) (show _ < t.blocks.size by omega) hne]
      exact (hblock _ hs).trans ((hopens.block _).trans (if_pos rfl))
    · have hb' : G.block m = b' := hopen.trans (by
        rw [show (after (enter m) t).steps = [] from hfills.steps]
        rfl)
      rw [← hb']
      refine hR fun i hi hlt => hG i (.inr ?_) hlt ?_
      · exact hi.elim (fun hmem => (hfilled i hmem).1) fun hi => by omega
      · exact hi.elim (fun hmem => (hfilled i hmem).2) fun hi (h : i = m) => by omega

end

/-! ## Statements and flows -/

/-- The code of statements stands wherever they are lowered. -/
def Places (G : BlockGraph) (n : Nat) (ts : List Typed.Stmt) : Prop :=
  ∀ {s : State}, s.current < s.blocks.size → n ≤ s.localCount →
    Placed G (Typed.Stmt.AllLowered G n ts) (lowerStmts ts) s

section

variable {n : Nat} {thenBody body : List Typed.Stmt} (hs : s.current < s.blocks.size)
  (hn : n ≤ s.localCount) (span : Span)

include hs

theorem placed_leaveForGood (hR : R ⟨[], exit, span⟩ (G.block s.blocks.size)) :
    Placed G R (leaveForGood span exit) s := by
  have hleave := Opens.ofLeave hs exit span
  let s₀ := after newBlock (after (leave span exit) s)
  have hsize : s₀.blocks.size = s.blocks.size + 1 :=
    (size_newBlock _).trans (congrArg (· + 1) hleave.size)
  have hopens : Opens s s₀ 1 ⟨[], exit, span⟩ :=
    ⟨hsize, fun i => (block_newBlock ..).trans (hleave.block i), rfl, rfl⟩
  refine .ofFills hs hopens (.refl rfl) (m := s.blocks.size) ?_ nofun (by omega) fun _ => hR
  show after (enter (after (leave span exit) s).blocks.size) s₀ = _
  rw [size_leave]

theorem placed_wait (seconds : Scalar) :
    Placed G ((Typed.Stmt.wait span seconds).Lowered G n) (lowerStmt (.wait span seconds)) s := by
  have hopens := (Opens.ofLeave (inside_newBlock hs) (.wait seconds s.blocks.size) span).newBlock
  refine .ofFills hs hopens (.refl rfl) (m := s.blocks.size) ?_ nofun ?_ fun _ => ⟨_, rfl, rfl⟩
  · rw [lowerStmt]
    rfl
  · have := hopens.size
    omega

include hn

theorem placed_branch_nil (condition : Scalar) (hthen : Places G n thenBody) :
    Placed G ((Typed.Stmt.branch span condition thenBody []).Lowered G n)
      (lowerStmt (.branch span condition thenBody [])) s := by
  let i := s.blocks.size
  let merge := (after newBlock s).blocks.size
  have hmerge : merge = i + 1 := size_newBlock s
  let s₀ := after (leave span (.branch condition i merge)) (after newBlock (after newBlock s))
  have hopens : Opens s s₀ 2 ⟨[], .branch condition i merge, span⟩ :=
    (Opens.ofLeave (inside_newBlock (inside_newBlock hs)) ..).newBlock.newBlock
  have hsize := hopens.size
  have hthen := hthen (s := after (enter i) s₀) (by omega : i < s₀.blocks.size) (hopens.locals ▸ hn)
  refine .ofFills hs hopens (hthen.fills span (.jump merge)) (m := merge) ?_ ?_ ?_ fun hG => ?_
  · rw [lowerStmt_branch_nil]
    rfl
  · exact List.forall_mem_singleton.2 (by omega)
  · omega
  · exact ⟨i, merge, merge, rfl, rfl, hthen.code_of_has hopens.steps hG, .inr ⟨rfl, rfl⟩⟩

theorem placed_branch_cons (condition : Scalar) {t : Typed.Stmt} {ts : List Typed.Stmt}
    (hthen : Places G n thenBody) (helse : Places G n (t :: ts)) :
    Placed G ((Typed.Stmt.branch span condition thenBody (t :: ts)).Lowered G n)
      (lowerStmt (.branch span condition thenBody (t :: ts))) s := by
  let i := s.blocks.size
  let merge := (after newBlock s).blocks.size
  let j := (after newBlock (after newBlock s)).blocks.size
  have hmerge : merge = i + 1 := size_newBlock s
  have hj : j = merge + 1 := size_newBlock _
  let s₀ := after (leave span (.branch condition i j))
    (after newBlock (after newBlock (after newBlock s)))
  have hopens : Opens s s₀ 3 ⟨[], .branch condition i j, span⟩ := (Opens.ofLeave
    (inside_newBlock (inside_newBlock (inside_newBlock hs))) ..).newBlock.newBlock.newBlock
  have hsize := hopens.size
  have hn₀ : n ≤ s₀.localCount := hopens.locals ▸ hn
  have hthen := hthen (s := after (enter i) s₀) (by omega : i < s₀.blocks.size) hn₀
  let s₁ := after (do enter i; lowerStmts thenBody; leave span (.jump merge)) s₀
  have hfills : Fills s₀ s₁ [i] := hthen.fills ..
  have hle := hfills.size
  have helse := helse (s := after (enter j) s₁) (by omega : j < s₁.blocks.size)
    (Nat.le_trans hn₀ hfills.locals)
  have hfills' := helse.fills span (.jump merge)
  refine .ofFills hs hopens (hfills.trans hfills') (m := merge) ?_ ?_ ?_ fun hG => ?_
  · rw [lowerStmt_branch_cons]
    rfl
  · exact List.forall_mem_cons.2 ⟨by omega, List.forall_mem_singleton.2 (by omega)⟩
  · omega
  · have hapart : ∀ k ∈ [j], k < s₀.blocks.size ∧ k ∉ [i] :=
      List.forall_mem_singleton.2 ⟨by omega, mt List.mem_singleton.1 (by omega)⟩
    exact ⟨i, j, merge, rfl, rfl, hthen.code_of_has hopens.steps (hG.left hfills' hapart),
      .inl (helse.code_of_has hfills.steps (hG.right hfills))⟩

theorem placed_loop (count counter : Nat) (hbody : Places G n body) :
    Placed G ((Typed.Stmt.loop span (count + 1) counter body).Lowered G n)
      (lowerStmt (.loop span (count + 1) counter body)) s := by
  let set : Step := .setLocal counter (.const (Float.ofNat (count + 1)))
  let down : Step := .setLocal counter (Typed.countDown counter)
  let t := after (step span set) s
  let header := t.blocks.size
  let i := (after newBlock t).blocks.size
  let next := (after newBlock (after newBlock t)).blocks.size
  have hheader : header = s.blocks.size := rfl
  have hi : i = header + 1 := size_newBlock t
  have hnext : next = i + 1 := size_newBlock _
  let s₀ := after (leave span (.jump header)) (after newBlock (after newBlock (after newBlock t)))
  have ht : t.current < t.blocks.size := hs
  have hopens : Opens s s₀ 3 ⟨[(set, span)], .jump header, span⟩ := (Opens.ofLeave
    (inside_newBlock (inside_newBlock (inside_newBlock ht))) ..).newBlock.newBlock.newBlock.step
  have hsize := hopens.size
  have hask : Placed G Eq (pure ()) (after (enter header) s₀) :=
    .ofSteps [] (by omega : header < s₀.blocks.size) (Nat.le_refl _) rfl fun _ => rfl
  let s₁ := after (do enter header; leave span (.branch (Typed.isRunning counter) i next)) s₀
  have hfills : Fills s₀ s₁ [header] := hask.fills ..
  have hle := hfills.size
  have hdown : Placed G (fun b b' => b = b'.prepend [(down, span)]) (step span down)
      (after (enter i) s₁) :=
    .ofSteps [_] (by omega : i < s₁.blocks.size) (Nat.le_refl _) rfl fun _ => rfl
  have hbody := hdown.seq (hbody hdown.grows.inside
    (Nat.le_trans (hopens.locals ▸ hn) hfills.locals))
  have hfills' := hbody.fills span (.jump header)
  refine .ofFills hs hopens (hfills.trans hfills') (m := next) ?_ ?_ (by omega) fun hG => ?_
  · rw [lowerStmt_loop_succ]
    rfl
  · exact List.forall_mem_cons.2 ⟨by omega, List.forall_mem_singleton.2 (by omega)⟩
  · have hapart : ∀ k ∈ [i], k < s₀.blocks.size ∧ k ∉ [header] :=
      List.forall_mem_singleton.2 ⟨by omega, mt List.mem_singleton.1 (by omega)⟩
    obtain ⟨first, hfirst, hlowered⟩ := hbody.code_of_has hfills.steps (hG.right hfills)
    exact .inr ⟨Nat.succ_ne_zero count, header, i, next, first, rfl,
      hask.code_of_has hopens.steps (hG.left hfills' hapart), hfirst, rfl, hlowered⟩

end

mutual

/-- The code of a statement stands where it has been lowered to. -/
theorem lowerStmt_placed (G : BlockGraph) {n : Nat} (t : Typed.Stmt) {s : State}
    (hs : s.current < s.blocks.size) (hn : n ≤ s.localCount) :
    Placed G (t.Lowered G n) (lowerStmt t) s := by
  cases t with
  | setLocal span slot value =>
    rw [lowerStmt]
    obtain ⟨k, hk, hact⟩ := after_store span .setLocal slot value s
    exact .ofSteps _ hs hk hact fun b' => ⟨s.localCount, hn, rfl⟩
  | setOutput span slot value =>
    rw [lowerStmt]
    obtain ⟨k, hk, hact⟩ := after_store span .setOutput slot value s
    exact .ofSteps _ hs hk hact fun b' => ⟨s.localCount, hn, rfl⟩
  | intent span valueSlot urgencySlot value urgency =>
    rw [lowerStmt]
    obtain ⟨k, hk, hact⟩ := after_store span .setOutput valueSlot value s
    have hvalue : Placed G (fun b b' => ∃ kept, n ≤ kept ∧
        b = b'.prepend (value.stores span .setOutput valueSlot kept)) _ s :=
      .ofSteps _ hs hk hact fun b' => ⟨s.localCount, hn, rfl⟩
    have hurgency : Placed G (fun b b' => b = b'.prepend [(.setOutput urgencySlot urgency, span)])
        (step span (.setOutput urgencySlot urgency)) _ :=
      .ofSteps [(.setOutput urgencySlot urgency, span)] hvalue.grows.inside (Nat.le_refl _) rfl
        fun b' => rfl
    refine (hvalue.seq hurgency).mono ?_
    rintro b b' ⟨c, ⟨kept, hkept, rfl⟩, rfl⟩
    exact ⟨kept, hkept, rfl⟩
  | branch span condition thenBody elseBody =>
    cases elseBody with
    | nil => exact placed_branch_nil hs hn span condition (lowerStmts_placed G thenBody)
    | cons t ts =>
      exact placed_branch_cons hs hn span condition (lowerStmts_placed G thenBody)
        (lowerStmts_placed G (t :: ts))
  | loop span count counter body =>
    cases count with
    | zero =>
      rw [lowerStmt_loop_zero]
      exact .ofSteps [] hs (Nat.le_refl _) rfl fun b' => .inl ⟨rfl, rfl⟩
    | succ count => exact placed_loop hs hn span count counter (lowerStmts_placed G body)
  | call span flow =>
    rw [lowerStmt]
    exact .ofSteps [(.call flow, span)] hs (Nat.le_refl _) rfl fun b' => by rw [Typed.Stmt.Lowered]
  | goto span flow | continuation span point defaultFlow | halt span =>
    rw [lowerStmt]
    exact placed_leaveForGood hs span (by rw [Typed.Stmt.Lowered])
  | wait span seconds => exact placed_wait hs span seconds

/-- The code of statements leads from what is left of one block to what is left of another. -/
theorem lowerStmts_placed (G : BlockGraph) {n : Nat} (ts : List Typed.Stmt) : Places G n ts := by
  intro s hs hn
  cases ts with
  | nil =>
    rw [lowerStmts]
    exact .ofSteps [] hs (Nat.le_refl _) rfl fun b' => by rw [Typed.Stmt.AllLowered]; rfl
  | cons t rest =>
    rw [lowerStmts]
    have hhead := lowerStmt_placed G t hs hn
    exact hhead.seq (lowerStmts_placed G rest hhead.grows.inside (Nat.le_trans hn hhead.grows.locals))

end

/-- Lowering flows fills their own blocks and new ones. Each flow ends by going back. -/
theorem lowerFlows_placed {n : Nat} (flows : List Typed.Flow) (index : Nat) {s : State}
    (hsteps : s.steps = []) (hsize : index + flows.length ≤ s.blocks.size) (hn : n ≤ s.localCount) :
    let s' := after (lowerFlows index flows) s
    s.blocks.size ≤ s'.blocks.size ∧
      (∀ i < s.blocks.size, i < index ∨ index + flows.length ≤ i → s'.block i = s.block i) ∧
      ∀ G : BlockGraph, (∀ i, index ≤ i → i < s'.blocks.size → G.block i = s'.block i) →
        ∀ k flow, flows[k]? = some flow →
          Typed.Stmt.AllLowered G n flow.body (G.block (index + k)) ⟨[], .ret, flow.span⟩ := by
  induction flows generalizing index s with
  | nil =>
    refine ⟨Nat.le_refl _, fun _ _ _ => rfl, ?_⟩
    intro G _ k flow hk
    cases hk
  | cons flow rest ih =>
    rw [List.length_cons] at hsize ⊢
    have hplaced (G : BlockGraph) := lowerStmts_placed G flow.body
      (s := after (enter index) s) (by omega : index < s.blocks.size) hn
    let s₁ := after (do enter index; lowerStmts flow.body; leave flow.span .ret) s
    have hfills : Fills s s₁ [index] := (hplaced ⟨#[], [], #[], 0⟩).fills ..
    have hle := hfills.size
    obtain ⟨hle', hblock, hcode⟩ := ih (index + 1) (s := s₁) rfl (by omega)
      (Nat.le_trans hn hfills.locals)
    refine ⟨Nat.le_trans hle hle', fun i hi hother => ?_, fun G hG k t hk => ?_⟩
    · refine (hblock i (by omega) (by omega)).trans (hfills.block i hi ?_)
      exact mt List.mem_singleton.1 (by omega)
    · cases k with
      | zero =>
        cases hk
        refine (hplaced G).code_of_has hsteps fun i hi (hlt : i < s₁.blocks.size) => ?_
        have hi : i = index ∨ s.blocks.size ≤ i := hi.imp_left List.mem_singleton.1
        exact (hG i (by omega) (Nat.lt_of_lt_of_le hlt hle')).trans
          (hblock i hlt (by omega))
      | succ k =>
        rw [Nat.add_succ, ← Nat.succ_add]
        exact hcode G (fun i hi hlt => hG i (by omega) hlt) k t hk

end Lower

/-- Each flow of a document stands at its own block. -/
theorem Typed.Program.lowered {p : Program} {k : Nat} {flow : Flow} (hk : p.flows[k]? = some flow) :
    Stmt.AllLowered p.toBlocks p.localCount flow.body (p.toBlocks.block k)
      ⟨[], .ret, flow.span⟩ := by
  obtain ⟨-, -, hcode⟩ := Lower.lowerFlows_placed (n := p.localCount) p.flows 0
    (s := { blocks := Array.replicate p.flows.length {}, localCount := p.localCount }) rfl
    (by simp) (Nat.le_refl _)
  have hlowered := hcode p.toBlocks (fun _ _ _ => rfl) k flow hk
  rwa [Nat.zero_add] at hlowered

end Behavior
