import Behavior.Proofs.Assembled
import Behavior.Proofs.BlockOrder

/-!
Labels for emitted code. Each word of the code of a block graph belongs to a block, and there is one
number of values that the stack has before it. Both can be read off the graph before any code is
emitted. If the blocks are in order, every word has an operand within its table, finds the values it
takes on the stack, and leads to words with the right labels.
-/

namespace Behavior

variable {e d : Scalar}

/-- The block that a word of code belongs to, and how many values the stack has before it. -/
structure Label where
  block : Nat
  depth : Nat

/-! ## Labels of a graph -/

/-- Labels of the code of an expression in a block, with `k` values on the stack before. -/
def Scalar.labels (i k : Nat) : Scalar → List Label
  | .const _ | .inputSlot _ | .localSlot _ | .random => [⟨i, k⟩]
  | .unary _ a => a.labels i k ++ [⟨i, k + 1⟩]
  | .binary _ a b => a.labels i k ++ (b.labels i (k + 1) ++ [⟨i, k + 2⟩])
  | .ternary _ a b c =>
    a.labels i k ++ (b.labels i (k + 1) ++ (c.labels i (k + 2) ++ [⟨i, k + 3⟩]))
  | .select c a b =>
    c.labels i k ++ ⟨i, k + 1⟩ :: (a.labels i k ++ ⟨i, k + 1⟩ :: b.labels i k)

/-- How deep the stack gets while an expression is evaluated. -/
def Scalar.stackNeed : Scalar → Nat
  | .const _ | .inputSlot _ | .localSlot _ | .random => 1
  | .unary _ a => a.stackNeed
  | .binary _ a b => max a.stackNeed (b.stackNeed + 1)
  | .ternary _ a b c => max a.stackNeed (max (b.stackNeed + 1) (c.stackNeed + 2))
  | .select c a b => max c.stackNeed (max a.stackNeed b.stackNeed)

def Step.labels (i : Nat) : Step → List Label
  | .setLocal _ value | .setOutput _ value => value.labels i 0 ++ [⟨i, 1⟩]
  | .call _ => [⟨i, 0⟩]

/-- Labels of a jump to a block, which is left out if the block comes next. -/
def jumpLabels (i : Nat) (next : Option Nat) (block : Nat) : List Label :=
  if next = some block then [] else [⟨i, 0⟩]

def Exit.labels (i : Nat) (next : Option Nat) : Exit → List Label
  | .jump block => jumpLabels i next block
  | .branch condition thenBlock elseBlock =>
    condition.labels i 0 ++ ⟨i, 1⟩ ::
      if next = some elseBlock then [] else jumpLabels i next thenBlock
  | .wait seconds block => seconds.labels i 0 ++ ⟨i, 1⟩ :: jumpLabels i next block
  | .ret | .halt | .pause _ _ => [⟨i, 0⟩]

/-- Labels of the code of a block, or of what is left of it. -/
def Block.labels (i : Nat) (next : Option Nat) (b : Block) : List Label :=
  b.steps.flatMap (·.1.labels i) ++ b.exit.labels i next

/-- Labels of the code of blocks, one after the other. -/
def BlockGraph.labels (g : BlockGraph) : List Nat → List Label
  | [] => []
  | block :: rest => (g.block block).labels block rest.head? ++ g.labels rest

theorem Scalar.length_labels (e : Scalar) (i k : Nat) : (e.labels i k).length = e.codeSize := by
  induction e generalizing k with
  | const x => rfl
  | inputSlot slot => rfl
  | localSlot slot => rfl
  | random => rfl
  | unary f a iha => simp only [labels, codeSize, List.length_append, iha, List.length_singleton]
  | binary f a b iha ihb =>
    simp only [labels, codeSize, List.length_append, iha, ihb, List.length_singleton]
    omega
  | ternary f a b c iha ihb ihc =>
    simp only [labels, codeSize, List.length_append, iha, ihb, ihc, List.length_singleton]
    omega
  | select c a b ihc iha ihb =>
    simp only [labels, codeSize, List.length_append, List.length_cons, iha, ihb, ihc]
    omega

/-- The code of an expression begins with the stack as it was. -/
theorem Scalar.head?_labels (e : Scalar) (i k : Nat) (rest : List Label) :
    (e.labels i k ++ rest).head? = some ⟨i, k⟩ := by
  induction e generalizing rest with
  | const x => rfl
  | inputSlot slot => rfl
  | localSlot slot => rfl
  | random => rfl
  | unary f a iha | binary f a b iha ihb | ternary f a b c iha ihb ihc =>
    rw [labels, List.append_assoc, iha]
  | select c a b ihc iha ihb => rw [labels, List.append_assoc, ihc]

theorem Scalar.stackNeed_pos (e : Scalar) : 0 < e.stackNeed := by
  induction e with
  | unary f a iha => exact iha
  | _ => simp only [stackNeed]; omega

theorem Step.head?_labels (s : Step) (i : Nat) (rest : List Label) :
    (s.labels i ++ rest).head? = some ⟨i, 0⟩ := by
  cases s with
  | setLocal slot value | setOutput slot value => rw [labels, List.append_assoc, value.head?_labels]
  | call block => rfl

/-- What is left of a block begins with an empty stack, unless it is a jump to the block that comes
next. -/
theorem Block.head?_labels (b : Block) (i : Nat) (next : Option Nat) (rest : List Label) :
    (b.labels i next ++ rest).head? = some ⟨i, 0⟩ ∨
      ∃ block, b.exit = .jump block ∧ next = some block ∧ b.labels i next = [] := by
  obtain ⟨steps, exit, span⟩ := b
  cases steps with
  | cons step steps =>
    left
    rw [labels, List.flatMap_cons, List.append_assoc, List.append_assoc, Step.head?_labels]
  | nil =>
    cases exit with
    | jump block =>
      by_cases hnext : next = some block
      · exact .inr ⟨block, rfl, hnext, if_pos hnext⟩
      · left
        show (jumpLabels i next block ++ rest).head? = _
        rw [jumpLabels, if_neg hnext]
        rfl
    | branch condition thenBlock elseBlock =>
      left
      show (condition.labels i 0 ++ _ ++ rest).head? = _
      rw [List.append_assoc, condition.head?_labels]
    | wait seconds block =>
      left
      show (seconds.labels i 0 ++ _ ++ rest).head? = _
      rw [List.append_assoc, seconds.head?_labels]
    | ret | halt | pause point defaultBlock => exact .inl rfl

/-- The expressions that have code. -/
def BlockGraph.values (g : BlockGraph) : List Scalar :=
  g.layout.flatMap fun i => (g.block i).values

theorem BlockGraph.mem_values {g : BlockGraph} {i : Nat} (hi : i ∈ g.layout)
    (he : e ∈ (g.block i).values) : e ∈ g.values :=
  List.mem_flatMap.2 ⟨i, hi, he⟩

/-- Some expression of a block needs a stack of the given depth, unless that is zero. -/
def Block.Needs (b : Block) (deep : Nat) : Prop :=
  deep = 0 ∨ ∃ e ∈ b.values, deep ≤ e.stackNeed

/-! ## Labels and places -/

theorem Word.encode_inj {op op' : Opcode} {operand operand' : Nat} (h : operand ≤ maxOperand)
    (h' : operand' ≤ maxOperand) (heq : encode op operand = encode op' operand') :
    op = op' ∧ operand = operand' := by
  have hop := congrArg opcode? heq
  have hoperand := congrArg Word.operand heq
  rw [opcode?_encode op h, opcode?_encode op' h'] at hop
  rw [operand_encode op h, operand_encode op' h'] at hoperand
  exact ⟨Option.some.inj hop, hoperand⟩

namespace Assembly

variable {t : State} {points : Array Typed.Point} {next : Option Nat} {pos stop i : Nat}
  {layout : List Nat} {L rest : List Label}
variable {steps : List (Step × Span)} {block k operand depth r : Nat} {exit : Exit} {l : Label}
  {b : Block} {s : Step}

theorem StepAt.stop_eq (h : StepAt t pos stop s) (i : Nat) : stop = pos + (s.labels i).length := by
  cases s with
  | setLocal slot value | setOutput slot value =>
    rw [Step.labels, List.length_append, value.length_labels]
    exact h.2.2
  | call block => exact h.2

theorem StepsAt.stop_eq (h : StepsAt t pos stop steps) (i : Nat) :
    stop = pos + (steps.flatMap (·.1.labels i)).length := by
  induction steps generalizing pos with
  | nil => exact h
  | cons step rest ih =>
    obtain ⟨mid, hstep, hrest⟩ := h
    rw [List.flatMap_cons, List.length_append, ih hrest, hstep.stop_eq i, Nat.add_assoc]

theorem JumpAt.stop_eq (h : JumpAt t next pos stop block) (i : Nat) :
    stop = pos + (jumpLabels i next block).length := by
  unfold JumpAt at h
  unfold jumpLabels
  split at h
  · next hnext =>
    rw [if_pos hnext]
    exact h
  · next hnext =>
    rw [if_neg hnext]
    exact h.2

theorem ExitAt.stop_eq (h : ExitAt t points next pos stop exit) (i : Nat) :
    stop = pos + (exit.labels i next).length := by
  cases exit with
  | jump block => exact JumpAt.stop_eq h i
  | branch condition thenBlock elseBlock =>
    obtain ⟨-, hlinks⟩ := h
    rw [Exit.labels, List.length_append, condition.length_labels, List.length_cons]
    split at hlinks
    · next hnext =>
      rw [if_pos hnext]
      exact hlinks.2
    · next hnext =>
      rw [if_neg hnext, hlinks.2.stop_eq i]
      omega
  | ret | halt => exact h.2
  | wait seconds block =>
    rw [Exit.labels, List.length_append, seconds.length_labels, List.length_cons, h.2.2.stop_eq i]
    omega
  | pause point defaultBlock =>
    obtain ⟨-, -, -, hstop⟩ := h
    exact hstop

theorem BlockAt.stop_eq (h : BlockAt t points next pos stop b) (i : Nat) :
    stop = pos + (b.labels i next).length := by
  obtain ⟨mid, hsteps, hexit⟩ := h
  rw [hexit.stop_eq i, hsteps.stop_eq i, Block.labels, List.length_append, Nat.add_assoc]

/-! ## What is emitted -/

theorem emitBlocks_cons (g : BlockGraph) (points : Array Typed.Point) (block : Nat)
    (rest : List Nat) (s : State) :
    after (emitBlocks g points (block :: rest)) s =
      after (emitBlocks g points rest) (after (emitBlock g points block rest.head?) s) :=
  rfl

theorem size_emitBlocks (g : BlockGraph) (points : Array Typed.Point) (layout : List Nat)
    (s : State) :
    (after (emitBlocks g points layout) s).code.size =
      s.code.size + (g.labels layout).length := by
  induction layout generalizing s with
  | nil => rfl
  | cons block rest ih =>
    obtain ⟨-, -, hblock, -⟩ := emitBlock_placed g points block rest.head? s
    rw [emitBlocks_cons, ih, hblock.stop_eq block, BlockGraph.labels, List.length_append,
      Nat.add_assoc]

theorem starts_emitBlocks_of_not_mem (g : BlockGraph) (points : Array Typed.Point) (hi : i ∉ layout)
    (s : State) :
    (after (emitBlocks g points layout) s).starts[i]? = s.starts[i]? := by
  induction layout generalizing s with
  | nil => rfl
  | cons block rest ih =>
    rw [List.mem_cons, not_or] at hi
    obtain ⟨-, -, -, hstarts⟩ := emitBlock_placed g points block rest.head? s
    rw [emitBlocks_cons, ih hi.2, hstarts, Array.getElem?_setIfInBounds_ne (Ne.symm hi.1)]

/-- Each block of the layout has a start, from which the labels are those of the block and of the
blocks after it. -/
theorem starts_emitBlocks (g : BlockGraph) (points : Array Typed.Point) (hi : i ∈ layout)
    {s : State} (hlt : i < s.starts.size) :
    ∃ start rest, (after (emitBlocks g points layout) s).starts[i]? = some (some start) ∧
      i :: rest <:+ layout ∧
      start + (g.labels (i :: rest)).length = (after (emitBlocks g points layout) s).code.size := by
  induction layout generalizing s with
  | nil => cases hi
  | cons block rest ih =>
    obtain ⟨-, -, -, hstarts⟩ := emitBlock_placed g points block rest.head? s
    -- a block that occurs again later starts there
    by_cases hrest : i ∈ rest
    · obtain ⟨start, rest', hstart, hsuffix, hsize⟩ :=
        ih hrest (s := after (emitBlock g points block rest.head?) s)
          (by rw [hstarts, Array.size_setIfInBounds]; exact hlt)
      exact ⟨start, rest', hstart, hsuffix.trans (List.suffix_cons ..), hsize⟩
    · obtain rfl : i = block := (List.mem_cons.1 hi).resolve_right hrest
      refine ⟨s.code.size, rest, ?_, List.suffix_refl _, (size_emitBlocks ..).symm⟩
      rw [emitBlocks_cons, starts_emitBlocks_of_not_mem g points hrest, hstarts,
        Array.getElem?_setIfInBounds_self_of_lt hlt]

theorem labels_suffix (g : BlockGraph) {layout' : List Nat} (h : layout <:+ layout') :
    g.labels layout <:+ g.labels layout' := by
  obtain ⟨front, rfl⟩ := h
  induction front with
  | nil => exact List.suffix_refl _
  | cons block front ih => exact ih.trans (List.suffix_append ..)

theorem size_emission (g : BlockGraph) (points : Array Typed.Point) :
    (emission g points).code.size = (g.labels g.layout).length := by
  rw [emission, size_emitBlocks]
  exact Nat.zero_add _

theorem start_emission {g : BlockGraph} (points : Array Typed.Point) (hi : i ∈ g.layout)
    (hlt : i < g.blocks.size) :
    ∃ start rest, (emission g points).starts[i]? = some (some start) ∧
      (g.labels g.layout).drop start = g.labels (i :: rest) := by
  have hsize : i < ({ starts := Array.replicate g.blocks.size none } : State).starts.size := by
    rwa [Array.size_replicate]
  obtain ⟨start, rest, hstart, hsuffix, hstop⟩ := starts_emitBlocks g points hi hsize
  refine ⟨start, rest, hstart, ?_⟩
  obtain ⟨front, hfront⟩ := labels_suffix g hsuffix
  have hlength := congrArg List.length hfront
  rw [List.length_append, ← size_emission g points] at hlength
  have hfront_length : front.length = start := by
    rw [emission] at hlength
    omega
  rw [← hfront, ← hfront_length, List.drop_left]

/-- An action that keeps a property of what has been emitted. -/
def Keeps (P : State → Prop) (act : Emit Unit) : Prop :=
  ∀ s, P s → P (after act s)

theorem Keeps.seq {P : State → Prop} {x y : Emit Unit} (hx : Keeps P x) (hy : Keeps P y) :
    Keeps P (do x; y) :=
  fun s hs => hy _ (hx s hs)

/-- A property that emitting code keeps, apart from pauses. -/
structure Steady (P : State → Prop) : Prop where
  item : ∀ item, Keeps P (emitItem item)
  const : ∀ x, Keeps P (emitScalar (.const x))

namespace Steady

variable {P : State → Prop} (hP : Steady P)

include hP

theorem emitScalar (e : Scalar) : Keeps P (emitScalar e) := by
  induction e with
  | const x => exact hP.const x
  | inputSlot _ | localSlot _ | random => exact hP.item _
  | unary f a iha => exact iha.seq (hP.item _)
  | binary f a b iha ihb => exact iha.seq (ihb.seq (hP.item _))
  | ternary f a b c iha ihb ihc => exact iha.seq (ihb.seq (ihc.seq (hP.item _)))
  | select c a b ihc iha ihb =>
    exact ihc.seq fun s hs => ihb _ (hP.item _ _ (iha _ (hP.item _ s hs)))

theorem emitStep (step : Step) : Keeps P (emitStep step) := by
  cases step with
  | setLocal slot value | setOutput slot value => exact (hP.emitScalar value).seq (hP.item _)
  | call block => exact hP.item _

theorem emitJump (next : Option Nat) (block : Nat) : Keeps P (emitJump next block) := by
  unfold Assembly.emitJump
  split
  · exact hP.item _
  · exact fun s hs => hs

theorem emitExit (next : Option Nat) {exit : Exit}
    (hpause : ∀ {point defaultBlock}, exit = .pause point defaultBlock →
      Keeps P (emitPause points point defaultBlock)) : Keeps P (emitExit points next exit) := by
  cases exit with
  | jump block => exact hP.emitJump next block
  | branch condition thenBlock elseBlock =>
    refine (hP.emitScalar condition).seq ?_
    split
    · exact hP.item _
    · exact (hP.item _).seq (hP.emitJump next thenBlock)
  | ret | halt => exact hP.item _
  | wait seconds block =>
    exact (hP.emitScalar seconds).seq ((hP.item _).seq (hP.emitJump next block))
  | pause point defaultBlock => exact hpause rfl

end Steady

/-- A property that only pauses can break. -/
structure Lasting (P : State → Prop) : Prop extends Steady P where
  mark : ∀ span, Keeps P (mark span)
  begin : ∀ block flow? s, P s → P (s.begin block flow?)

namespace Lasting

variable {P : State → Prop} (hP : Lasting P)

include hP

theorem emitSteps (steps : List (Step × Span)) : Keeps P (emitSteps steps) := by
  induction steps with
  | nil => exact fun s hs => hs
  | cons step rest ih =>
    exact (hP.mark step.2).seq ((hP.emitStep step.1).seq ih)

theorem emitBlocks {g : BlockGraph} {layout : List Nat}
    (hpause : ∀ i ∈ layout, ∀ {point defaultBlock}, (g.block i).exit = .pause point defaultBlock →
      Keeps P (emitPause points point defaultBlock)) : Keeps P (emitBlocks g points layout) := by
  induction layout with
  | nil => exact fun s hs => hs
  | cons block rest ih =>
    obtain ⟨hblock, hrest⟩ := List.forall_mem_cons.1 hpause
    refine Keeps.seq (fun s hs => ?_) (ih hrest)
    rw [emitBlock_eq]
    exact hP.emitExit _ hblock _ (hP.mark _ _ (hP.emitSteps _ _ (hP.begin _ _ _ hs)))

end Lasting

/-- The pause of every continuation point stands where the point says. -/
def Noted (s : State) : Prop :=
  ∀ i p, s.points[i]? = some p → WordAt s p.offset .pause i

theorem Noted.lasting : Lasting Noted where
  item item s hs i p hp := (emitItem_appends item s).ext.code (hs i p hp)
  const x s hs i p hp := (emitScalar_placed (.const x) s).1.ext.code (hs i p hp)
  mark span s hs i p hp := by
    obtain ⟨-, -, hpoints, -⟩ := mark_unchanged span s
    rw [hpoints] at hp
    exact (mark_appends span s).ext.code (hs i p hp)
  begin block flow? s hs := hs

theorem Noted.emitPause (points : Array Typed.Point) (point defaultBlock : Nat) :
    Keeps Noted (emitPause points point defaultBlock) := by
  intro s hs i p hp
  have hext := (emitPause_placed points point defaultBlock s).1.ext
  change (s.points.push _)[i]? = some p at hp
  rw [Array.getElem?_push] at hp
  split at hp
  · next hi =>
    cases hp
    rw [hi]
    exact Array.getElem?_push_size
  · exact hext.code (hs i p hp)

theorem noted_emission (g : BlockGraph) (points : Array Typed.Point) :
    Noted (emission g points) :=
  Noted.lasting.emitBlocks (fun _ _ _ _ _ => Noted.emitPause _ _ _) _ fun _ _ hp => by cases hp

/-- Each constant and each continuation point is there for some word. -/
def Sparing (s : State) : Prop :=
  s.constants.size ≤ s.code.size ∧ s.points.size ≤ s.code.size

theorem Sparing.lasting : Lasting Sparing where
  item item s hs := by
    rw [Sparing, (emitItem_appends item s).size]
    exact ⟨Nat.le_succ_of_le hs.1, Nat.le_succ_of_le hs.2⟩
  const x s hs := by
    have hconstants := size_intern_le s.constants (.ofFloat x)
    rw [Sparing, (emitScalar_placed (.const x) s).1.size]
    exact ⟨Nat.le_trans hconstants (Nat.succ_le_succ hs.1), Nat.le_succ_of_le hs.2⟩
  mark span s hs := by
    obtain ⟨hcode, hconstants, hpoints, -⟩ := mark_unchanged span s
    rw [Sparing, hcode, hconstants, hpoints]
    exact hs
  begin block flow? s hs := hs

theorem sparing_emission (g : BlockGraph) (points : Array Typed.Point) :
    Sparing (emission g points) := by
  refine Sparing.lasting.emitBlocks ?_ _ ⟨Nat.le_refl 0, Nat.le_refl 0⟩
  intro _ _ point defaultBlock _ s hs
  obtain ⟨hconstants, hpoints⟩ := hs
  rw [Sparing, (emitPause_placed points point defaultBlock s).1.size]
  refine ⟨Nat.le_succ_of_le hconstants, ?_⟩
  show (s.points.push _).size ≤ _
  rw [Array.size_push]
  exact Nat.succ_le_succ hpoints

/-! ## Words that agree with their labels -/

section

variable (t : State) (g : BlockGraph) (rank : Nat → Nat) (x : Extent) (labels : List Label)

/-- An offset has the given depth and belongs to a block of rank `r` at most. -/
def Enters (offset depth r : Nat) : Prop :=
  ∃ l, labels[offset]? = some l ∧ l.depth = depth ∧ rank l.block ≤ r

/-- Wherever an instruction in a block of rank `r` leads, the labels are as it leaves the stack. -/
def Continues (offset operand deep r : Nat) : Opcode → Prop
  | .jump => Enters rank labels operand deep r
  | .jumpIfFalse | .jumpIfTrue =>
    Enters rank labels (offset + 1) deep r ∧ Enters rank labels operand deep r
  | .call =>
    deep = 0 ∧ Enters rank labels (offset + 1) 0 r ∧ ∃ r' < r, Enters rank labels operand 0 r'
  | .ret => deep = 0
  | .halt => True
  | .pause =>
    deep = 0 ∧ ∃ p q, t.points[operand]? = some p ∧ p.offset = offset ∧
      resolvePoint t.starts p = .ok q ∧ Enters rank labels q.defaultOffset.toNat 0 r
  | _ => Enters rank labels (offset + 1) deep r

/-- Sizes of the tables of what has been emitted. -/
def State.tableSizes (x : Extent) (t : State) : Model.TableSizes where
  constants := t.constants.size
  inputs := x.inputs
  locals := x.locals
  outputs := x.outputs
  code := t.code.size
  points := t.points.size

/-- The word at an offset agrees with a label. -/
def Fits (offset : Nat) (l : Label) : Prop :=
  ∃ item op operand, t.code[offset]? = some item ∧
    resolveItem t.starts item = .ok (Word.encode op operand) ∧
    operand < (t.tableSizes x).bound op ∧ op.pops ≤ l.depth ∧
    (g.block l.block).Needs (l.depth - op.pops + op.pushes) ∧
    Continues t rank labels offset operand (l.depth - op.pops + op.pushes) (rank l.block) op

/-- All words from one offset to another agree with their labels. -/
def FitsOn (lo hi : Nat) : Prop :=
  ∀ offset l, lo ≤ offset → offset < hi → labels[offset]? = some l →
    Fits t g rank x labels offset l

/-- Emitted code of a graph whose blocks are in order, with its labels. Every offset can be an
operand, and so can the numbers of constants and continuation points. -/
structure Emitted (t : State) (g : BlockGraph) (points : Array Typed.Point) (rank : Nat → Nat)
    (labels : List Label) : Prop where
  ordered : g.Ordered rank
  placed : LayoutAt t g points 0 g.layout
  labels_eq : labels = g.labels g.layout
  size : t.code.size = labels.length
  start : ∀ i ∈ g.layout, ∃ start rest, t.starts[i]? = some (some start) ∧
    labels.drop start = g.labels (i :: rest)
  noted : Noted t
  size_le : t.code.size ≤ Word.maxOperand
  constants_le : t.constants.size ≤ Word.maxOperand
  points_le : t.points.size ≤ Word.maxOperand

end

variable {g : BlockGraph} {rank : Nat → Nat} {x : Extent} {labels : List Label}

theorem getElem?_of_drop (h : L.drop pos = rest) : L[pos]? = rest.head? := by
  rw [← h, List.head?_drop]

theorem drop_add {xs : List Label} (h : L.drop pos = xs ++ rest) :
    L.drop (pos + xs.length) = rest := by
  rw [← List.drop_drop, h, List.drop_left]

theorem drop_labels (h : L.drop pos = e.labels i k ++ rest) : L.drop (pos + e.codeSize) = rest := by
  rw [← e.length_labels i k]
  exact drop_add h

theorem drop_succ (h : L.drop pos = l :: rest) : L.drop (pos + 1) = rest := by
  rw [← List.tail_drop, h, List.tail_cons]

theorem Enters.of_drop (h : labels.drop pos = rest) (hrest : rest.head? = some ⟨i, k⟩) :
    Enters rank labels pos k (rank i) :=
  ⟨⟨i, k⟩, (getElem?_of_drop h).trans hrest, rfl, Nat.le_refl _⟩

theorem Enters.mono {offset r' : Nat} (h : Enters rank labels offset depth r) (hle : r ≤ r') :
    Enters rank labels offset depth r' := by
  obtain ⟨l, hl, hdepth, hr⟩ := h
  exact ⟨l, hl, hdepth, Nat.le_trans hr hle⟩

theorem FitsOn.trans {lo mid hi : Nat} (h : FitsOn t g rank x labels lo mid)
    (h' : FitsOn t g rank x labels mid hi) : FitsOn t g rank x labels lo hi := by
  intro offset l hlo hhi hl
  rcases Nat.lt_or_ge offset mid with hlt | hge
  · exact h offset l hlo hlt hl
  · exact h' offset l hge hhi hl

theorem FitsOn.refl (pos : Nat) : FitsOn t g rank x labels pos pos :=
  fun _ _ hlo hhi => absurd hhi (Nat.not_lt.2 hlo)

theorem FitsOn.single (h : labels.drop pos = l :: rest) (hfits : Fits t g rank x labels pos l) :
    FitsOn t g rank x labels pos (pos + 1) := by
  intro offset l' hlo hhi hl
  obtain rfl : offset = pos := by omega
  rw [getElem?_of_drop h] at hl
  cases hl
  exact hfits

namespace Emitted

variable (E : Emitted t g points rank labels) {offset i : Nat} {rest : List Nat}
variable {op : Opcode} {item : Item}

include E

theorem lt_size_of_enters (h : Enters rank labels offset depth r) : offset < t.code.size := by
  obtain ⟨l, hl, -⟩ := h
  rw [E.size]
  exact (List.getElem?_eq_some_iff.1 hl).1

/-! ### Expressions -/

/-- The words of an expression agree with their labels. -/
theorem scalar_fits {rest : List Label} (hd : d ∈ (g.block i).values) (he : ScalarAt t pos e)
    (hx : e.Within x) (hneed : k + e.stackNeed ≤ d.stackNeed)
    (hlabels : labels.drop pos = e.labels i k ++ rest) (hrest : rest.head? = some ⟨i, k + 1⟩) :
    FitsOn t g rank x labels pos (pos + e.codeSize) := by
  have hneeds {n : Nat} (hn : n ≤ d.stackNeed) : (g.block i).Needs n := .inr ⟨d, hd, hn⟩
  -- `d` is the whole expression that `e` is a part of, with `k` values already on the stack
  induction e generalizing pos k rest with
  | const v =>
    obtain ⟨c, hc, hw⟩ := he
    exact .single hlabels ⟨_, .pushConst, c, hw, rfl, (Array.getElem?_eq_some_iff.1 hc).1,
      Nat.zero_le _, hneeds hneed, .of_drop (drop_succ hlabels) hrest⟩
  | inputSlot slot =>
    exact .single hlabels ⟨_, .loadInput, slot, he, rfl, hx, Nat.zero_le _, hneeds hneed,
      .of_drop (drop_succ hlabels) hrest⟩
  | localSlot slot =>
    exact .single hlabels ⟨_, .loadLocal, slot, he, rfl, hx, Nat.zero_le _, hneeds hneed,
      .of_drop (drop_succ hlabels) hrest⟩
  | random =>
    exact .single hlabels ⟨_, .random, 0, he, rfl, Nat.one_pos, Nat.zero_le _, hneeds hneed,
      .of_drop (drop_succ hlabels) hrest⟩
  | unary f a iha =>
    rw [Scalar.labels, List.append_assoc] at hlabels
    have hw := drop_labels hlabels
    have hpos := a.stackNeed_pos
    have hk : k + a.stackNeed ≤ d.stackNeed := hneed
    exact (iha he.1 hx hk hlabels rfl).trans <| .single hw ⟨_, .unary f, 0, he.2, rfl, Nat.one_pos,
      Nat.le_add_left _ _, hneeds (by omega : k + 1 ≤ _), .of_drop (drop_succ hw) hrest⟩
  | binary f a b iha ihb =>
    rw [Scalar.labels, List.append_assoc, List.append_assoc] at hlabels
    have hb := drop_labels hlabels
    have hw := drop_labels hb
    have hpos := a.stackNeed_pos
    rw [Scalar.stackNeed] at hneed
    rw [Scalar.codeSize, ← Nat.add_assoc, ← Nat.add_assoc]
    exact (iha he.1 hx.1 (by omega) hlabels (b.head?_labels ..)).trans <|
      (ihb he.2.1 hx.2 (by omega) hb rfl).trans <| .single hw ⟨_, .binary f, 0, he.2.2, rfl,
        Nat.one_pos, Nat.le_add_left _ _, hneeds (by omega : k + 1 ≤ _),
        .of_drop (drop_succ hw) hrest⟩
  | ternary f a b c iha ihb ihc =>
    rw [Scalar.labels, List.append_assoc, List.append_assoc, List.append_assoc] at hlabels
    have hb := drop_labels hlabels
    have hc := drop_labels hb
    have hw := drop_labels hc
    have hpos := a.stackNeed_pos
    rw [Scalar.stackNeed] at hneed
    rw [Scalar.codeSize, ← Nat.add_assoc, ← Nat.add_assoc, ← Nat.add_assoc]
    exact (iha he.1 hx.1 (by omega) hlabels (b.head?_labels ..)).trans <|
      (ihb he.2.1 hx.2.1 (by omega) hb (c.head?_labels ..)).trans <|
      (ihc he.2.2.1 hx.2.2 (by omega) hc rfl).trans <| .single hw ⟨_, .ternary f, 0, he.2.2.2, rfl,
        Nat.one_pos, Nat.le_add_left _ _, hneeds (by omega : k + 1 ≤ _),
        .of_drop (drop_succ hw) hrest⟩
  | select c a b ihc iha ihb =>
    obtain ⟨hec, hif, hea, hjump, heb⟩ := he
    rw [Scalar.labels, List.append_assoc, List.cons_append, List.append_assoc, List.cons_append]
      at hlabels
    have h₁ := drop_labels hlabels
    have h₂ := drop_succ h₁
    have h₃ := drop_labels h₂
    have h₄ := drop_succ h₃
    have h₅ := drop_labels h₄
    have hpos := a.stackNeed_pos
    rw [Scalar.stackNeed] at hneed
    -- where the two jumps lead: to the other branch, and past it
    have helse : Enters rank labels (pos + c.codeSize + a.codeSize + 2) k (rank i) := by
      have h : Enters rank labels _ k (rank i) := .of_drop h₄ (b.head?_labels ..)
      rwa [show pos + c.codeSize + 1 + a.codeSize + 1 = pos + c.codeSize + a.codeSize + 2 by omega]
        at h
    have hend : Enters rank labels (pos + c.codeSize + a.codeSize + 2 + b.codeSize) (k + 1)
        (rank i) := by
      have h : Enters rank labels _ (k + 1) (rank i) := .of_drop h₅ hrest
      rwa [show pos + c.codeSize + 1 + a.codeSize + 1 + b.codeSize =
        pos + c.codeSize + a.codeSize + 2 + b.codeSize by omega] at h
    have hstop : pos + (Scalar.select c a b).codeSize =
        pos + c.codeSize + 1 + a.codeSize + 1 + b.codeSize := by
      rw [Scalar.codeSize]
      omega
    rw [hstop]
    exact (ihc hec hx.1 (by omega) hlabels rfl).trans <|
      (FitsOn.single h₁ ⟨_, .jumpIfFalse, _, hif, rfl, E.lt_size_of_enters helse,
        Nat.le_add_left _ _, hneeds (by omega : k ≤ _), .of_drop h₂ (a.head?_labels ..),
        helse⟩).trans <|
      (iha hea hx.2.1 (by omega) h₂ rfl).trans <|
      (FitsOn.single h₃ ⟨_, .jump, _, hjump, rfl, E.lt_size_of_enters hend,
        Nat.zero_le _, hneeds (by omega : k + 1 ≤ _), hend⟩).trans <|
      ihb heb hx.2.2 (by omega) h₄ hrest

theorem value_fits {rest : List Label} (hd : d ∈ (g.block i).values) (he : ScalarAt t pos d)
    (hx : d.Within x) (hlabels : labels.drop pos = d.labels i 0 ++ ⟨i, 1⟩ :: rest)
    (hitem : t.code[pos + d.codeSize]? = some item)
    (hresolve : resolveItem t.starts item = .ok (Word.encode op operand))
    (hbound : operand < (t.tableSizes x).bound op) (hpops : op.pops = 1) (hpushes : op.pushes = 0)
    (hcontinues : Continues t rank labels (pos + d.codeSize) operand 0 (rank i) op) :
    FitsOn t g rank x labels pos (pos + d.codeSize + 1) := by
  have hw := drop_labels hlabels
  refine (E.scalar_fits hd he hx (Nat.le_of_eq (Nat.zero_add _)) hlabels rfl).trans <|
    .single hw ⟨item, op, operand, hitem, hresolve, hbound, ?_, ?_, ?_⟩
  · exact Nat.le_of_eq hpops
  · rw [hpops, hpushes]
    exact .inl rfl
  · rw [hpops, hpushes]
    exact hcontinues

/-! ### Blocks -/

/-- What is left of a block begins with an empty stack, in the block itself or, if nothing of it has
code, in one that it leads to. -/
theorem enters_block (hlabels : labels.drop pos = b.labels i rest.head? ++ g.labels rest)
    (hexit : ∀ j ∈ b.exit.targets, j ∈ g.layout ∧ rank j ≤ rank i) :
    Enters rank labels pos 0 (rank i) := by
  induction rest generalizing i b with
  | nil =>
    rcases b.head?_labels i _ (g.labels []) with hhead | ⟨block, -, hnext, -⟩
    · exact .of_drop hlabels hhead
    · cases hnext
  | cons next rest ih =>
    rcases b.head?_labels i _ (g.labels (next :: rest)) with hhead | ⟨block, hjump, hnext, hnil⟩
    · exact .of_drop hlabels hhead
    -- the block has no code, so control falls into the next one, which has no higher rank
    · cases hnext
      rw [hnil] at hlabels
      obtain ⟨hmem, hle⟩ := hexit next (by rw [hjump]; exact List.mem_singleton_self _)
      exact (ih hlabels (E.ordered.leads next hmem).exit).mono hle

/-- A block of the layout is entered with an empty stack. -/
theorem enters_start (hi : i ∈ g.layout) :
    ∃ start, startOf t.starts i = .ok start ∧ Enters rank labels start 0 (rank i) := by
  obtain ⟨start, rest, hstart, hlabels⟩ := E.start i hi
  refine ⟨start, ?_, E.enters_block hlabels (E.ordered.leads i hi).exit⟩
  rw [startOf, Array.getD_eq_getD_getElem?, hstart]
  rfl

theorem link_resolves (hi : i ∈ g.layout) (op : Opcode) :
    ∃ start, resolveItem t.starts (.toBlock op i) = .ok (Word.encode op start) ∧
      Enters rank labels start 0 (rank i) := by
  obtain ⟨start, hstart, henters⟩ := E.enters_start hi
  refine ⟨start, ?_, henters⟩
  rw [resolveItem, hstart]
  rfl

theorem step_fits {rest : List Label} (hs : StepAt t pos stop s) (hx : s.Within x)
    (hvalue : ∀ e ∈ s.value?, e ∈ (g.block i).values)
    (hcall : ∀ c, s.target? = some c → c ∈ g.layout ∧ rank c < rank i)
    (hlabels : labels.drop pos = s.labels i ++ rest) (hrest : Enters rank labels stop 0 (rank i)) :
    FitsOn t g rank x labels pos stop := by
  cases s with
  | setLocal slot value | setOutput slot value =>
    obtain ⟨hat, hword, rfl⟩ := hs
    rw [Step.labels, List.append_assoc] at hlabels
    exact E.value_fits (hvalue value rfl) hat hx.2 hlabels hword rfl hx.1 rfl rfl hrest
  | call block =>
    obtain ⟨hlink, rfl⟩ := hs
    obtain ⟨hmem, hlt⟩ := hcall block rfl
    obtain ⟨start, hresolve, henters⟩ := E.link_resolves hmem .call
    exact .single hlabels ⟨_, .call, start, hlink, hresolve, E.lt_size_of_enters henters,
      Nat.zero_le _, .inl rfl, rfl, hrest, _, hlt, henters⟩

theorem steps_fits {span : Span} (hsteps : StepsAt t pos stop steps)
    (hx : ∀ st ∈ steps, st.1.Within x)
    (hvalues : ∀ st ∈ steps, ∀ e ∈ st.1.value?, e ∈ (g.block i).values)
    (hleads : Block.Leads (fun c => c ∈ g.layout ∧ rank c < rank i)
      (fun j => j ∈ g.layout ∧ rank j ≤ rank i) ⟨steps, exit, span⟩)
    (hlabels : labels.drop pos = Block.labels i rest.head? ⟨steps, exit, span⟩ ++ g.labels rest) :
    FitsOn t g rank x labels pos stop := by
  induction steps generalizing pos with
  | nil =>
    obtain rfl : stop = pos := hsteps
    exact .refl _
  | cons step steps ih =>
    obtain ⟨mid, hstep, hsteps⟩ := hsteps
    rw [Block.labels, List.flatMap_cons, List.append_assoc, List.append_assoc] at hlabels
    have hleads' : Block.Leads (fun c => c ∈ g.layout ∧ rank c < rank i)
        (fun j => j ∈ g.layout ∧ rank j ≤ rank i) ⟨steps, exit, span⟩ :=
      ⟨fun st hst => hleads.steps st (List.mem_cons_of_mem _ hst), hleads.exit⟩
    have hmid : labels.drop mid =
        Block.labels i rest.head? ⟨steps, exit, span⟩ ++ g.labels rest := by
      rw [hstep.stop_eq i, drop_add hlabels, Block.labels, List.append_assoc]
    exact (E.step_fits hstep (hx _ List.mem_cons_self) (hvalues _ List.mem_cons_self)
      (hleads.steps _ List.mem_cons_self) hlabels (E.enters_block hmid hleads.exit)).trans <|
      ih hsteps (fun st hst => hx st (List.mem_cons_of_mem _ hst))
        (fun st hst => hvalues st (List.mem_cons_of_mem _ hst)) hleads' hmid

theorem jump_fits (hjump : JumpAt t rest.head? pos stop block)
    (hblock : block ∈ g.layout ∧ rank block ≤ rank i)
    (hlabels : labels.drop pos = jumpLabels i rest.head? block ++ g.labels rest) :
    FitsOn t g rank x labels pos stop := by
  unfold JumpAt at hjump
  unfold jumpLabels at hlabels
  split at hjump
  · subst hjump
    exact .refl _
  · next hnext =>
    obtain ⟨hlink, rfl⟩ := hjump
    rw [if_neg hnext] at hlabels
    obtain ⟨start, hresolve, henters⟩ := E.link_resolves hblock.1 .jump
    exact .single hlabels ⟨_, .jump, start, hlink, hresolve, E.lt_size_of_enters henters,
      Nat.zero_le _, .inl rfl, henters.mono hblock.2⟩

/-- Going on where a jump stands, or where it has been left out. -/
theorem enters_jump (hblock : block ∈ g.layout ∧ rank block ≤ rank i)
    (hlabels : labels.drop pos = jumpLabels i rest.head? block ++ g.labels rest) :
    Enters rank labels pos 0 (rank i) := by
  have hexit : ∀ j ∈ (Exit.jump block).targets, j ∈ g.layout ∧ rank j ≤ rank i := fun j hj => by
    cases List.mem_singleton.1 hj
    exact hblock
  exact E.enters_block (b := ⟨[], .jump block, {}⟩) hlabels hexit

theorem exit_fits (hexitAt : ExitAt t points rest.head? pos stop exit) (hx : exit.Within x)
    (hvalue : ∀ e ∈ exit.value?, e ∈ (g.block i).values)
    (hexit : ∀ j ∈ exit.targets, j ∈ g.layout ∧ rank j ≤ rank i)
    (hlabels : labels.drop pos = exit.labels i rest.head? ++ g.labels rest) :
    FitsOn t g rank x labels pos stop := by
  cases exit with
  | jump block => exact E.jump_fits hexitAt (hexit block (List.mem_singleton_self _)) hlabels
  | branch condition thenBlock elseBlock =>
    obtain ⟨hat, hlinks⟩ := hexitAt
    obtain ⟨hthen, helse⟩ := List.forall_mem_cons.1 hexit
    replace helse := List.forall_mem_singleton.1 helse
    rw [Exit.labels, List.append_assoc, List.cons_append] at hlabels
    have hafter := drop_succ (drop_labels hlabels)
    split at hlinks
    · next hnext =>
      obtain ⟨hlink, rfl⟩ := hlinks
      rw [if_pos hnext] at hafter
      obtain ⟨start, hresolve, henters⟩ := E.link_resolves hthen.1 .jumpIfTrue
      have hjump : jumpLabels i rest.head? elseBlock = [] := if_pos hnext
      exact E.value_fits (hvalue condition rfl) hat hx hlabels hlink hresolve
        (E.lt_size_of_enters henters) rfl rfl
        ⟨E.enters_jump helse (by rw [hjump]; exact hafter), henters.mono hthen.2⟩
    · next hnext =>
      obtain ⟨hlink, hjump⟩ := hlinks
      rw [if_neg hnext] at hafter
      obtain ⟨start, hresolve, henters⟩ := E.link_resolves helse.1 .jumpIfFalse
      exact (E.value_fits (hvalue condition rfl) hat hx hlabels hlink hresolve
        (E.lt_size_of_enters henters) rfl rfl
        ⟨E.enters_jump hthen hafter, henters.mono helse.2⟩).trans (E.jump_fits hjump hthen hafter)
  | ret =>
    obtain ⟨hword, rfl⟩ := hexitAt
    exact .single hlabels ⟨_, .ret, 0, hword, rfl, Nat.one_pos, Nat.zero_le _, .inl rfl, rfl⟩
  | halt =>
    obtain ⟨hword, rfl⟩ := hexitAt
    exact .single hlabels ⟨_, .halt, 0, hword, rfl, Nat.one_pos, Nat.zero_le _, .inl rfl, trivial⟩
  | wait seconds block =>
    obtain ⟨hat, hword, hjump⟩ := hexitAt
    have hblock := hexit block (List.mem_singleton_self _)
    rw [Exit.labels, List.append_assoc, List.cons_append] at hlabels
    have hafter := drop_succ (drop_labels hlabels)
    exact (E.value_fits (hvalue seconds rfl) hat hx hlabels hword rfl Nat.one_pos rfl rfl
      (E.enters_jump hblock hafter)).trans (E.jump_fits hjump hblock hafter)
  | pause point defaultBlock =>
    obtain ⟨index, hword, hpoint, rfl⟩ := hexitAt
    obtain ⟨hmem, hle⟩ := hexit defaultBlock (List.mem_singleton_self _)
    obtain ⟨start, hstart, henters⟩ := E.enters_start hmem
    have hstart_le : start ≤ Word.maxOperand :=
      Nat.le_trans (Nat.le_of_lt (E.lt_size_of_enters henters)) E.size_le
    refine .single hlabels ⟨_, .pause, index, hword, rfl, (Array.getElem?_eq_some_iff.1 hpoint).1,
      Nat.zero_le _, .inl rfl, rfl, _, _, hpoint, rfl, bind_eq_ok.2 ⟨start, hstart, rfl⟩, ?_⟩
    show Enters rank labels start.toUInt32.toNat 0 (rank i)
    rw [toNat_toUInt32_of_le hstart_le]
    exact henters.mono hle

/-- The words of blocks agree with their labels. -/
theorem layout_fits (hx : g.Within x) {layout : List Nat} (hlayout : ∀ i ∈ layout, i ∈ g.layout)
    (hplaced : LayoutAt t g points pos layout) (hlabels : labels.drop pos = g.labels layout) :
    FitsOn t g rank x labels pos labels.length := by
  induction layout generalizing pos with
  | nil =>
    intro offset l hlo hhi hl
    have hle : labels.length ≤ pos := List.drop_eq_nil_iff.1 hlabels
    omega
  | cons i rest ih =>
    obtain ⟨stop, ⟨mid, hsteps, hexitAt⟩, hrest⟩ := hplaced
    obtain ⟨hi, hlayout⟩ := List.forall_mem_cons.1 hlayout
    have hleads := E.ordered.leads i hi
    have hmid : labels.drop mid = (g.block i).exit.labels i rest.head? ++ g.labels rest := by
      rw [hsteps.stop_eq i]
      refine drop_add ?_
      rw [hlabels, BlockGraph.labels, Block.labels, List.append_assoc]
    have hstop : labels.drop stop = g.labels rest := by
      rw [hexitAt.stop_eq i]
      exact drop_add hmid
    refine (E.steps_fits hsteps (hx i).steps ?_ hleads hlabels).trans <|
      (E.exit_fits hexitAt (hx i).exit ?_ hleads.exit hmid).trans <| ih hlayout hrest hstop
    · exact fun st hst e he => List.mem_append_left _ (List.mem_filterMap.2 ⟨st, hst, he⟩)
    · exact fun e he => List.mem_append_right _ (Option.mem_toList.2 he)

/-- Every word agrees with its label. -/
theorem fits (hx : g.Within x) (hl : labels[offset]? = some l) : Fits t g rank x labels offset l :=
  E.layout_fits hx (fun _ hi => hi) E.placed (E.labels_eq) offset l (Nat.zero_le _)
    (List.getElem?_eq_some_iff.1 hl).1 hl

/-! ### Resolving -/

theorem label_of_lt (h : offset < t.code.size) :
    ∃ l, labels[offset]? = some l :=
  ⟨_, List.getElem?_eq_getElem (E.size ▸ h)⟩

theorem operand_le (hx : x.Encodable) (h : operand < (t.tableSizes x).bound op) :
    operand ≤ Word.maxOperand := by
  have hone : 1 ≤ Word.maxOperand := by decide
  refine Nat.le_of_lt (Nat.lt_of_lt_of_le h ?_)
  cases op with
  | pushConst => exact E.constants_le
  | loadInput => exact hx.inputs
  | loadLocal | storeLocal => exact hx.locals
  | storeOutput => exact hx.outputs
  | jump | jumpIfFalse | jumpIfTrue | call => exact E.size_le
  | pause => exact E.points_le
  | _ => exact hone

theorem item_resolves (hx : g.Within x) (h : t.code[offset]? = some item) :
    ∃ w, resolveItem t.starts item = .ok w := by
  obtain ⟨l, hl⟩ := E.label_of_lt (Array.getElem?_eq_some_iff.1 h).1
  obtain ⟨item', op, operand, hitem, hresolve, -⟩ := E.fits hx hl
  rw [h] at hitem
  cases hitem
  exact ⟨_, hresolve⟩

/-- A continuation point leads to code that starts with an empty stack. -/
theorem point_resolves (hx : g.Within x) (henc : x.Encodable) {index : Nat} {p : PlacedPoint}
    (h : t.points[index]? = some p) :
    ∃ q r, resolvePoint t.starts p = .ok q ∧
      Enters rank labels q.defaultOffset.toNat 0 r := by
  have hword := E.noted index p h
  have hindex : index ≤ Word.maxOperand :=
    Nat.le_trans (Nat.le_of_lt (Array.getElem?_eq_some_iff.1 h).1) E.points_le
  obtain ⟨l, hl⟩ := E.label_of_lt (Array.getElem?_eq_some_iff.1 hword).1
  obtain ⟨item, op, operand, hitem, hresolve, hbound, -, -, hcontinues⟩ := E.fits hx hl
  rw [show t.code[p.offset]? = _ from hword] at hitem
  cases hitem
  -- the word that fits the label there is the pause that was noted
  obtain ⟨rfl, rfl⟩ :=
    Word.encode_inj (E.operand_le henc hbound) hindex (Except.ok.inj hresolve).symm
  obtain ⟨-, p', q, hp', -, hq, henters⟩ := hcontinues
  rw [h] at hp'
  cases hp'
  exact ⟨q, _, hq, henters⟩

end Emitted

theorem emitted_emission (points : Array Typed.Point) (h : g.Ordered rank)
    (hsize : (emission g points).code.size ≤ Word.maxOperand)
    (hconstants : (emission g points).constants.size ≤ Word.maxOperand)
    (hpoints : (emission g points).points.size ≤ Word.maxOperand) :
    Emitted (emission g points) g points rank (g.labels g.layout) where
  ordered := h
  placed := (emitBlocks_placed g points g.layout _).2.2.1
  labels_eq := rfl
  size := size_emission g points
  start i hi := start_emission points hi (h.inside i hi)
  noted := noted_emission g points
  size_le := hsize
  constants_le := hconstants
  points_le := hpoints

end Assembly

end Behavior
