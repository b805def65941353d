import Behavior.Proofs.Acceptance
import Behavior.Proofs.Shortcuts

/-!
How deep a stack the blocks of a graph need. The analysis of the loader goes wherever control can
go, so it comes to every expression of every block that can be reached from the entry: code passes
it only if none of these needs too deep a stack. The passes lead to no block that could not be
reached before, and none of the expressions they leave needs a deeper stack than one that was there.
-/

namespace Behavior

/-! ## What the analysis has seen -/

namespace Fitness

open StackDepth (limit Holds Edge)

variable {m : Model} (f : Fitness m) {op : Opcode} {offset depth operand : Nat}

/-- The depth that an instruction leaves, which is that of every offset it leads to. -/
theorem label_edges (hw : m.code[offset]? = some (Word.encode op operand))
    (hle : operand ≤ Word.maxOperand) (hl : f.label offset = some depth) :
    Holds m.code offset op operand ∧ op.leaves depth ≤ limit ∧
      ∀ j, Edge m.code m.points offset j → f.label j = some (op.leaves depth) := by
  have hholds : Holds m.code offset op operand :=
    ⟨_, hw, Word.opcode?_encode op hle, Word.operand_encode op hle⟩
  obtain ⟨op', operand', hholds', -, -, hlimit, -, -, hedges⟩ := f.consistent.holds hl
  obtain ⟨rfl, rfl⟩ := hholds.unique hholds'
  exact ⟨hholds, hlimit, hedges⟩

/-- An instruction that leads to the next one. -/
theorem label_next (hw : m.code[offset]? = some (Word.encode op operand))
    (hle : operand ≤ Word.maxOperand) (hl : f.label offset = some depth)
    (hop : op.continues = true) :
    op.leaves depth ≤ limit ∧ f.label (offset + 1) = some (op.leaves depth) := by
  obtain ⟨hholds, hlimit, hedges⟩ := f.label_edges hw hle hl
  exact ⟨hlimit, hedges _ (.next hholds hop)⟩

theorem label_branch (hw : m.code[offset]? = some (Word.encode op operand))
    (hle : operand ≤ Word.maxOperand) (hl : f.label offset = some depth)
    (hop : op.branches = true) : f.label operand = some (op.leaves depth) := by
  obtain ⟨hholds, -, hedges⟩ := f.label_edges hw hle hl
  exact hedges _ (.branch hholds hop)

end Fitness

namespace Assembled

open Assembly

variable {m : Model} {g : BlockGraph} {points : Array Typed.Point} {A : Assembled m g points}
  {f : Fitness m} {x : Extent}

/-- The analysis goes through an expression from its start to its end. -/
theorem label_scalar (hx : x.Encodable) {e : Scalar} (he : e.Within x) {pos k : Nat}
    (hat : ScalarAt A.emitted pos e) (hl : f.label pos = some k) :
    k + e.stackNeed ≤ StackDepth.limit ∧ f.label (pos + e.codeSize) = some (k + 1) := by
  have hzero : 0 ≤ Word.maxOperand := Nat.zero_le _
  induction e generalizing pos k with
  | const v =>
    obtain ⟨i, hv, hw⟩ := hat
    have hle : i ≤ Word.maxOperand :=
      Nat.le_trans (Nat.le_of_lt (Array.getElem?_eq_some_iff.1 hv).1) A.constants_le
    exact f.label_next (A.word hw) hle hl rfl
  | inputSlot slot =>
    exact f.label_next (A.word hat) (Nat.le_trans (Nat.le_of_lt he) hx.inputs) hl rfl
  | localSlot slot =>
    exact f.label_next (A.word hat) (Nat.le_trans (Nat.le_of_lt he) hx.locals) hl rfl
  | random => exact f.label_next (A.word hat) hzero hl rfl
  | unary fn a iha =>
    obtain ⟨hneed, ha⟩ := iha he hat.1 hl
    exact ⟨hneed, (f.label_next (A.word hat.2) hzero ha rfl).2⟩
  | binary fn a b iha ihb =>
    obtain ⟨hat, hbt, hw⟩ := hat
    obtain ⟨hneed, ha⟩ := iha he.1 hat hl
    obtain ⟨hneed', hb⟩ := ihb he.2 hbt ha
    have hnext := (f.label_next (A.word hw) hzero hb rfl).2
    refine ⟨?_, ?_⟩
    · rw [Scalar.stackNeed]
      omega
    · rw [Scalar.codeSize, ← Nat.add_assoc, ← Nat.add_assoc]
      exact hnext
  | ternary fn a b c iha ihb ihc =>
    obtain ⟨hat, hbt, hct, hw⟩ := hat
    obtain ⟨hneed, ha⟩ := iha he.1 hat hl
    obtain ⟨hneed', hb⟩ := ihb he.2.1 hbt ha
    obtain ⟨hneed'', hc⟩ := ihc he.2.2 hct hb
    have hnext := (f.label_next (A.word hw) hzero hc rfl).2
    refine ⟨?_, ?_⟩
    · rw [Scalar.stackNeed]
      omega
    · rw [Scalar.codeSize, ← Nat.add_assoc, ← Nat.add_assoc, ← Nat.add_assoc]
      exact hnext
  | select c a b ihc iha ihb =>
    obtain ⟨hct, hif, hat, -, hbt⟩ := hat
    have hstop := hbt.stop_le
    have hsize := A.size_le
    obtain ⟨hneed, hc⟩ := ihc he.1 hct hl
    have hle : pos + c.codeSize + a.codeSize + 2 ≤ Word.maxOperand := by omega
    have hthen : f.label _ = some k := (f.label_next (A.word hif) hle hc rfl).2
    have helse : f.label _ = some k := f.label_branch (A.word hif) hle hc rfl
    obtain ⟨hneed', -⟩ := iha he.2.1 hat hthen
    rw [show pos + c.codeSize + a.codeSize + 2 = pos + c.codeSize + 1 + a.codeSize + 1 by omega]
      at helse
    obtain ⟨hneed'', hb⟩ := ihb he.2.2 hbt helse
    refine ⟨?_, ?_⟩
    · rw [Scalar.stackNeed]
      omega
    · rw [Scalar.codeSize]
      rwa [show pos + (c.codeSize + a.codeSize + b.codeSize + 2) =
        pos + c.codeSize + 1 + a.codeSize + 1 + b.codeSize by omega]

/-- The analysis has come to what is left of a block. -/
def Entered (A : Assembled m g points) (f : Fitness m) (b : Block) : Prop :=
  ∃ ahead pos, A.Stands ahead pos b ∧ f.label pos = some 0

/-- The analysis follows a jump, also one that has been left out. -/
theorem Entered.of_jump {ahead : List Nat} {pos stop j : Nat} (hahead : ahead <:+ g.layout)
    (hjump : JumpAt A.emitted ahead.head? pos stop j)
    (hlayout : LayoutAt A.emitted g points stop ahead) (hl : f.label pos = some 0) :
    A.Entered f (g.block j) := by
  unfold JumpAt at hjump
  split at hjump
  · next hnext =>
    subst hjump
    obtain ⟨rest, rfl⟩ := List.head?_eq_some_iff.1 hnext
    exact ⟨rest, _, .ofLayout hahead hlayout, hl⟩
  · obtain ⟨start, rest, hw, hle, hrest, hat⟩ := A.link hjump.1
    exact ⟨rest, start, .ofLayout hrest hat, f.label_branch hw hle hl rfl⟩

/-- What is left of a block needs no deeper stack than there is, and what it leads to is entered. -/
structure Passed (A : Assembled m g points) (f : Fitness m) (b : Block) : Prop where
  values : ∀ e ∈ b.values, e.stackNeed ≤ StackDepth.limit
  targets : ∀ j ∈ b.targets, A.Entered f (g.block j)

theorem Passed.cons {b : Block} (st : Step) (span : Span) (h : A.Passed f b)
    (hvalue : ∀ e ∈ st.value?, e.stackNeed ≤ StackDepth.limit)
    (htarget : ∀ j ∈ st.target?, A.Entered f (g.block j)) :
    A.Passed f { b with steps := (st, span) :: b.steps } where
  values e he := by
    rw [Block.values, List.filterMap_cons] at he
    cases hst : st.value? with
    | none =>
      rw [hst] at he
      exact h.values e he
    | some value =>
      rw [hst, List.cons_append, List.mem_cons] at he
      rcases he with rfl | he
      · exact hvalue e hst
      · exact h.values e he
  targets j hj := by
    rw [Block.targets, List.filterMap_cons] at hj
    cases hst : st.target? with
    | none =>
      rw [hst] at hj
      exact h.targets j hj
    | some block =>
      rw [hst, List.cons_append, List.mem_cons] at hj
      rcases hj with rfl | hj
      · exact htarget j hst
      · exact h.targets j hj

theorem Entered.exit_passed (hx : x.Encodable) {exit : Exit} {span : Span} (he : exit.Within x)
    (h : A.Entered f ⟨[], exit, span⟩) : A.Passed f ⟨[], exit, span⟩ := by
  obtain ⟨ahead, pos, ⟨hahead, stop, ⟨mid, hsteps, hexit⟩, hlayout⟩, hl⟩ := h
  cases hsteps
  cases exit with
  | jump j =>
    refine ⟨fun e he => absurd he List.not_mem_nil, List.forall_mem_singleton.2 ?_⟩
    exact .of_jump hahead hexit hlayout hl
  | branch c t e =>
    obtain ⟨hat, hlinks⟩ := hexit
    obtain ⟨hneed, hc⟩ := label_scalar hx he hat hl
    rw [Nat.zero_add] at hneed
    refine ⟨List.forall_mem_singleton.2 hneed, ?_⟩
    split at hlinks
    · next hnext =>
      obtain ⟨hlink, hstop⟩ := hlinks
      obtain ⟨start, rest, hw, hle, hrest, hthen⟩ := A.link hlink
      have hafter := (f.label_next hw hle hc rfl).2
      have hstart := f.label_branch hw hle hc rfl
      obtain ⟨rest', rfl⟩ := List.head?_eq_some_iff.1 hnext
      refine List.forall_mem_cons.2 ⟨⟨rest, start, .ofLayout hrest hthen, hstart⟩, ?_⟩
      exact List.forall_mem_singleton.2 ⟨rest', stop, .ofLayout hahead hlayout, hstop ▸ hafter⟩
    · obtain ⟨hlink, hjump⟩ := hlinks
      obtain ⟨start, rest, hw, hle, hrest, helse⟩ := A.link hlink
      have hafter := (f.label_next hw hle hc rfl).2
      have hstart := f.label_branch hw hle hc rfl
      refine List.forall_mem_cons.2 ⟨.of_jump hahead hjump hlayout hafter, ?_⟩
      exact List.forall_mem_singleton.2 ⟨rest, start, .ofLayout hrest helse, hstart⟩
  | ret | halt =>
    exact ⟨fun e he => absurd he List.not_mem_nil, fun j hj => absurd hj List.not_mem_nil⟩
  | wait seconds j =>
    obtain ⟨hat, hw, hjump⟩ := hexit
    obtain ⟨hneed, hc⟩ := label_scalar hx he hat hl
    rw [Nat.zero_add] at hneed
    have hafter := (f.label_next (A.word hw) (Nat.zero_le _) hc rfl).2
    refine ⟨List.forall_mem_singleton.2 hneed, List.forall_mem_singleton.2 ?_⟩
    exact .of_jump hahead hjump hlayout hafter
  | pause point j =>
    obtain ⟨i, hw, hpoint, -⟩ := hexit
    have hle : i ≤ Word.maxOperand :=
      Nat.le_trans (Nat.le_of_lt (Array.getElem?_eq_some_iff.1 hpoint).1) A.points_le
    obtain ⟨q, rest, hq, -, -, hrest, hat⟩ := A.point hpoint
    refine ⟨fun e he => absurd he List.not_mem_nil, List.forall_mem_singleton.2 ?_⟩
    obtain ⟨hholds, -, hedges⟩ := f.label_edges (A.word hw) hle hl
    exact ⟨rest, _, .ofLayout hrest hat, hedges _ (.resume hholds hq)⟩

/-- The analysis goes through a block from its start to its end. -/
theorem Entered.passed (hx : x.Encodable) {b : Block} (hb : b.Within x) (h : A.Entered f b) :
    A.Passed f b := by
  obtain ⟨steps, exit, span⟩ := b
  induction steps with
  | nil => exact h.exit_passed hx hb.exit
  | cons head rest ih =>
    obtain ⟨st, stepSpan⟩ := head
    obtain ⟨ahead, pos, ⟨hahead, stop, ⟨mid, ⟨next, hstep, hrest⟩, hexit⟩, hlayout⟩, hl⟩ := h
    obtain ⟨hst, hsteps⟩ := List.forall_mem_cons.1 hb.steps
    have hgo (hnext : f.label next = some 0) : A.Passed f ⟨rest, exit, span⟩ :=
      ih ⟨hsteps, hb.exit⟩ ⟨ahead, next, ⟨hahead, stop, ⟨mid, hrest, hexit⟩, hlayout⟩, hnext⟩
    cases st with
    | setLocal slot value =>
      obtain ⟨hat, hw, rfl⟩ := hstep
      obtain ⟨hneed, hvalue⟩ := label_scalar hx hst.2 hat hl
      rw [Nat.zero_add] at hneed
      have hle : slot ≤ Word.maxOperand := Nat.le_trans (Nat.le_of_lt hst.1) hx.locals
      have hafter := (f.label_next (A.word hw) hle hvalue rfl).2
      exact (hgo hafter).cons (.setLocal slot value) stepSpan
        (by rintro e ⟨⟩; exact hneed) nofun
    | setOutput slot value =>
      obtain ⟨hat, hw, rfl⟩ := hstep
      obtain ⟨hneed, hvalue⟩ := label_scalar hx hst.2 hat hl
      rw [Nat.zero_add] at hneed
      have hle : slot ≤ Word.maxOperand := Nat.le_trans (Nat.le_of_lt hst.1) hx.outputs
      have hafter := (f.label_next (A.word hw) hle hvalue rfl).2
      exact (hgo hafter).cons (.setOutput slot value) stepSpan
        (by rintro e ⟨⟩; exact hneed) nofun
    | call j =>
      obtain ⟨hlink, rfl⟩ := hstep
      obtain ⟨start, ahead', hw, hle, hahead', hat⟩ := A.link hlink
      refine (hgo (f.label_next hw hle hl rfl).2).cons (.call j) stepSpan nofun ?_
      rintro _ ⟨⟩
      exact ⟨ahead', start, .ofLayout hahead' hat, f.label_branch hw hle hl rfl⟩

end Assembled

/-! ## Stacks of a graph -/

namespace BlockGraph

/-- No block that can be reached needs too deep a stack. -/
def Shallow (g : BlockGraph) : Prop :=
  ∀ i, g.Leads entry i → ∀ e ∈ (g.block i).values, e.stackNeed ≤ StackDepth.limit

end BlockGraph

/-- In a checked model no block that can be reached needs too deep a stack. -/
theorem Assembled.shallow {m : Model} {g : BlockGraph} {points : Array Typed.Point}
    (A : Assembled m g points) (f : Fitness m) {x : Extent} (hx : x.Encodable) (hg : g.Within x) :
    g.Shallow := by
  obtain ⟨ahead, hahead, hat⟩ := A.entry
  have hentry : A.Entered f (g.block BlockGraph.entry) :=
    ⟨ahead, _, .ofLayout hahead hat, f.entry_label⟩
  have hentered : ∀ {i j}, g.Leads i j → A.Entered f (g.block i) → A.Entered f (g.block j) := by
    intro i j h
    induction h with
    | refl i => exact id
    | step hj _ ih => exact fun hi => ih ((hi.passed hx (hg _)).targets _ hj)
  exact fun i hi => ((hentered hi hentry).passed hx (hg i)).values

/-! ## Passes -/

namespace Scalar

theorem stackNeed_fold (e : Scalar) : e.fold.stackNeed ≤ e.stackNeed := by
  induction e with
  | const x | inputSlot slot | localSlot slot | random => exact Nat.le_refl _
  | unary f a iha =>
    rw [fold]
    split
    · exact stackNeed_pos _
    · exact iha
  | binary f a b iha ihb | ternary f a b c iha ihb ihc =>
    rw [fold]
    split
    · exact stackNeed_pos _
    · simp only [stackNeed]
      omega
  | select c a b ihc iha ihb =>
    rw [fold]
    split
    · simp only [stackNeed]
      split <;> omega
    · simp only [stackNeed]
      omega

theorem PartOf.stackNeed_le {a e : Scalar} (h : a.PartOf e) : a.stackNeed ≤ e.stackNeed := by
  induction h with
  | self => exact Nat.le_refl _
  | @operand b e hb _ ih =>
    refine Nat.le_trans ih ?_
    cases e with
    | unary f c =>
      cases List.mem_singleton.1 hb
      exact Nat.le_refl _
    | binary f c d =>
      rw [stackNeed]
      rcases List.mem_pair.1 hb with rfl | rfl <;> omega
    | ternary f c d e | select c d e =>
      rw [stackNeed]
      rcases List.mem_cons.1 hb with rfl | hb
      · omega
      · rcases List.mem_pair.1 hb with rfl | rfl <;> omega
    | _ => cases hb

/-- A local needs as little of the stack as any expression. -/
theorem stackNeed_replace (value : Scalar) (slot : Nat) (e : Scalar) :
    (replace value slot e).stackNeed ≤ e.stackNeed := by
  induction e with
  | unary f a iha =>
    rw [replace]
    split
    · exact stackNeed_pos _
    · exact iha
  | binary f a b iha ihb | ternary f a b c iha ihb ihc | select a b c iha ihb ihc =>
    rw [replace]
    split
    · exact stackNeed_pos _
    · simp only [stackNeed]
      omega
  | _ =>
    unfold replace
    split
    · exact stackNeed_pos _
    · exact Nat.le_refl _

end Scalar

namespace BlockGraph

variable {g g' g'' : BlockGraph}

theorem Leads.trans {i j k : Nat} (h : g.Leads i j) (h' : g.Leads j k) : g.Leads i k := by
  induction h with
  | refl i => exact h'
  | step hmem _ ih => exact .step hmem (ih h')

/-- Blocks lead nowhere that they did not lead before, and need no deeper stack. -/
structure Eases (g g' : BlockGraph) : Prop where
  targets : ∀ {i j : Nat}, j ∈ (g'.block i).targets → g.Leads i j
  values : ∀ {i : Nat} {e : Scalar}, e ∈ (g'.block i).values →
    ∃ e' ∈ (g.block i).values, e.stackNeed ≤ e'.stackNeed

theorem Eases.leads (h : g.Eases g') {i j : Nat} (hleads : g'.Leads i j) : g.Leads i j := by
  induction hleads with
  | refl i => exact .refl i
  | step hj _ ih => exact (h.targets hj).trans ih

theorem Eases.trans (h : g.Eases g') (h' : g'.Eases g'') : g.Eases g'' where
  targets hj := h.leads (h'.targets hj)
  values he := by
    obtain ⟨e', he', hle'⟩ := h'.values he
    obtain ⟨e'', he'', hle''⟩ := h.values he'
    exact ⟨e'', he'', Nat.le_trans hle' hle''⟩

theorem Eases.refl (g : BlockGraph) : g.Eases g :=
  ⟨fun hj => .step hj (.refl _), fun he => ⟨_, he, Nat.le_refl _⟩⟩

theorem Shallow.of_eases (hg : g.Shallow) (h : g.Eases g') : g'.Shallow := by
  intro i hi e he
  obtain ⟨e', he', hle⟩ := h.values he
  exact Nat.le_trans hle (hg i (h.leads hi) e' he')

theorem eases_fold (g : BlockGraph) : g.Eases g.fold := by
  refine ⟨fun {i j} hj => ?_, fun {i e} he => ?_⟩
  · rw [g.block_fold, Block.targets_mapValues] at hj
    exact .step hj (.refl j)
  · rw [g.block_fold, Block.values_mapValues] at he
    obtain ⟨e', he', rfl⟩ := List.mem_map.1 he
    exact ⟨e', he', e'.stackNeed_fold⟩

theorem eases_settleBranches (g : BlockGraph) : g.Eases g.settleBranches := by
  refine ⟨fun {i j} hj => ?_, fun {i e} he => ⟨e, ?_, Nat.le_refl _⟩⟩
  · rw [g.block_settleBranches] at hj
    refine .step ?_ (.refl j)
    exact (List.mem_append.1 hj).elim (List.mem_append_left _)
      fun hj => List.mem_append_right _ (Exit.mem_targets_of_settle hj)
  · rw [g.block_settleBranches] at he
    refine (List.mem_append.1 he).elim (List.mem_append_left _)
      fun he => List.mem_append_right _ ?_
    change e ∈ (g.block i).exit.settle.value?.toList at he
    unfold Exit.settle at he
    split at he
    · cases he
    · exact he

theorem leads_follow (g : BlockGraph) (fuel i : Nat) : g.Leads i (follow g.blocks fuel i) := by
  induction fuel generalizing i with
  | zero => exact .refl i
  | succ fuel ih =>
    rcases g.follow_succ fuel i with hstays | ⟨j, hpass, hnext⟩
    · rw [hstays]
      exact .refl i
    · rw [hnext]
      refine .step (Block.mem_targets_of_exit ?_) (ih j)
      rw [hpass.2]
      exact List.mem_singleton_self j

theorem eases_threadJumps (g : BlockGraph) : g.Eases g.threadJumps := by
  refine ⟨fun {i j} hj => ?_, fun {i e} he => ⟨e, ?_, Nat.le_refl _⟩⟩
  · rw [g.block_threadJumps] at hj
    obtain ⟨k, hk, rfl⟩ := mem_targets_thread.1 hj
    exact .step hk (g.leads_follow _ k)
  · rw [g.block_threadJumps] at he
    rcases List.mem_append.1 he with he | he
    · obtain ⟨st, hst, hvalue⟩ := List.mem_filterMap.1 he
      obtain ⟨⟨s, span⟩, hs, rfl⟩ := List.mem_map.1 hst
      refine List.mem_append_left _ (List.mem_filterMap.2 ⟨(s, span), hs, ?_⟩)
      cases s <;> exact hvalue
    · refine List.mem_append_right _ ?_
      change e ∈ ((g.block i).exit.retarget _).merge.value?.toList at he
      cases hexit : (g.block i).exit with
      | branch c t e' =>
        rw [hexit] at he
        rcases Exit.merge_branch c (follow g.blocks g.blocks.size t)
          (follow g.blocks g.blocks.size e') with ⟨-, -, hmerge⟩ | hmerge
        · rw [Exit.retarget, hmerge] at he
          cases he
        · rw [Exit.retarget, hmerge] at he
          exact he
      | _ =>
        rw [hexit] at he
        exact he

theorem eases_dropUnreachable (g : BlockGraph) : g.Eases g.dropUnreachable :=
  ⟨(Eases.refl g).targets, (Eases.refl g).values⟩

theorem eases_shareAt {k slot : Nat} {value : Scalar}
    (hnext : (g.block k).nextShared? = some value) : g.Eases (g.shareAt k slot value) := by
  refine ⟨fun {i j} hj => ?_, fun {i e} he => ?_⟩
  · rcases g.block_shareAt k i slot value with hplain | ⟨rfl, hshared⟩
    · rw [hplain] at hj
      exact .step hj (.refl j)
    · rw [hshared] at hj
      change j ∈ ((g.block i).mapValues (Scalar.replace value slot)).targets at hj
      rw [Block.targets_mapValues] at hj
      exact .step hj (.refl j)
  · rcases g.block_shareAt k i slot value with hplain | ⟨rfl, hshared⟩
    · rw [hplain] at he
      exact ⟨e, he, Nat.le_refl _⟩
    · rw [hshared] at he
      change e ∈ value :: ((g.block i).mapValues (Scalar.replace value slot)).values at he
      rw [Block.values_mapValues] at he
      rcases List.mem_cons.1 he with rfl | he
      · obtain ⟨e', he', hfound⟩ := Block.nextShared?_found hnext
        exact ⟨e', he', hfound.part.stackNeed_le⟩
      · obtain ⟨e', he', rfl⟩ := List.mem_map.1 he
        exact ⟨e', he', Scalar.stackNeed_replace ..⟩

theorem eases_simplify (g : BlockGraph) : g.Eases g.simplify :=
  (eases_fold g).trans <| (eases_settleBranches _).trans <|
    (eases_threadJumps _).trans (eases_dropUnreachable _)

theorem eases_share (g : BlockGraph) : g.Eases g.share :=
  share_induction (fun h hnext => h.trans (eases_shareAt hnext)) (.refl g)

/-- The passes of a level make no stack deeper. -/
theorem Shallow.optimize (h : g.Shallow) (level : UInt8) : (g.optimize level).Shallow := by
  refine h.of_eases ?_
  rcases optimize_cases level g with h | h | h | ⟨-, h⟩ <;> rw [h]
  · exact .refl g
  · exact eases_fold g
  · exact eases_simplify g
  · exact (eases_simplify g).trans (eases_share _)

end BlockGraph

end Behavior
