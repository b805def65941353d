import Behavior.Proofs.Correctness
import Behavior.Proofs.SharingRounds

/-!
Locals that are read before they are set.

A block exposes a local if it may be read from there on, in the block itself or where it leads,
while nothing has been stored to it. Blocks that do so form a set that is closed: a block that leads
to one of them without a store on the way is one of them. A document reads a local only where it has
been bound, and loops and conditions that are kept set their own locals first, so no local is exposed
where a flow starts. The passes over the blocks do not change that.
-/

namespace Behavior

/-! ## Exposed locals -/

/-- A step reads a local, or leaves it as it is for what comes after. `exposed` tells of the blocks
that can be called. -/
def Step.Exposes (slot : Nat) (exposed : Nat → Prop) (after : Prop) : Step → Prop
  | setLocal s value => value.Reads slot ∨ s ≠ slot ∧ after
  | setOutput _ value => value.Reads slot ∨ after
  | call block => exposed block ∨ after

def Exit.Exposes (slot : Nat) (exposed : Nat → Prop) (e : Exit) : Prop :=
  (∃ value ∈ e.value?, value.Reads slot) ∨ ∃ i ∈ e.targets, exposed i

/-- Steps, or what comes after them, read a local that they have not set before. -/
def exposes (slot : Nat) (exposed : Nat → Prop) (after : Prop) (steps : List (Step × Span)) :
    Prop :=
  steps.foldr (fun s after => s.1.Exposes slot exposed after) after

def Block.Exposes (slot : Nat) (exposed : Nat → Prop) (b : Block) : Prop :=
  exposes slot exposed (b.exit.Exposes slot exposed) b.steps

/-- No local is exposed at the first block. -/
def BlockGraph.Unexposed (g : BlockGraph) : Prop :=
  ∀ slot, ∃ exposed : Nat → Prop,
    (∀ i, (g.block i).Exposes slot exposed → exposed i) ∧ ¬ exposed BlockGraph.entry

section

variable {slot : Nat} {exposed exposed' : Nat → Prop} {after after' : Prop}
  {steps : List (Step × Span)} {b : Block}

theorem Step.Exposes.mono {s : Step} (hexposed : ∀ i, exposed i → exposed' i)
    (hafter : after → after') (h : s.Exposes slot exposed after) :
    s.Exposes slot exposed' after' := by
  cases s with
  | setLocal _ _ => exact h.imp_right fun h => ⟨h.1, hafter h.2⟩
  | setOutput _ _ => exact h.imp_right hafter
  | call _ => exact h.imp (hexposed _) hafter

theorem Exit.Exposes.mono {e : Exit} (hexposed : ∀ i, exposed i → exposed' i)
    (h : e.Exposes slot exposed) : e.Exposes slot exposed' :=
  h.imp_right fun ⟨i, hi, h⟩ => ⟨i, hi, hexposed i h⟩

/-- Steps may be changed if each of them exposes no more than before. -/
theorem exposes_of_map {f : Step → Step}
    (hf : ∀ {s : Step} {after : Prop}, (f s).Exposes slot exposed after →
      s.Exposes slot exposed after) (hafter : after → after')
    (h : exposes slot exposed after (steps.map fun (s, span) => (f s, span))) :
    exposes slot exposed after' steps := by
  induction steps with
  | nil => exact hafter h
  | cons s rest ih => exact (hf h).mono (fun _ h => h) ih

theorem exposes_mono (hexposed : ∀ i, exposed i → exposed' i) (hafter : after → after')
    (h : exposes slot exposed after steps) :
    exposes slot exposed' after' steps := by
  induction steps with
  | nil => exact hafter h
  | cons s rest ih => exact h.mono hexposed ih

theorem Block.Exposes.mono (hexposed : ∀ i, exposed i → exposed' i) (h : b.Exposes slot exposed) :
    b.Exposes slot exposed' :=
  exposes_mono hexposed (.mono hexposed) h

theorem Block.exposes_prepend :
    (b.prepend steps).Exposes slot exposed ↔
      exposes slot exposed (b.Exposes slot exposed) steps := by
  rw [Block.Exposes, Block.prepend, exposes, List.foldr_append]
  rfl

theorem Block.Exposes.of_exists {exposed : Nat → Nat → Prop}
    (h : b.Exposes slot fun i => ∃ n, exposed n i) : ∃ n, b.Exposes slot (exposed n) := by
  obtain ⟨steps, exit, span⟩ := b
  induction steps with
  | nil =>
    rcases h with h | ⟨i, hi, n, h⟩
    · exact ⟨0, .inl h⟩
    · exact ⟨n, .inr ⟨i, hi, h⟩⟩
  | cons s rest ih =>
    obtain ⟨s, stepSpan⟩ := s
    cases s with
    | setLocal _ _ =>
      rcases h with h | ⟨hne, h⟩
      · exact ⟨0, .inl h⟩
      · exact (ih h).imp fun _ h => .inr ⟨hne, h⟩
    | setOutput _ _ =>
      rcases h with h | h
      · exact ⟨0, .inl h⟩
      · exact (ih h).imp fun _ h => .inr h
    | call _ =>
      rcases h with ⟨n, h⟩ | h
      · exact ⟨n, .inl h⟩
      · exact (ih h).imp fun _ h => .inr h

theorem Block.Exposes.reads (h : b.Exposes slot fun _ => False) :
    ∃ e ∈ b.values, e.Reads slot := by
  obtain ⟨steps, exit, span⟩ := b
  have hexit {e : Exit} (h : e.Exposes slot fun _ => False) :
      ∃ v ∈ e.value?.toList, v.Reads slot := by
    rcases h with ⟨v, hv, hreads⟩ | ⟨_, _, h⟩
    · exact ⟨v, Option.mem_toList.2 hv, hreads⟩
    · exact h.elim
  induction steps with
  | nil => exact hexit h
  | cons s rest ih =>
    obtain ⟨s, stepSpan⟩ := s
    have hlater (h : Block.Exposes slot (fun _ => False) ⟨rest, exit, span⟩) :
        ∃ e ∈ Block.values ⟨(s, stepSpan) :: rest, exit, span⟩, e.Reads slot := by
      obtain ⟨e, he, hreads⟩ := ih h
      refine ⟨e, ?_, hreads⟩
      rw [Block.values, List.filterMap_cons]
      split
      · exact he
      · exact List.mem_cons_of_mem _ he
    cases s with
    | setLocal _ value =>
      rcases h with h | h
      · exact ⟨value, List.mem_cons_self, h⟩
      · exact hlater h.2
    | setOutput _ value =>
      rcases h with h | h
      · exact ⟨value, List.mem_cons_self, h⟩
      · exact hlater h
    | call _ =>
      rcases h with h | h
      · exact h.elim
      · exact hlater h

end

/-! ## The passes -/

theorem Scalar.Reads.of_fold {e : Scalar} {i : Nat} (h : e.fold.Reads i) : e.Reads i := by
  induction e with
  | const _ | inputSlot _ | localSlot _ | random => exact h
  | unary f a iha =>
    rw [Scalar.fold] at h
    split at h
    · exact h.elim
    · exact iha h
  | binary f a b iha ihb =>
    rw [Scalar.fold] at h
    split at h
    · exact h.elim
    · exact h.imp iha ihb
  | ternary f a b c iha ihb ihc =>
    rw [Scalar.fold] at h
    split at h
    · exact h.elim
    · exact h.imp iha (.imp ihb ihc)
  | select c a b ihc iha ihb =>
    rw [Scalar.fold] at h
    split at h
    · split at h
      · exact .inr (.inl (iha h))
      · exact .inr (.inr (ihb h))
    · exact h.imp ihc (.imp iha ihb)

section

variable {slot : Nat} {exposed : Nat → Prop} {e : Exit}

/-- Expressions may be changed if they read no more than before. -/
theorem Block.Exposes.of_mapValues {b : Block} {f : Scalar → Scalar}
    (hf : ∀ e : Scalar, (f e).Reads slot → e.Reads slot)
    (h : (b.mapValues f).Exposes slot exposed) : b.Exposes slot exposed := by
  refine exposes_of_map (fun {s _} h => ?_) (fun h => ?_) h
  · cases s with
    | setLocal _ value | setOutput _ value => exact h.imp_left (hf value)
    | call _ => exact h
  · have h : (b.exit.mapValue f).Exposes slot exposed := h
    cases hexit : b.exit with
    | branch value _ _ | wait value _ =>
      rw [hexit] at h
      refine h.imp_left fun ⟨_, he, hreads⟩ => ?_
      cases he
      exact ⟨value, rfl, hf value hreads⟩
    | jump _ | ret | halt | pause _ _ =>
      rw [hexit] at h
      exact h

theorem Exit.Exposes.of_settle (h : e.settle.Exposes slot exposed) :
    e.Exposes slot exposed := by
  unfold Exit.settle at h
  split at h
  · obtain ⟨_, hvalue, -⟩ | ⟨i, hi, h⟩ := h
    · cases hvalue
    · refine .inr ⟨i, ?_, h⟩
      rw [List.mem_singleton.1 hi]
      split
      · exact List.mem_cons_self
      · exact List.mem_cons_of_mem _ List.mem_cons_self
  · exact h

theorem Exit.Exposes.of_merge (h : e.merge.Exposes slot exposed) :
    e.Exposes slot exposed := by
  unfold Exit.merge at h
  split at h
  · split at h
    · obtain ⟨_, hvalue, -⟩ | ⟨i, hi, h⟩ := h
      · cases hvalue
      · exact .inr ⟨i, List.mem_singleton.1 hi ▸ List.mem_cons_self, h⟩
    · exact h
  · exact h

theorem Exit.Exposes.of_retarget {f : Nat → Nat} (hf : ∀ i, exposed (f i) → exposed i)
    (h : (e.retarget f).Exposes slot exposed) : e.Exposes slot exposed := by
  have htargets : (e.retarget f).targets = e.targets.map f := by cases e <;> rfl
  have hvalue : (e.retarget f).value? = e.value? := by cases e <;> rfl
  rw [Exit.Exposes, htargets, hvalue] at h
  refine h.imp_right fun ⟨_, hmem, h⟩ => ?_
  obtain ⟨i, hi, rfl⟩ := List.mem_map.1 hmem
  exact ⟨i, hi, hf i h⟩

end

namespace BlockGraph

variable {g : BlockGraph} {x : Extent}

/-- A change of blocks that lets none of them expose more. -/
theorem Unexposed.of_block {g' : BlockGraph} (h : g.Unexposed)
    (hblock : ∀ {slot exposed}, (∀ i, (g.block i).Exposes slot exposed → exposed i) →
      ∀ i, (g'.block i).Exposes slot exposed → (g.block i).Exposes slot exposed) :
    g'.Unexposed := by
  intro slot
  obtain ⟨exposed, hclosed, hentry⟩ := h slot
  exact ⟨exposed, fun i hi => hclosed i (hblock hclosed i hi), hentry⟩

theorem Unexposed.fold (h : g.Unexposed) : g.fold.Unexposed := by
  refine h.of_block fun _ i hi => ?_
  rw [BlockGraph.fold, g.block_mapBlocks rfl] at hi
  exact hi.of_mapValues fun _ hreads => hreads.of_fold

theorem Unexposed.settleBranches (h : g.Unexposed) : g.settleBranches.Unexposed := by
  refine h.of_block fun _ i hi => ?_
  rw [g.block_settleBranches] at hi
  exact exposes_mono (fun _ h => h) (fun h => h.of_settle) hi

/-- If a jump ends up at an exposed block, it leads to one. -/
theorem exposed_of_follow {slot : Nat} {exposed : Nat → Prop}
    (hclosed : ∀ i, (g.block i).Exposes slot exposed → exposed i) {fuel i : Nat}
    (h : exposed (follow g.blocks fuel i)) : exposed i := by
  induction fuel generalizing i with
  | zero => exact h
  | succ fuel ih =>
    rcases g.follow_succ fuel i with hstays | ⟨j, ⟨hsteps, hexit⟩, hnext⟩
    · rwa [hstays] at h
    · rw [hnext] at h
      refine hclosed i ?_
      rw [Block.Exposes, hsteps, hexit]
      exact .inr ⟨j, List.mem_cons_self, ih h⟩

theorem Unexposed.threadJumps (h : g.Unexposed) : g.threadJumps.Unexposed := by
  refine h.of_block fun {slot exposed} hclosed i hi => ?_
  rw [g.block_threadJumps] at hi
  have hfollow (i : Nat) (h : exposed (follow g.blocks g.blocks.size i)) : exposed i :=
    exposed_of_follow hclosed h
  refine exposes_of_map (fun {s _} h => ?_) (fun h => h.of_merge.of_retarget hfollow) hi
  cases s with
  | call block => exact h.imp_left (hfollow block)
  | setLocal _ _ | setOutput _ _ => exact h

theorem Unexposed.simplify (h : g.Unexposed) : g.simplify.Unexposed :=
  h.fold.settleBranches.threadJumps

/-- A value is kept before it is read, and reads no locals itself. -/
theorem Unexposed.shareAt (h : g.Unexposed) (hg : g.Within (extent x g)) {k : Nat} {value : Scalar}
    (hnext : (g.block k).nextShared? = some value) :
    (g.shareAt k g.localCount value).Unexposed := by
  obtain ⟨_, _, hfound⟩ := Block.nextShared?_found hnext
  intro slot
  by_cases hslot : slot = g.localCount
  · subst hslot
    -- nothing but the block that keeps the value mentions the new local
    refine ⟨fun _ => False, fun i hi => ?_, id⟩
    rcases g.block_shareAt k i g.localCount value with hplain | ⟨rfl, hshared⟩
    · rw [hplain] at hi
      obtain ⟨e, he, hreads⟩ := hi.reads
      exact Nat.lt_irrefl _ (hreads.lt ((hg i).value he))
    · rw [hshared] at hi
      rcases hi with hreads | ⟨hne, -⟩
      · exact hfound.fixed.not_reads _ hreads
      · exact hne rfl
  · obtain ⟨exposed, hclosed, hentry⟩ := h slot
    refine ⟨exposed, fun i hi => hclosed i ?_, hentry⟩
    rcases g.block_shareAt k i g.localCount value with hplain | ⟨rfl, hshared⟩
    · rwa [hplain] at hi
    · rw [hshared] at hi
      rcases hi with hreads | ⟨-, hi⟩
      · exact (hfound.fixed.not_reads _ hreads).elim
      · exact Block.Exposes.of_mapValues
          (fun _ hreads => hreads.of_replace.resolve_left hslot) hi

/-- The passes of a level expose no local. -/
theorem Unexposed.optimize (h : g.Unexposed) (hg : g.Within (extent x g)) (level : UInt8) :
    (g.optimize level).Unexposed := by
  rcases optimize_cases level g with heq | heq | heq | ⟨-, heq⟩
  · rwa [heq]
  · rw [heq]
    exact h.fold
  · rw [heq]
    exact h.simplify
  · rw [heq]
    have hboth : g.simplify.share.Within (extent x g.simplify.share) ∧ g.simplify.share.Unexposed :=
      share_induction (P := fun g => g.Within (extent x g) ∧ g.Unexposed)
        (fun h hnext => ⟨h.1.shareNext hnext, h.2.shareAt h.1 hnext⟩) ⟨hg.simplify, h.simplify⟩
    exact hboth.2

end BlockGraph

/-! ## Documents -/

/-- A local is exposed at a block, by reading it after so many blocks at most. -/
def BlockGraph.Exposed (G : BlockGraph) (slot : Nat) : Nat → Block → Prop
  | 0, _ => False
  | n + 1, b => b.Exposes slot fun i => G.Exposed slot n (G.block i)

namespace Typed

variable {registry : Registry} {graph : FlowGraph} {d : Document} {p : Program} {m : Nat}

section

variable {G : BlockGraph} {slot n first kept : Nat} {b b' : Block} {scopes : List Scope}
  {span : Span} {v : Value}
variable {exposed : Nat → Prop} {after : Prop}

theorem exposed_of_le (hle : m ≤ n) (h : G.Exposed slot m b) : G.Exposed slot n b := by
  induction m generalizing n b with
  | zero => exact h.elim
  | succ m ih =>
    obtain ⟨n, rfl⟩ := Nat.exists_eq_add_of_le' (Nat.lt_of_lt_of_le (Nat.succ_pos m) hle)
    exact Block.Exposes.mono (fun _ h => ih (Nat.le_of_succ_le_succ hle) h) h

/-- Steps in front of a block expose a local only if the block does. -/
theorem exposed_of_prepend {steps : List (Step × Span)} {P : Prop}
    (hsteps : ∀ {exposed : Nat → Prop} {after : Prop}, exposes slot exposed after steps →
      P ∧ after) (h : G.Exposed slot n (b.prepend steps)) : P ∧ G.Exposed slot n b := by
  cases n with
  | zero => exact h.elim
  | succ n => exact hsteps (Block.exposes_prepend.1 h)

/-- No known local has the slot. -/
def Fresh (slot : Nat) (scopes : List Scope) : Prop :=
  ∀ x ∈ scopes.flatten, ¬ (x.2.slot ≤ slot ∧ slot < x.2.slot + x.2.width)

theorem Fresh.define {scope : Scope} {outer : List Scope} (h : Fresh slot (scope :: outer))
    {type : ValueType} (hslot : ¬ (first ≤ slot ∧ slot < first + type.width)) (name : String) :
    Fresh slot (scope.define name ⟨first, some type⟩ :: outer) := by
  intro x hx
  rcases List.mem_cons.1 hx with rfl | hx
  · exact hslot
  · exact h x ((List.filter_sublist.append_right _).subset hx)

/-- What depends on known locals does not read a slot that none of them has. -/
theorem ReadsKnown.not_reads (hfresh : Fresh slot scopes) {j : Nat} (hj : j < 3) {e : Scalar}
    (h : ReadsKnown scopes j e) : ¬ e.Reads slot := by
  intro hreads
  obtain ⟨x, hx, type, htype, hplace⟩ := h slot hreads
  refine hfresh x hx ?_
  have hwidth : x.2.width = type.width := by rw [Local.width, htype]; rfl
  have hpos := width_pos type
  rcases hplace with ⟨-, rfl⟩ | ⟨rfl, rfl⟩
  · omega
  · have hthree : x.2.width = 3 := hwidth
    omega

/-! ### Storing a value -/

theorem exposes_keeps {conditions : List Scalar} (hreads : ∀ c ∈ conditions, ¬ c.Reads slot)
    (h : exposes slot exposed after (keeps span kept conditions)) :
    ¬ (kept ≤ slot ∧ slot < kept + conditions.length) ∧ after := by
  induction conditions generalizing kept with
  | nil => exact ⟨fun hslot => Nat.lt_irrefl _ (Nat.lt_of_lt_of_le hslot.2 hslot.1), h⟩
  | cons c rest ih =>
    rcases h with h | ⟨hne, h⟩
    · exact (hreads c List.mem_cons_self h).elim
    · obtain ⟨hrest, hafter⟩ := ih (fun c hc => hreads c (List.mem_cons_of_mem _ hc)) h
      refine ⟨?_, hafter⟩
      rw [List.length_cons]
      omega

/-- The conditions of a vector read no more than the vector, which then reads them where they are
kept. -/
theorem Triple.reads_hoist {v : Triple} (h : ∀ j < 3, ¬ (v.component j).Reads slot) (kept : Nat) :
    (∀ c ∈ (v.hoist kept).1, ¬ c.Reads slot) ∧ ∀ j < 3, ((v.hoist kept).2.component j).Reads slot →
      kept ≤ slot ∧ slot < kept + (v.hoist kept).1.length := by
  induction v generalizing kept with
  | make _ _ _ | inputSlots _ | localSlots _ =>
    exact ⟨fun _ hc => absurd hc List.not_mem_nil, fun j hj hreads => (h j hj hreads).elim⟩
  | select condition a b iha ihb =>
    have hcondition : ¬ condition.Reads slot := fun hreads => h 0 (by decide) (.inl hreads)
    replace iha := iha fun j hj hreads => h j hj (.inr (.inl hreads))
    replace ihb := ihb fun j hj hreads => h j hj (.inr (.inr hreads))
    rw [Triple.hoist]
    split
    · obtain ⟨hcs, ha⟩ := iha kept
      obtain ⟨hds, hb⟩ := ihb (kept + (a.hoist kept).1.length)
      refine ⟨List.forall_mem_append.2 ⟨hcs, hds⟩, fun j hj hreads => ?_⟩
      dsimp only
      rw [List.length_append]
      rcases hreads with hreads | hreads | hreads
      · exact (hcondition hreads).elim
      · have hslot := ha j hj hreads
        omega
      · have hslot := hb j hj hreads
        omega
    · obtain ⟨hcs, ha⟩ := iha (kept + 1)
      obtain ⟨hds, hb⟩ := ihb (kept + 1 + (a.hoist (kept + 1)).1.length)
      refine ⟨List.forall_mem_cons.2 ⟨hcondition, List.forall_mem_append.2 ⟨hcs, hds⟩⟩,
        fun j hj hreads => ?_⟩
      dsimp only
      rw [List.length_cons, List.length_append]
      rcases hreads with hreads | hreads | hreads
      · have hslot : kept = slot := hreads
        omega
      · have hslot := ha j hj hreads
        omega
      · have hslot := hb j hj hreads
        omega

/-- No number of a value reads the local. -/
def Value.Avoids (slot : Nat) : Value → Prop
  | .number e | .bool e | .string e => ¬ e.Reads slot
  | .vector v => ∀ j < 3, ¬ (v.component j).Reads slot

theorem Value.ReadsKnown.avoids (h : v.ReadsKnown scopes) (hfresh : Fresh slot scopes) :
    v.Avoids slot := by
  cases v with
  | number e | bool e | string e => exact Typed.ReadsKnown.not_reads hfresh (by decide) (h 0)
  | vector v => exact fun j hj => Typed.ReadsKnown.not_reads hfresh hj (h j)

/-- Storing a value that does not read the local leaves it exposed only as it is after the stores.
`P` is what is true of the slots that are stored to. -/
theorem Value.exposes_stores {set : Nat → Scalar → Step} {P : Nat → Prop}
    (hset : ∀ {i e} {after : Prop}, (set i e).Exposes slot exposed after →
      e.Reads slot ∨ P i ∧ after) (hv : v.Avoids slot)
    (h : exposes slot exposed after (v.stores span set first kept)) :
    (∀ i, first ≤ i → i < first + v.type.width → P i) ∧ after := by
  cases v with
  | number e | bool e | string e =>
    obtain ⟨hP, h⟩ := (hset h).resolve_left hv
    refine ⟨fun i hi hi' => ?_, h⟩
    obtain rfl : i = first := Nat.le_antisymm (Nat.le_of_lt_succ hi') hi
    exact hP
  | vector v =>
    obtain ⟨hconditions, hcomponents⟩ := Triple.reads_hoist hv kept
    rw [Value.stores, exposes, List.foldr_append] at h
    obtain ⟨hkept, h⟩ := exposes_keeps hconditions h
    have havoids : ∀ j < 3, ¬ ((v.hoist kept).2.component j).Reads slot :=
      fun j hj hreads => hkept (hcomponents j hj hreads)
    obtain ⟨hP₀, h⟩ := (hset h).resolve_left (havoids 0 (by decide))
    obtain ⟨hP₁, h⟩ := (hset h).resolve_left (havoids 1 (by decide))
    obtain ⟨hP₂, h⟩ := (hset h).resolve_left (havoids 2 (by decide))
    refine ⟨fun i hi hi' => ?_, h⟩
    have hi' : i < first + 3 := hi'
    obtain rfl | rfl | rfl : i = first ∨ i = first + 1 ∨ i = first + 1 + 1 := by omega
    · exact hP₀
    · exact hP₁
    · exact hP₂

theorem exposed_of_setLocal (hv : v.Avoids slot)
    (h : G.Exposed slot n (b.prepend (v.stores span .setLocal first kept))) :
    ¬ (first ≤ slot ∧ slot < first + v.type.width) ∧ G.Exposed slot n b := by
  obtain ⟨hslots, h⟩ := exposed_of_prepend (fun h => Value.exposes_stores id hv h) h
  exact ⟨fun hslot => hslots slot hslot.1 hslot.2 rfl, h⟩

theorem exposed_of_setOutput (hv : v.Avoids slot)
    (h : G.Exposed slot n (b.prepend (v.stores span .setOutput first kept))) :
    G.Exposed slot n b := by
  have hset {exposed : Nat → Prop} {i : Nat} {e : Scalar} {after : Prop}
      (h : (Step.setOutput i e).Exposes slot exposed after) : e.Reads slot ∨ True ∧ after :=
    h.imp_right fun h => ⟨trivial, h⟩
  exact (exposed_of_prepend (fun h => Value.exposes_stores hset hv h) h).2

end

/-! ### Statements -/

section

variable {names : Names} {T : Tables} {G : BlockGraph} {slot base n : Nat} {span : Span}

/-- Flows with a name are not exposed, as far as a number of blocks tell. -/
def FlowsUnexposed (names : Names) (G : BlockGraph) (slot n : Nat) : Prop :=
  ∀ name flow, names.flows.lookup name = some flow → ∀ m < n, ¬ G.Exposed slot m (G.block flow)

theorem FlowsUnexposed.mono (h : FlowsUnexposed names G slot n) (hle : m ≤ n) :
    FlowsUnexposed names G slot m :=
  fun name flow hflow k hk => h name flow hflow k (Nat.lt_of_lt_of_le hk hle)

theorem exposed_of_exit {exit : Exit} (h : G.Exposed slot n ⟨[], exit, span⟩) :
    (∃ value ∈ exit.value?, value.Reads slot) ∨
      ∃ i ∈ exit.targets, ∃ m < n, G.Exposed slot m (G.block i) := by
  cases n with
  | zero => exact h.elim
  | succ n => exact h.imp_right fun ⟨i, hi, h⟩ => ⟨i, hi, n, Nat.lt_succ_self n, h⟩

theorem exposed_of_jump {target : Nat} (h : G.Exposed slot n ⟨[], .jump target, span⟩) :
    ∃ m < n, G.Exposed slot m (G.block target) := by
  rcases exposed_of_exit h with ⟨_, hvalue, -⟩ | ⟨i, hi, h⟩
  · cases hvalue
  · cases List.mem_singleton.1 hi
    exact h

/-- Once the counter of a loop is set, its header exposes only what comes after the loop. -/
theorem exposed_of_header {counter header i next : Nat} {first : Block} (hcounter : counter ≠ slot)
    (hheader : G.block header = ⟨[], .branch (isRunning counter) i next, span⟩)
    (hbody : G.block i = first.prepend [(.setLocal counter (countDown counter), span)])
    (hfirst : ∀ m ≤ n, G.Exposed slot m first →
      G.Exposed slot m ⟨[], .jump header, span⟩) (h : G.Exposed slot n (G.block header)) :
    G.Exposed slot n (G.block next) := by
  have hreads {f : BinaryFn} {x : Float} :
      ¬ (Scalar.binary f (.localSlot counter) (.const x)).Reads slot := by
    rintro (h | h)
    · exact hcounter h
    · exact h
  induction n using Nat.strong_induction_on with
  | _ n ih =>
    rw [hheader] at h
    rcases exposed_of_exit h with ⟨_, hvalue, h⟩ | ⟨target, htarget, m, hm, hnext⟩
    · cases hvalue
      exact (hreads h).elim
    · rcases List.mem_cons.1 htarget with rfl | htarget
      · -- the body counts down and comes back to the header
        rw [hbody] at hnext
        have hnext : G.Exposed slot m (first.prepend
            ((Value.number (countDown counter)).stores span .setLocal counter 0)) := hnext
        have hbody := (exposed_of_setLocal (v := .number _) hreads hnext).2
        have hjump := hfirst m (Nat.le_of_lt hm) hbody
        obtain ⟨k, hk, h⟩ := exposed_of_jump hjump
        have hlt := Nat.lt_trans hk hm
        exact exposed_of_le (Nat.le_of_lt hlt)
          (ih k hlt (fun m hm => hfirst m (Nat.le_trans hm (Nat.le_of_lt hlt))) h)
      · cases List.mem_singleton.1 htarget
        exact exposed_of_le (Nat.le_of_lt hm) hnext

mutual

theorem StmtElaborates.exposed {outer : List Scope} {p p' : Place} {stmt : Behavior.Stmt} {t : Stmt}
    {b b' : Block} {n : Nat} (h : StmtElaborates names T outer p stmt t p')
    (hfresh : Fresh slot (p.scope :: outer)) (hflows : FlowsUnexposed names G slot n)
    (hlow : t.Lowered G base b b') (hexposed : G.Exposed slot n b) :
    G.Exposed slot n b' ∧ Fresh slot (p'.scope :: outer) := by
  cases h with
  | bind hvalue hfits =>
    obtain ⟨kept, -, rfl⟩ := hlow
    obtain ⟨hslot, h⟩ := exposed_of_setLocal (hvalue.readsKnown.avoids hfresh) hexposed
    exact ⟨h, hfresh.define hslot _⟩
  | assignLocal hvalue hfound =>
    obtain ⟨kept, -, rfl⟩ := hlow
    exact ⟨(exposed_of_setLocal (hvalue.readsKnown.avoids hfresh) hexposed).2, hfresh⟩
  | assignOutput hvalue hfound hresolved houtput =>
    obtain ⟨kept, -, rfl⟩ := hlow
    exact ⟨exposed_of_setOutput (hvalue.readsKnown.avoids hfresh) hexposed, hfresh⟩
  | intent hvalue hurgency hresolved hchannel =>
    obtain ⟨kept, -, rfl⟩ := hlow
    have h : G.Exposed slot n (b'.prepend ((Value.number _).stores _ .setOutput _ kept)) :=
      exposed_of_setOutput (hvalue.readsKnown.avoids hfresh) hexposed
    exact ⟨exposed_of_setOutput (hurgency.readsKnown.avoids hfresh) h, hfresh⟩
  | branch hcondition hthen helse =>
    obtain ⟨i, j, merge, rfl, rfl, hthenLow, helseLow⟩ := hlow
    refine ⟨?_, hfresh⟩
    rcases exposed_of_exit hexposed with ⟨_, hvalue, hreads⟩ | ⟨target, htarget, m, hm, h⟩
    · cases hvalue
      exact (hcondition.readsKnown.avoids hfresh hreads).elim
    · have hflows' := hflows.mono (Nat.le_of_lt hm)
      have hmerge {span : Span} (h : G.Exposed slot m ⟨[], .jump merge, span⟩) :
          G.Exposed slot n (G.block merge) := by
        obtain ⟨k, hk, h⟩ := exposed_of_jump h
        exact exposed_of_le (Nat.le_of_lt (Nat.lt_trans hk hm)) h
      rcases List.mem_cons.1 htarget with rfl | htarget
      · exact hmerge (hthen.exposed hfresh hflows' hthenLow h).1
      · cases List.mem_singleton.1 htarget
        rcases helseLow with helseLow | ⟨-, rfl⟩
        · exact hmerge (helse.exposed hfresh hflows' helseLow h).1
        · exact exposed_of_le (Nat.le_of_lt hm) h
  | @loop _ _ _ span count _ _ hcount hfits hbody =>
    refine ⟨?_, hfresh⟩
    rcases hlow with ⟨-, rfl⟩ | ⟨-, header, i, next, first, rfl, hheader, hblock, rfl, hlow⟩
    · exact hexposed
    · have h : G.Exposed slot n (Block.prepend ⟨[], .jump header, span⟩
          ((Value.number (.const (Float.ofNat count))).stores span .setLocal p.next 0)) := hexposed
      obtain ⟨hcounter, h⟩ := exposed_of_setLocal id h
      obtain ⟨m, hm, h⟩ := exposed_of_jump h
      have hne : p.next ≠ slot := fun heq => hcounter ⟨Nat.le_of_eq heq, heq ▸ Nat.lt_succ_self _⟩
      refine exposed_of_le (Nat.le_of_lt hm) (exposed_of_header hne hheader hblock ?_ h)
      exact fun k hk hfirst => (hbody.exposed hfresh
        (hflows.mono (Nat.le_trans hk (Nat.le_of_lt hm))) hlow hfirst).1
  | call hflow =>
    obtain rfl := hlow
    cases n with
    | zero => exact hexposed.elim
    | succ n =>
      rcases hexposed with h | h
      · exact (hflows _ _ hflow n (Nat.lt_succ_self n) h).elim
      · exact ⟨h, hfresh⟩
  | goto hflow =>
    obtain rfl := hlow
    obtain ⟨m, hm, h⟩ := exposed_of_jump hexposed
    exact (hflows _ _ hflow m hm h).elim
  | wait hseconds =>
    obtain ⟨i, rfl, rfl⟩ := hlow
    refine ⟨?_, hfresh⟩
    rcases exposed_of_exit hexposed with ⟨_, hvalue, hreads⟩ | ⟨target, htarget, m, hm, h⟩
    · cases hvalue
      exact (hseconds.readsKnown.avoids hfresh hreads).elim
    · cases List.mem_singleton.1 htarget
      exact exposed_of_le (Nat.le_of_lt hm) h
  | continuation htimeout hpoint hflow =>
    obtain rfl := hlow
    rcases exposed_of_exit hexposed with ⟨_, hvalue, -⟩ | ⟨target, htarget, m, hm, h⟩
    · cases hvalue
    · cases List.mem_singleton.1 htarget
      exact (hflows _ _ hflow m hm h).elim
  | halt =>
    obtain rfl := hlow
    rcases exposed_of_exit hexposed with ⟨_, hvalue, -⟩ | ⟨_, htarget, -⟩
    · cases hvalue
    · cases htarget

/-- Statements expose only what is exposed after them, of slots that no known local has. -/
theorem StmtsElaborate.exposed {outer : List Scope} {p p' : Place} {stmts : List Behavior.Stmt}
    {ts : List Stmt} {b b' : Block} {n : Nat} (h : StmtsElaborate names T outer p stmts ts p')
    (hfresh : Fresh slot (p.scope :: outer)) (hflows : FlowsUnexposed names G slot n)
    (hlow : Stmt.AllLowered G base ts b b') (hexposed : G.Exposed slot n b) :
    G.Exposed slot n b' ∧ Fresh slot (p'.scope :: outer) := by
  cases h with
  | nil =>
    obtain rfl := hlow
    exact ⟨hexposed, hfresh⟩
  | cons hhead htail =>
    obtain ⟨c, hheadLow, htailLow⟩ := hlow
    have hmid := hhead.exposed hfresh hflows hheadLow hexposed
    exact htail.exposed hmid.2 hflows htailLow hmid.1

end

end

theorem Checked.not_exposed {names : Names} (h : Checked registry d p names graph) {slot n k : Nat}
    (hk : k < p.flows.length) : ¬ p.toBlocks.Exposed slot n (p.toBlocks.block k) := by
  induction n using Nat.strong_induction_on generalizing k with
  | _ n ih =>
    intro hexposed
    have hflow := List.getElem?_eq_getElem hk
    obtain ⟨_, -, first, q, hbody⟩ := h.elaborated (List.getElem_mem hk)
    have hflows : FlowsUnexposed names p.toBlocks slot n := by
      intro name flow hname m hm
      rw [h.numbers] at hname
      obtain ⟨j, _, hj, hflow, -⟩ := find?_of_lookup hname
      refine ih m hm ?_
      rw [h.flows.length_eq, hj, Nat.zero_add]
      exact (List.getElem?_eq_some_iff.1 hflow).1
    have hend := (hbody.exposed (fun _ hx => absurd hx List.not_mem_nil) hflows
      (p.lowered hflow) hexposed).1
    -- a flow ends by going back, which reads nothing
    rcases exposed_of_exit hend with ⟨_, hvalue, -⟩ | ⟨_, htarget, -⟩
    · cases hvalue
    · cases htarget

/-- No local is exposed at the first block of a document. -/
theorem Checked.unexposed {names : Names} (h : Checked registry d p names graph) :
    p.toBlocks.Unexposed := by
  intro slot
  refine ⟨fun i => ∃ n, p.toBlocks.Exposed slot n (p.toBlocks.block i), fun i hi => ?_, ?_⟩
  · obtain ⟨n, hn⟩ := hi.of_exists
    exact ⟨n + 1, hn⟩
  · rintro ⟨n, hn⟩
    exact h.not_exposed (List.length_pos_of_ne_nil h.nonempty) hn

end Typed

end Behavior
