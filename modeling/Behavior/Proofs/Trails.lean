import Behavior.Proofs.Compiled
import Behavior.Proofs.Sharing

/-!
How long walks can get, whatever the inputs and the random numbers are. A trail is a walk that has
forgotten outputs and random numbers. It knows the values of constants, and of what is computed from
a local and a constant, which is how loops count; all else may come to any value. Waits and
continuation points do not end a trail: it goes on as if no time had passed.

What bounds the trails through a graph bounds its walks, also when inputs change on the way. The
passes over graphs lengthen trails at most by the values they share.
-/

namespace Behavior

variable {locals' : Nat → Float} {value : Scalar}

namespace Scalar

variable {locals : Nat → Float} {e : Scalar} {x : Float}
variable {y : Extent}

/-- The value of an expression where trails know it. -/
def known? (locals : Nat → Float) : Scalar → Option Float
  | const x => some x
  | binary f (localSlot i) (const x) => some (f.apply (locals i) x)
  | _ => none

/-- What an expression may come to. -/
def Allows (locals : Nat → Float) (e : Scalar) (v : Float) : Prop :=
  ∀ x, e.known? locals = some x → v = x

/-- Every expression comes to something. -/
theorem exists_allows (locals : Nat → Float) (e : Scalar) : ∃ v, e.Allows locals v := by
  cases h : e.known? locals with
  | none => exact ⟨0.0, fun x hx => by rw [h] at hx; cases hx⟩
  | some x => exact ⟨x, fun y hy => by rw [h] at hy; cases hy; rfl⟩

theorem allows_eval (inputs : Array Float) (locals : Nat → Float) (e : Scalar) (r : Tape) :
    e.Allows locals (e.eval inputs locals r).1 := by
  intro x hx
  unfold known? at hx
  split at hx
  · cases hx
    rfl
  · cases hx
    rfl
  · cases hx

/-- What is known of an expression is known after folding it. -/
theorem known?_fold (h : e.known? locals = some x) : e.fold.known? locals = some x := by
  unfold known? at h
  split at h
  · exact h
  · exact h
  · cases h

theorem known?_congr (he : e.Within y) (hlocals : ∀ i < y.locals, locals' i = locals i)
    (h : e.known? locals = some x) : e.known? locals' = some x := by
  unfold known? at h
  split at h
  · exact h
  · next f i c => rw [known?, hlocals i he.1, h]
  · cases h

/-- What is known of an expression does not depend on values that can be shared. -/
theorem known?_replace {slot : Nat} (hvalue : value.Fixed) (hoperands : value.operands ≠ [])
    (he : e.Within y) (hlocals : ∀ i < y.locals, locals' i = locals i)
    (h : e.known? locals = some x) : (replace value slot e).known? locals' = some x := by
  suffices hsame : replace value slot e = e by
    rw [hsame]
    exact known?_congr he hlocals h
  have hkeeps {x : Float} : replace value slot (.const x) = .const x := by
    unfold replace
    refine if_neg fun hsame => ?_
    rw [← eq_of_same hsame] at hoperands
    exact hoperands rfl
  have hreads {e : Scalar} (he : e.readsLocals = true) : ¬ e.same value = true := by
    intro hsame
    rw [eq_of_same hsame, hvalue.readsLocals] at he
    cases he
  unfold known? at h
  split at h
  · exact hkeeps
  · next f i x =>
    have hslot : replace value slot (.localSlot i) = .localSlot i := by
      unfold replace
      exact if_neg (hreads rfl)
    rw [replace, if_neg (hreads rfl), hslot, hkeeps]
  · cases h

end Scalar

/-- What a block does next. -/
inductive Deed where
  /-- Go on with what is left of the block. -/
  | stay (rest : Block) (locals : Nat → Float)
  /-- Enter a block, and come back if something is left to be done afterwards. -/
  | enter (i : Nat) (rest? : Option Block)
  | ret

/-- What a block may do next. It goes on after waits and continuation points. -/
def Block.Does (b : Block) (locals : Nat → Float) (d : Deed) : Prop :=
  match b.steps with
  | (.setLocal slot value, _) :: rest =>
    ∃ v, value.Allows locals v ∧
      d = .stay { b with steps := rest } (Function.update locals slot v)
  | (.setOutput _ _, _) :: rest => d = .stay { b with steps := rest } locals
  | (.call i, _) :: rest => d = .enter i (some { b with steps := rest })
  | [] =>
    match b.exit with
    | .jump i => d = .enter i none
    | .branch condition i j =>
      ∃ v, condition.Allows locals v ∧ d = .enter (if truthy v then i else j) none
    | .ret => d = .ret
    | .halt => False
    | .wait _ i | .pause _ i => d = .stay { exit := .jump i } locals

/-- Somewhere in a block graph, with the locals that loops may count in. -/
structure Trail where
  /-- What is left of the current block. -/
  block : Block
  /-- What is left of the blocks to come back to, the innermost first. -/
  calls : List Block := []
  locals : Nat → Float

namespace Trail

/-- At the entry of a graph, with all locals zero. -/
def start (g : BlockGraph) : Trail where
  block := g.block BlockGraph.entry
  locals := fun _ => 0.0

/-- Where a deed leads to. -/
def after? (g : BlockGraph) (t : Trail) : Deed → Option Trail
  | .stay rest locals => some ⟨rest, t.calls, locals⟩
  | .enter i rest? => some ⟨g.block i, rest?.toList ++ t.calls, t.locals⟩
  | .ret =>
    match t.calls with
    | back :: rest => some ⟨back, rest, t.locals⟩
    | [] => none

def Moves (g : BlockGraph) (t u : Trail) : Prop :=
  ∃ d, t.block.Does t.locals d ∧ t.after? g d = some u

/-- Wherever a trail leads, it ends after fewer moves than the given number. -/
def EndsWithin (g : BlockGraph) : Nat → Trail → Prop
  | 0, _ => False
  | n + 1, t => ∀ u, t.Moves g u → EndsWithin g n u

variable {g g' : BlockGraph} {n m : Nat} {t t' u : Trail}

theorem EndsWithin.mono (h : t.EndsWithin g n) (hle : n ≤ m) : t.EndsWithin g m := by
  induction n generalizing m t with
  | zero => exact absurd h id
  | succ n ih =>
    obtain ⟨m, rfl⟩ := Nat.exists_eq_add_of_le' hle
    exact fun u hu => ih (h u hu) (Nat.le_add_left ..)

end Trail

/-! ## Walks leave trails -/

namespace Walk

variable {g : BlockGraph} {inputs : Array Float} {w v : Walk}

def trail (w : Walk) : Trail :=
  ⟨w.block, w.calls, w.locals⟩

theorem moves_of_next (h : w.step g inputs = .next v) : w.trail.Moves g v.trail := by
  obtain ⟨⟨steps, exit, span⟩, calls, locals, outputs, tape⟩ := w
  cases steps with
  | nil =>
    cases exit with
    | jump i => cases h; exact ⟨.enter i none, rfl, rfl⟩
    | branch condition i j =>
      cases h
      exact ⟨_, ⟨_, condition.allows_eval inputs locals tape, rfl⟩, rfl⟩
    | ret =>
      cases calls with
      | nil => cases h
      | cons back rest => cases h; exact ⟨.ret, rfl, rfl⟩
    | halt | wait seconds i | pause point i => cases h
  | cons head rest =>
    obtain ⟨s, stepSpan⟩ := head
    cases s with
    | setLocal slot value =>
      cases h
      exact ⟨_, ⟨_, value.allows_eval inputs locals tape, rfl⟩, rfl⟩
    | setOutput slot value | call i => cases h; exact ⟨_, rfl, rfl⟩

/-- A trail goes on where a walk waits or pauses. -/
theorem moves_of_stop {signal : Signal} (h : w.step g inputs = .stop signal v)
    (hsignal : signal ≠ .halt) : w.trail.Moves g v.trail := by
  obtain ⟨⟨steps, exit, span⟩, calls, locals, outputs, tape⟩ := w
  cases steps with
  | nil =>
    cases exit with
    | jump i | branch condition i j => cases h
    | ret =>
      cases calls with
      | nil => cases h; exact absurd rfl hsignal
      | cons back rest => cases h
    | halt => cases h; exact absurd rfl hsignal
    | wait seconds i | pause point i => cases h; exact ⟨_, rfl, rfl⟩
  | cons head rest =>
    obtain ⟨s, stepSpan⟩ := head
    cases s <;> cases h

end Walk

/-! ## Graphs with the same trails -/

section

variable (g g' : BlockGraph) (R : Block → Block → Prop) (L : (Nat → Float) → (Nat → Float) → Prop)

/-- Two blocks do the same, the second perhaps after a step of its own. -/
def Soon (b b' : Block) : Prop :=
  R b b' ∨ ∀ {locals locals' d'}, L locals locals' → b'.Does locals' d' →
    ∃ c locals'', d' = .stay c locals'' ∧ R b c ∧ L locals locals''

/-- Entering one block comes to the same as entering another one, from where empty blocks are
passed. -/
inductive Enters : Nat → Nat → Prop
  | here {i i' : Nat} : Soon R L (g.block i) (g'.block i') → Enters i i'
  | pass {i j i' : Nat} : g.Passes i j → Enters j i' → Enters i i'

/-- Deeds that lead to the same. -/
inductive Deed.Same : Deed → Deed → Prop
  | stay {b b' : Block} {locals locals' : Nat → Float} :
      R b b' → L locals locals' → Same (.stay b locals) (.stay b' locals')
  | enter {i i' : Nat} {rest? rest?' : Option Block} :
      Enters g g' R L i i' → List.Forall₂ R rest?.toList rest?'.toList →
      Same (.enter i rest?) (.enter i' rest?')
  | ret : Same .ret .ret

/-- Every deed of a block of `g'` is one of its counterpart in `g`. -/
structure Copies : Prop where
  does : ∀ {b b' locals locals' d'}, R b b' → L locals locals' → b'.Does locals' d' →
    ∃ d, b.Does locals d ∧ d.Same g g' R L d'

end

section

open Trail

variable {g g' : BlockGraph} {R : Block → Block → Prop} {L : (Nat → Float) → (Nat → Float) → Prop}
variable {n : Nat}

/-- A trail that enters a block comes past the one whose counterpart is entered. -/
theorem Enters.endsWithin {i i' : Nat} (h : Enters g g' R L i i') {calls : List Block}
    {locals : Nat → Float} (hends : EndsWithin g n ⟨g.block i, calls, locals⟩) :
    ∃ j, Soon R L (g.block j) (g'.block i') ∧ EndsWithin g n ⟨g.block j, calls, locals⟩ := by
  induction h generalizing n with
  | here hsoon => exact ⟨_, hsoon, hends⟩
  | @pass i j i' hpass _ ih =>
    cases n with
    | zero => exact absurd hends id
    | succ n =>
      have hmove : Moves g ⟨g.block i, calls, locals⟩ ⟨g.block j, calls, locals⟩ :=
        ⟨.enter j none, by simp only [Block.Does, hpass.1, hpass.2], rfl⟩
      exact ih ((hends _ hmove).mono (Nat.le_succ n))

/-- A trail through `g'` is at most twice as long as one through `g`, and has at most one step more
to begin with. -/
theorem Copies.endsWithin (h : Copies g g' R L) {t t' : Trail} (hends : t.EndsWithin g n)
    (hblock : Soon R L t.block t'.block) (hcalls : List.Forall₂ R t.calls t'.calls)
    (hlocals : L t.locals t'.locals) : t'.EndsWithin g' (2 * n + 1) := by
  induction n generalizing t t' with
  | zero => exact absurd hends id
  | succ n ih =>
    -- once the blocks are counterparts, no step of its own is left to the second
    have haligned {b' : Block} {locals' : Nat → Float} (hblock : R t.block b')
        (hagree : L t.locals locals') : EndsWithin g' (2 * n + 2) ⟨b', t'.calls, locals'⟩ := by
      rintro u ⟨d', hd', hu⟩
      obtain ⟨d, hd, hsame⟩ := h.does hblock hagree hd'
      cases hsame with
      | stay hrest hlocals =>
        cases hu
        exact ih (hends _ ⟨_, hd, rfl⟩) (.inl hrest) hcalls hlocals
      | enter henters hrest =>
        cases hu
        obtain ⟨j, hsoon, hends⟩ := henters.endsWithin (hends _ ⟨_, hd, rfl⟩)
        exact ih hends hsoon (List.rel_append hrest hcalls) hagree
      | ret =>
        obtain ⟨block, calls, locals⟩ := t
        obtain ⟨block', calls', locals'⟩ := t'
        cases hcalls with
        | nil => cases hu
        | cons hback hrest =>
          cases hu
          exact ih (hends _ ⟨_, hd, rfl⟩) (.inl hback) hrest hagree
    rcases hblock with hblock | hblock
    · exact (haligned hblock hlocals).mono (Nat.le_succ _)
    · rintro u ⟨d', hd', hu⟩
      obtain ⟨c, locals'', rfl, hc, hlocals⟩ := hblock hlocals hd'
      cases hu
      exact haligned hc hlocals

end

/-! ## Passes -/

namespace BlockGraph

/-- All trails from the entry of a graph end within the same number of moves. -/
def Bounded (g : BlockGraph) : Prop :=
  ∃ n, (Trail.start g).EndsWithin g n

end BlockGraph

section

variable {g g' : BlockGraph} {R : Block → Block → Prop} {L : (Nat → Float) → (Nat → Float) → Prop}
variable {locals : Nat → Float} {d' : Deed}

theorem Copies.bounded (h : Copies g g' R L)
    (hentry : Soon R L (g.block BlockGraph.entry) (g'.block BlockGraph.entry))
    (hlocals : L (fun _ => 0.0) fun _ => 0.0) (hg : g.Bounded) : g'.Bounded := by
  obtain ⟨n, hends⟩ := hg
  exact ⟨_, h.endsWithin hends hentry .nil hlocals⟩

/-- Changing expressions adds no deeds, provided that what is known of them stays known. -/
theorem Block.does_mapValues {x : Extent} {f : Scalar → Scalar} {b : Block} (hb : b.Within x)
    (hlocals : L locals locals') (hput : ∀ {l l' : Nat → Float}, L l l' → ∀ slot v,
      L (Function.update l slot v) (Function.update l' slot v))
    (hf : ∀ e : Scalar, e.Within x → ∀ v, (f e).Allows locals' v → e.Allows locals v)
    (hR : ∀ b : Block, b.Within x → R b (b.mapValues f)) (henters : ∀ i, Enters g g' R L i i)
    (h : (b.mapValues f).Does locals' d') : ∃ d, b.Does locals d ∧ d.Same g g' R L d' := by
  have hjump (i : Nat) : R { exit := .jump i } { exit := .jump i } :=
    hR _ ⟨fun _ hs => absurd hs List.not_mem_nil, trivial⟩
  obtain ⟨steps, exit, span⟩ := b
  cases steps with
  | nil =>
    cases exit with
    | jump i =>
      cases h
      exact ⟨_, rfl, .enter (henters i) .nil⟩
    | branch condition i j =>
      obtain ⟨v, hv, rfl⟩ := h
      exact ⟨_, ⟨v, hf condition hb.exit v hv, rfl⟩, .enter (henters _) .nil⟩
    | ret =>
      cases h
      exact ⟨_, rfl, .ret⟩
    | halt => exact absurd h id
    | wait seconds i | pause point i =>
      cases h
      exact ⟨_, rfl, .stay (hjump i) hlocals⟩
  | cons head rest =>
    obtain ⟨s, stepSpan⟩ := head
    have hrest : Block.Within x ⟨rest, exit, span⟩ :=
      ⟨fun s hs => hb.steps s (List.mem_cons_of_mem _ hs), hb.exit⟩
    cases s with
    | setLocal slot value =>
      obtain ⟨v, hv, rfl⟩ := h
      have hvalue := (hb.steps _ List.mem_cons_self).2
      exact ⟨_, ⟨v, hf value hvalue v hv, rfl⟩, .stay (hR _ hrest) (hput hlocals slot v)⟩
    | setOutput slot value =>
      cases h
      exact ⟨_, rfl, .stay (hR _ hrest) hlocals⟩
    | call i =>
      cases h
      exact ⟨_, rfl, .enter (henters i) (.cons (hR _ hrest) .nil)⟩

/-- The first step of a block where only the numbers of the blocks it leads to change. -/
theorem Block.does_cons {f : Block → Block} {φ : Nat → Nat} {s : Step} {stepSpan span : Span}
    {rest : List (Step × Span)} {exit : Exit}
    (hf : f ⟨(s, stepSpan) :: rest, exit, span⟩ = { f ⟨rest, exit, span⟩ with
      steps := (s.retarget φ, stepSpan) :: (f ⟨rest, exit, span⟩).steps })
    (henters : ∀ i, Enters g g' (fun b b' => b' = f b) Eq i (φ i))
    (h : (f ⟨(s, stepSpan) :: rest, exit, span⟩).Does locals d') :
    ∃ d, Block.Does ⟨(s, stepSpan) :: rest, exit, span⟩ locals d ∧
      d.Same g g' (fun b b' => b' = f b) Eq d' := by
  rw [hf] at h
  cases s with
  | setLocal slot value =>
    obtain ⟨v, hv, rfl⟩ := h
    exact ⟨_, ⟨v, hv, rfl⟩, .stay rfl rfl⟩
  | setOutput slot value =>
    cases h
    exact ⟨_, rfl, .stay rfl rfl⟩
  | call i =>
    cases h
    exact ⟨_, rfl, .enter (henters i) (.cons rfl .nil)⟩

end

namespace BlockGraph.Bounded

variable {g : BlockGraph} {x : Extent}

theorem fold (h : g.Bounded) (hg : g.Within x) : g.fold.Bounded := by
  let R (b b' : Block) : Prop := b.Within x ∧ b' = b.mapValues Scalar.fold
  have hblock (i : Nat) : R (g.block i) (g.fold.block i) := ⟨hg i, g.block_fold i⟩
  refine Copies.bounded (R := R) (L := Eq) ⟨?_⟩ (.inl (hblock _)) rfl h
  rintro b _ locals _ d' ⟨hb, rfl⟩ rfl hd'
  refine Block.does_mapValues hb rfl ?_ ?_ (fun b hb => ⟨hb, rfl⟩) (fun i => .here (.inl (hblock i)))
    hd'
  · rintro l _ rfl slot v
    rfl
  · exact fun e _ v hv y hy => hv y (Scalar.known?_fold hy)

theorem settleBranches (h : g.Bounded) : g.settleBranches.Bounded := by
  have hblock := g.block_settleBranches
  refine Copies.bounded (R := fun b b' => b' = b.settle) (L := Eq) ⟨?_⟩ (.inl (hblock _)) rfl h
  rintro ⟨steps, exit, span⟩ _ locals _ d' rfl rfl hd'
  have henters (i : Nat) : Enters g g.settleBranches (fun b b' => b' = b.settle) Eq i i :=
    .here (.inl (hblock i))
  cases steps with
  | nil =>
    cases exit with
    | jump i => cases hd'; exact ⟨_, rfl, .enter (henters i) .nil⟩
    | branch condition i j =>
      cases condition with
      | const y =>
        cases hd'
        exact ⟨_, ⟨y, fun _ hy => Option.some.inj hy, rfl⟩, .enter (henters _) .nil⟩
      | _ =>
        obtain ⟨v, hv, rfl⟩ := hd'
        exact ⟨_, ⟨v, hv, rfl⟩, .enter (henters _) .nil⟩
    | ret => cases hd'; exact ⟨_, rfl, .ret⟩
    | halt => exact absurd hd' id
    | wait seconds i | pause point i => cases hd'; exact ⟨_, rfl, .stay rfl rfl⟩
  | cons head rest =>
    obtain ⟨s, stepSpan⟩ := head
    exact Block.does_cons (φ := id) (by cases s <;> rfl) henters hd'

/-- A jump is led past empty blocks. -/
theorem enters_follow {R : Block → Block → Prop} (hblock : ∀ i, R (g.block i) (g.threadJumps.block i))
    (fuel i : Nat) : Enters g g.threadJumps R Eq i (follow g.blocks fuel i) := by
  induction fuel generalizing i with
  | zero => exact .here (.inl (hblock i))
  | succ fuel ih =>
    rcases g.follow_succ fuel i with hstays | ⟨next, hpass, hnext⟩
    · rw [hstays]
      exact .here (.inl (hblock i))
    · rw [hnext]
      exact .pass hpass (ih next)

theorem threadJumps (h : g.Bounded) : g.threadJumps.Bounded := by
  have hblock := g.block_threadJumps
  refine Copies.bounded (R := fun b b' => b' = g.thread b) (L := Eq) ⟨?_⟩ (.inl (hblock _)) rfl h
  rintro ⟨steps, exit, span⟩ _ locals _ d' rfl rfl hd'
  let final := follow g.blocks g.blocks.size
  have henters (i : Nat) := enters_follow (R := fun b b' => b' = g.thread b) hblock g.blocks.size i
  cases steps with
  | nil =>
    cases exit with
    | jump i => cases hd'; exact ⟨_, rfl, .enter (henters i) .nil⟩
    | branch condition i j =>
      have hd' : Block.Does ⟨[], if final i = final j ∧ condition.isPure then .jump (final i)
        else .branch condition (final i) (final j), span⟩ locals d' := hd'
      split at hd'
      · next hmerge =>
        -- whatever the condition comes to, it leads to the block that both ways end up at
        cases hd'
        obtain ⟨v, hv⟩ := condition.exists_allows locals
        refine ⟨_, ⟨v, hv, rfl⟩, .enter ?_ .nil⟩
        split
        · exact henters i
        · rw [hmerge.1]
          exact henters j
      · obtain ⟨v, hv, rfl⟩ := hd'
        refine ⟨_, ⟨v, hv, rfl⟩, .enter ?_ .nil⟩
        rw [← apply_ite final]
        exact henters _
    | ret => cases hd'; exact ⟨_, rfl, .ret⟩
    | halt => exact absurd hd' id
    | wait seconds i | pause point i => cases hd'; exact ⟨_, rfl, .stay rfl rfl⟩
  | cons head rest =>
    obtain ⟨s, stepSpan⟩ := head
    exact Block.does_cons (φ := final) rfl henters hd'

theorem dropUnreachable (h : g.Bounded) : g.dropUnreachable.Bounded := by
  refine Copies.bounded (g := g) (R := Eq) (L := Eq) ⟨?_⟩ (.inl rfl) rfl h
  rintro b _ locals _ d' rfl rfl hd'
  refine ⟨d', hd', ?_⟩
  cases d' with
  | stay rest locals => exact .stay rfl rfl
  | enter i rest? => exact .enter (.here (.inl rfl)) (List.forall₂_refl _)
  | ret => exact .ret

theorem simplify (h : g.Bounded) (hg : g.Within x) : g.simplify.Bounded :=
  (h.fold hg).settleBranches.threadJumps.dropUnreachable

/-- Keeping a value in a local costs one step each time the block is entered. -/
theorem shareAt (h : g.Bounded) (hg : g.Within x) {k : Nat} (hvalue : value.Fixed)
    (hoperands : value.operands ≠ []) : (g.shareAt k x.locals value).Bounded := by
  let replace := Scalar.replace value x.locals
  let R (b b' : Block) : Prop := b.Within x ∧ (b' = b ∨ b' = b.mapValues replace)
  let L (locals locals' : Nat → Float) : Prop := ∀ i < x.locals, locals' i = locals i
  have hput {l l' : Nat → Float} (hl : L l l') (slot : Nat) (v : Float) :
      L (Function.update l slot v) (Function.update l' slot v) := by
    intro i hi
    rw [Function.update_apply, Function.update_apply, hl i hi]
  have hsoon (i : Nat) : Soon R L (g.block i) ((g.shareAt k x.locals value).block i) := by
    rcases g.block_shareAt k i x.locals value with hplain | ⟨rfl, hshared⟩
    · exact .inl ⟨hg i, .inl hplain⟩
    · refine .inr fun {locals locals' d'} hlocals hd' => ?_
      rw [hshared] at hd'
      obtain ⟨v, -, rfl⟩ := hd'
      refine ⟨_, _, rfl, ⟨hg i, .inr rfl⟩, fun j hj => ?_⟩
      rw [Function.update_of_ne (Nat.ne_of_lt hj), hlocals j hj]
  have henters (i : Nat) : Enters g (g.shareAt k x.locals value) R L i i := .here (hsoon i)
  refine Copies.bounded (R := R) (L := L) ⟨?_⟩ (hsoon _) (fun _ _ => rfl) h
  rintro b b' locals locals' d' ⟨hb, rfl | rfl⟩ hlocals hd'
  · rw [← b'.mapValues_id] at hd'
    refine Block.does_mapValues hb hlocals hput ?_ (fun b hb => ⟨hb, .inl b.mapValues_id⟩) henters hd'
    exact fun e he v hv y hy => hv y (Scalar.known?_congr he hlocals hy)
  · refine Block.does_mapValues hb hlocals hput ?_ (fun b hb => ⟨hb, .inr rfl⟩) henters hd'
    exact fun e he v hv y hy => hv y (Scalar.known?_replace hvalue hoperands he hlocals hy)

theorem share (h : g.Bounded) (hg : g.Within (extent x g)) : g.share.Bounded := by
  refine (share_induction (P := fun g => g.Bounded ∧ g.Within (extent x g)) ?_ ⟨h, hg⟩).1
  rintro g k value ⟨h, hg⟩ hnext
  obtain ⟨e, he, hfound⟩ := Block.nextShared?_found hnext
  exact ⟨h.shareAt hg hfound.fixed hfound.operands, hg.shareNext hnext⟩

/-- The passes of a level keep trails bounded. -/
theorem optimize (h : g.Bounded) (hg : g.Within (extent x g)) (level : UInt8) :
    (g.optimize level).Bounded := by
  rcases optimize_cases level g with heq | heq | heq | ⟨-, heq⟩
  · rw [heq]
    exact h
  · rw [heq]
    exact h.fold hg
  · rw [heq]
    exact h.simplify hg
  · rw [heq]
    exact (h.simplify hg).share hg.simplify

end BlockGraph.Bounded

end Behavior
