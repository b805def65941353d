import Behavior.Proofs.Faithful
import Behavior.Proofs.Trails

/-!
The blocks that a document is lowered to have bounded trails. Loops run a fixed number of times,
because nothing but a loop itself changes its counter: the locals that statements assign have slots
of their own, flows that are called have other slots, and conditions that are kept come after all of
them. Flows lead only to flows of lower rank, so calls end as well.
-/

namespace Behavior

variable {P : Nat → Prop} {code : List (Step × Span)} {slot kept j flow n' : Nat} {v : Value}
  {condition : Scalar}

/-- A step that writes no other locals than the given ones, and calls nothing. -/
def Step.Writes (P : Nat → Prop) : Step → Prop
  | .setLocal slot _ => P slot
  | .setOutput _ _ => True
  | .call _ => False

namespace Trail

variable {G : BlockGraph} {n i : Nat} {b : Block} {calls : List Block} {locals : Nat → Float}
  {span : Span}

theorem EndsWithin.setLocal {value : Scalar} (h : ∀ v, value.Allows locals v →
      EndsWithin G n ⟨b, calls, Function.update locals slot v⟩) :
    EndsWithin G (n + 1) ⟨b.prepend [(.setLocal slot value, span)], calls, locals⟩ := by
  rintro u ⟨d, ⟨v, hv, rfl⟩, hu⟩
  cases hu
  exact h v hv

/-- A trail takes steps that leave some locals alone. -/
theorem EndsWithin.prepend (hcode : ∀ s ∈ code, s.1.Writes P)
    (h : ∀ locals', (∀ i, ¬ P i → locals' i = locals i) → EndsWithin G n ⟨b, calls, locals'⟩) :
    EndsWithin G (n + code.length) ⟨b.prepend code, calls, locals⟩ := by
  induction code generalizing locals with
  | nil => exact h locals fun _ _ => rfl
  | cons head rest ih =>
    obtain ⟨s, span⟩ := head
    obtain ⟨hs, hrest⟩ := List.forall_mem_cons.1 hcode
    cases s with
    | setLocal slot value =>
      refine EndsWithin.setLocal (b := b.prepend rest) fun v _ => ih hrest fun locals' hlocals =>
        h locals' fun i hi => ?_
      have hne : i ≠ slot := fun heq => hi (heq ▸ hs)
      rw [hlocals i hi, Function.update_of_ne hne]
    | setOutput slot value =>
      rintro u ⟨d, rfl, hu⟩
      cases hu
      exact ih hrest h
    | call i => exact absurd hs id

theorem EndsWithin.jump (h : EndsWithin G n ⟨G.block i, calls, locals⟩) :
    EndsWithin G (n + 1) ⟨⟨[], .jump i, span⟩, calls, locals⟩ := by
  rintro u ⟨d, rfl, hu⟩
  cases hu
  exact h

theorem EndsWithin.branch (h : ∀ v, condition.Allows locals v →
      EndsWithin G n ⟨G.block (if truthy v then i else j), calls, locals⟩) :
    EndsWithin G (n + 1) ⟨⟨[], .branch condition i j, span⟩, calls, locals⟩ := by
  rintro u ⟨d, ⟨v, hv, rfl⟩, hu⟩
  cases hu
  exact h v hv

theorem EndsWithin.wait {seconds : Scalar} (h : EndsWithin G n ⟨G.block i, calls, locals⟩) :
    EndsWithin G (n + 2) ⟨⟨[], .wait seconds i, span⟩, calls, locals⟩ := by
  rintro u ⟨d, rfl, hu⟩
  cases hu
  exact h.jump

theorem EndsWithin.pause {point : Nat} (h : EndsWithin G n ⟨G.block i, calls, locals⟩) :
    EndsWithin G (n + 2) ⟨⟨[], .pause point i, span⟩, calls, locals⟩ := by
  rintro u ⟨d, rfl, hu⟩
  cases hu
  exact h.jump

/-- A trail calls a block, and goes on when it has come back. -/
theorem EndsWithin.call (h : EndsWithin G n ⟨G.block i, b :: calls, locals⟩) :
    EndsWithin G (n + 1) ⟨b.prepend [(.call i, span)], calls, locals⟩ := by
  rintro u ⟨d, rfl, hu⟩
  cases hu
  exact h

theorem EndsWithin.ret (h : EndsWithin G n ⟨b, calls, locals⟩) :
    EndsWithin G (n + 1) ⟨⟨[], .ret, span⟩, b :: calls, locals⟩ := by
  rintro u ⟨d, rfl, hu⟩
  cases hu
  exact h

theorem endsWithin_ret (n : Nat) (span : Span) :
    EndsWithin G (n + 1) ⟨⟨[], .ret, span⟩, [], locals⟩ := by
  rintro u ⟨d, rfl, hu⟩
  cases hu

theorem endsWithin_halt (n : Nat) (span : Span) :
    EndsWithin G (n + 1) ⟨⟨[], .halt, span⟩, calls, locals⟩ := by
  rintro u ⟨d, hd, -⟩
  exact absurd hd id

end Trail

namespace Typed

open Trail (EndsWithin)

/-! ## Storing values -/

theorem writes_keeps (hkept : ∀ i, kept ≤ i → P i) (span : Span) (conditions : List Scalar) :
    ∀ s ∈ keeps span kept conditions, s.1.Writes P := by
  induction conditions generalizing kept with
  | nil => exact fun s hs => absurd hs List.not_mem_nil
  | cons condition rest ih =>
    exact List.forall_mem_cons.2 ⟨hkept _ (Nat.le_refl _),
      ih fun i hi => hkept i (Nat.le_of_succ_le hi)⟩

theorem Value.writes_stores {set : Nat → Scalar → Step}
    (hset : ∀ i e, slot ≤ i → i < slot + v.type.width → (set i e).Writes P)
    (hkept : ∀ i, kept ≤ i → P i) (span : Span) :
    ∀ s ∈ v.stores span set slot kept, s.1.Writes P := by
  intro s hs
  cases v with
  | vector v =>
    have hset {j : Nat} (hj : j < 3) (e : Scalar) : (set (slot + j) e).Writes P :=
      hset _ e (Nat.le_add_right ..) (Nat.add_lt_add_left hj _)
    rcases List.mem_append.1 hs with hs | hs
    · exact writes_keeps hkept span _ s hs
    · simp only [Triple.stores, List.mem_cons, List.not_mem_nil, or_false] at hs
      rcases hs with rfl | rfl | rfl
      · exact hset (j := 0) (by decide) _
      · exact hset (j := 1) (by decide) _
      · exact hset (j := 2) (by decide) _
  | _ =>
    rw [List.mem_singleton.1 hs]
    exact hset slot _ (Nat.le_refl _) (Nat.lt_succ_self _)

/-! ## What statements cost -/

section

variable (G : BlockGraph) (watched : Nat → Prop)

/-- Trails that go on at a block, or return from the flow they are in, end within `n` moves. -/
def GoesOn (n : Nat) (calls : List Block) (b : Block) (locals : Nat → Float) : Prop :=
  EndsWithin G n ⟨b, calls, locals⟩ ∧ ∀ span, EndsWithin G n ⟨⟨[], .ret, span⟩, calls, locals⟩

/-- The code between two places takes trails from `b` to `b'`, unless they return or end before,
within `cost` moves. -/
structure Costs (outer : List Scope) (p p' : Place) (cost : Nat) (b b' : Block) : Prop where
  ends : ∀ {n calls locals},
    (∀ locals', Spares watched (p.scope :: outer) p.next p'.next locals locals' →
      GoesOn G n calls b' locals') →
    EndsWithin G (n + cost) ⟨b, calls, locals⟩

/-- Trails return from a flow within `cost` moves. -/
structure Returns (cost flow : Nat) : Prop where
  ends : ∀ {n calls locals},
    (∀ locals', (∀ i, watched i → locals' i = locals i) →
      ∀ span, EndsWithin G n ⟨⟨[], .ret, span⟩, calls, locals'⟩) →
    EndsWithin G (n + cost) ⟨G.block flow, calls, locals⟩

end

section

variable {G : BlockGraph} {watched : Nat → Prop} {outer : List Scope} {p p' q r : Place}
  {cost cost' i : Nat} {b b' c : Block} {span : Span}
variable {n : Nat}

theorem GoesOn.mono {calls : List Block} {locals : Nat → Float} (h : GoesOn G n calls b locals)
    (hle : n ≤ n') : GoesOn G n' calls b locals :=
  ⟨h.1.mono hle, fun span => (h.2 span).mono hle⟩

/-- Code that stores a value and goes on. -/
theorem Costs.ofSteps (hcode : ∀ s ∈ code, s.1.Writes P)
    (hP : ∀ i, watched i → ¬ Occupied (p.scope :: outer) i → i < p.next ∨ p'.next ≤ i → ¬ P i) :
    Costs G watched outer p p' code.length (b.prepend code) b := by
  refine ⟨fun {n calls locals} h => EndsWithin.prepend hcode fun locals' hlocals => ?_⟩
  exact (h locals' fun i hi hfree hrange => hlocals i (hP i hi hfree hrange)).1

/-- Code that stores a value in locals. Conditions that are kept are beyond those to watch. -/
theorem Costs.setLocal
    (hslot : ∀ i, watched i → ¬ Occupied (p.scope :: outer) i → i < p.next ∨ p'.next ≤ i →
      ¬ (slot ≤ i ∧ i < slot + v.type.width)) (hkept : ∀ i, watched i → ¬ kept ≤ i) :
    Costs G watched outer p p' (v.stores span .setLocal slot kept).length
      (b.prepend (v.stores span .setLocal slot kept)) b := by
  let P (i : Nat) : Prop := (slot ≤ i ∧ i < slot + v.type.width) ∨ kept ≤ i
  have hset (i : Nat) (e : Scalar) (hle : slot ≤ i) (hlt : i < slot + v.type.width) :
      (Step.setLocal i e).Writes P := .inl ⟨hle, hlt⟩
  refine .ofSteps (Value.writes_stores hset (fun i hi => .inr hi) span) fun i hi hfree hrange => ?_
  exact not_or.2 ⟨hslot i hi hfree hrange, hkept i hi⟩

theorem Costs.setOutput (hkept : ∀ i, watched i → ¬ kept ≤ i) :
    Costs G watched outer p p' (v.stores span .setOutput slot kept).length
      (b.prepend (v.stores span .setOutput slot kept)) b := by
  have hset (i : Nat) (e : Scalar) (_ : slot ≤ i) (_ : i < slot + v.type.width) :
      (Step.setOutput i e).Writes (kept ≤ ·) := trivial
  exact .ofSteps (Value.writes_stores hset (fun i hi => hi) span) fun i hi _ _ => hkept i hi

theorem Costs.refl : Costs G watched outer p p' 0 b b :=
  ⟨fun h => (h _ fun _ _ _ _ => rfl).1⟩

theorem Costs.trans (h : Costs G watched outer p q cost b c)
    (h' : Costs G watched outer q r cost' c b')
    (hoccupied : ∀ i, Occupied (q.scope :: outer) i →
      Occupied (p.scope :: outer) i ∨ p.next ≤ i ∧ i < r.next)
    (hle : p.next ≤ q.next) (hle' : q.next ≤ r.next) :
    Costs G watched outer p r (cost' + cost) b b' := by
  refine ⟨fun {n calls locals} hn => ?_⟩
  rw [← Nat.add_assoc]
  refine h.ends fun locals₁ hspares => ?_
  have hspares : Spares watched (p.scope :: outer) p.next r.next locals locals₁ :=
    fun i hi hfree hrange => hspares i hi hfree (hrange.imp_right (Nat.le_trans hle'))
  refine ⟨h'.ends fun locals₂ hspares₂ => ?_, fun span => ?_⟩
  · exact hn locals₂ (hspares.trans hspares₂ hoccupied hle)
  · exact ((hn locals₁ hspares).2 span).mono (Nat.le_add_right ..)

/-- A block leaves the locals around it. -/
theorem Costs.inBlock (h : Costs G watched (p.scope :: outer) ⟨[], n⟩ r cost b b')
    (hle : p.next ≤ n) (hle' : r.next ≤ n') : Costs G watched outer p ⟨p.scope, n'⟩ cost b b' := by
  refine ⟨fun hk => h.ends fun locals' hspares => hk locals' fun i hi hfree hrange => ?_⟩
  exact hspares i hi hfree (hrange.imp (fun hlt => Nat.lt_of_lt_of_le hlt hle) (Nat.le_trans hle'))

theorem Costs.jump (h : Costs G watched outer p p' cost b ⟨[], .jump i, span⟩) :
    Costs G watched outer p p' (1 + cost) b (G.block i) := by
  refine ⟨fun {n calls locals} hn => ?_⟩
  rw [← Nat.add_assoc]
  refine h.ends fun locals' hspares => ?_
  exact ⟨(hn locals' hspares).1.jump, ((hn locals' hspares).mono (Nat.le_succ n)).2⟩

theorem Costs.branch (hthen : Costs G watched outer p p' cost (G.block i) b')
    (helse : Costs G watched outer p p' cost' (G.block j) b') :
    Costs G watched outer p p' (max cost cost' + 1) ⟨[], .branch condition i j, span⟩ b' := by
  refine ⟨fun {n calls locals} hn => EndsWithin.branch fun v _ => ?_⟩
  split
  · exact (hthen.ends hn).mono (Nat.add_le_add_left (Nat.le_max_left ..) n)
  · exact (helse.ends hn).mono (Nat.add_le_add_left (Nat.le_max_right ..) n)

/-- A loop costs what its body costs, once for each run. -/
theorem Costs.loop {count header next : Nat} {first : Block} (hp : Below p.next (p.scope :: outer))
    (hwatched : watched p.next) (hle : p.next + 1 ≤ r.next) (hcount : count < 2 ^ 53)
    (hheader : G.block header = ⟨[], .branch (isRunning p.next) i next, span⟩)
    (hi : G.block i = first.prepend [(.setLocal p.next (countDown p.next), span)])
    (hbody : Costs G watched outer ⟨p.scope, p.next + 1⟩ ⟨p.scope, r.next⟩ cost first
      ⟨[], .jump header, span⟩) :
    Costs G watched outer p ⟨p.scope, r.next⟩ (count * (cost + 3) + 3)
      ⟨[(.setLocal p.next (.const (Float.ofNat count)), span)], .jump header, span⟩
      (G.block next) := by
  have hfree : ¬ Occupied (p.scope :: outer) p.next :=
    fun hocc => Nat.lt_irrefl _ (hp.occupied_lt hocc)
  refine ⟨fun {n calls locals} hn => ?_⟩
  -- all changes on the way are within what the loop may change
  have hspares {l l₁ l₂ : Nat → Float}
      (h : Spares watched (p.scope :: outer) p.next r.next l l₁)
      (h' : ∀ i, watched i → ¬ Occupied (p.scope :: outer) i → i < p.next ∨ r.next ≤ i →
        l₂ i = l₁ i) : Spares watched (p.scope :: outer) p.next r.next l l₂ :=
    fun i hi hfree hrange => (h' i hi hfree hrange).trans (h i hi hfree hrange)
  have hput {l : Nat → Float} {v : Float} (i : Nat) (hrange : i < p.next ∨ r.next ≤ i) :
      Function.update l p.next v i = l i :=
    Function.update_of_ne (by omega) ..
  suffices hruns : ∀ (count : Nat) (locals₁ : Nat → Float), count < 2 ^ 53 →
      locals₁ p.next = Float.ofNat count →
      Spares watched (p.scope :: outer) p.next r.next locals locals₁ →
      EndsWithin G (n + (count * (cost + 3) + 1)) ⟨G.block header, calls, locals₁⟩ by
    refine EndsWithin.setLocal (b := ⟨[], .jump header, span⟩) fun v hv => ?_
    rw [hv _ rfl]
    refine EndsWithin.jump (hruns count _ hcount (Function.update_self ..) ?_)
    exact hspares (fun _ _ _ _ => rfl) fun i _ _ hrange => hput i hrange
  -- the induction is on the runs that are left, which is what the counter holds at the header
  intro count
  induction count with
  | zero =>
    intro locals₁ hlt hcounter hspares₁
    rw [hheader, Nat.zero_mul, Nat.zero_add]
    refine EndsWithin.branch fun v hv => ?_
    rw [hv _ rfl, hcounter, truthy_gt_zero hlt]
    exact (hn locals₁ hspares₁).1
  | succ count ih =>
    intro locals₁ hlt hcounter hspares₁
    have hcost : n + ((count + 1) * (cost + 3) + 1) =
        n + (count * (cost + 3) + 1) + 1 + cost + 1 + 1 := by
      rw [Nat.succ_mul]
      omega
    rw [hheader, hcost]
    refine EndsWithin.branch fun v hv => ?_
    rw [hv _ rfl, hcounter, truthy_gt_zero hlt, decide_eq_true count.succ_pos, if_pos rfl, hi]
    refine EndsWithin.setLocal fun v hv => ?_
    have hdown : BinaryFn.sub.apply (Float.ofNat (count + 1)) 1.0 = Float.ofNat count :=
      Binary64.ofNat_sub_one hlt
    rw [hv _ rfl, hcounter, hdown]
    have hspares₂ := hspares hspares₁ fun i _ _ hrange =>
      hput (l := locals₁) (v := Float.ofNat count) i hrange
    refine hbody.ends fun locals₃ hspares₃ => ?_
    -- the counter lies below the slots of the body, which leaves it alone
    have hcounter₃ : locals₃ p.next = Float.ofNat count :=
      (hspares₃ _ hwatched hfree (.inl (Nat.lt_succ_self _))).trans (Function.update_self ..)
    have hspares₃ := hspares hspares₂ fun i hi hfree hrange =>
      hspares₃ i hi hfree (hrange.imp_left Nat.lt_succ_of_lt)
    refine ⟨EndsWithin.jump (ih locals₃ (by omega) hcounter₃ hspares₃), fun span => ?_⟩
    exact ((hn locals₃ hspares₃).2 span).mono (by omega)

end

/-! ## Statements and flows -/

section

variable {names : Names} {T : Tables} {G : BlockGraph} {watched : Nat → Prop} {first n : Nat}

mutual

theorem StmtElaborates.costs {outer : List Scope} {p p' : Place} {stmt : Behavior.Stmt} {t : Stmt}
    (h : StmtElaborates names T outer p stmt t p') (hp : Homed first p.next (p.scope :: outer))
    (hbelow : ∀ i, watched i → i < n) (hwatched : ∀ i, first ≤ i → i < p'.next → watched i)
    (hflows : ∀ x ∈ t.passages, ∀ name, names.flows.lookup name = some x.1 →
      ∃ cost, Returns G watched cost x.1)
    {b b' : Block} (hlowered : t.Lowered G n b b') :
    ∃ cost, Costs G watched outer p p' cost b b' := by
  -- locals for conditions come after all that is watched
  have hkept {kept : Nat} (hle : n ≤ kept) (i : Nat) (hi : watched i) : ¬ kept ≤ i := fun hle' =>
    Nat.not_lt.2 (Nat.le_trans hle hle') (hbelow i hi)
  cases h with
  | @bind _ _ span name _ v hvalue hfits =>
    obtain ⟨kept, hle, rfl⟩ := hlowered
    refine ⟨_, .setLocal (fun i _ _ hrange hslot => ?_) (hkept hle)⟩
    have hrange : i < p.next ∨ p.next + v.type.width ≤ i := hrange
    omega
  | assignLocal hvalue hfound =>
    obtain ⟨kept, hle, rfl⟩ := hlowered
    refine ⟨_, .setLocal (fun i _ hfree _ hslot => ?_) (hkept hle)⟩
    exact hfree ⟨_, mem_flatten_of_find hfound, hslot⟩
  | assignOutput hvalue hfound hresolved houtput =>
    obtain ⟨kept, hle, rfl⟩ := hlowered
    exact ⟨_, .setOutput (hkept hle)⟩
  | intent hvalue hurgency hresolved hchannel =>
    obtain ⟨kept, hle, rfl⟩ := hlowered
    refine ⟨_, Costs.trans (q := p) (.setOutput (hkept hle))
      (.ofSteps (P := fun _ => False) ?_ fun _ _ _ _ => id)
      (fun i hocc => .inl hocc) (Nat.le_refl _) (Nat.le_refl _)⟩
    exact List.forall_mem_singleton.2 trivial
  | @branch _ _ q r span _ _ _ c _ _ hcondition hthen helse =>
    obtain ⟨i, j, merge, rfl, rfl, hthenLowered, helseLowered⟩ := hlowered
    have hle := hthen.next_le
    have hle' : q.next ≤ r.next := helse.next_le
    obtain ⟨cost, hcost⟩ := hthen.costs hp.block hbelow
      (fun i hi hlt => hwatched i hi (Nat.lt_of_lt_of_le hlt hle'))
      (fun x hx => hflows x (List.mem_append_left _ hx)) hthenLowered
    have hcost := (hcost.inBlock (Nat.le_refl _) hle').jump
    rcases helseLowered with helseLowered | ⟨-, rfl⟩
    · obtain ⟨cost', hcost'⟩ := helse.costs (hp.mono hle).block hbelow hwatched
        (fun x hx => hflows x (List.mem_append_right _ hx)) helseLowered
      exact ⟨_, hcost.branch (hcost'.inBlock hle (Nat.le_refl _)).jump⟩
    · exact ⟨_, hcost.branch .refl⟩
  | @loop _ _ q span count _ _ hcount hfits hbody =>
    rcases hlowered with ⟨rfl, rfl⟩ | ⟨-, header, i, next, body, rfl, hheader, hi, rfl, hlowered⟩
    · exact ⟨0, .refl⟩
    · have hle : p.next + 1 ≤ q.next := hbody.next_le
      obtain ⟨cost, hcost⟩ := hbody.costs (hp.mono (Nat.le_succ _)).block hbelow hwatched hflows
        hlowered
      exact ⟨_, .loop hp.below (hwatched _ hp.first_le hle) hle
        (Nat.lt_of_le_of_lt hcount (by decide)) hheader hi
        (hcost.inBlock (p := ⟨p.scope, p.next + 1⟩) (Nat.le_refl _) (Nat.le_refl _))⟩
  | @call _ _ span name flow hflow =>
    obtain rfl : b = b'.prepend [(.call flow, span)] := by rwa [Stmt.Lowered] at hlowered
    obtain ⟨cost, hreturns⟩ := hflows _ List.mem_cons_self name hflow
    refine ⟨1 + cost + 1, ⟨fun {k calls locals} hk => ?_⟩⟩
    rw [← Nat.add_assoc, ← Nat.add_assoc]
    exact .call <| hreturns.ends fun locals' hkept span =>
      (hk locals' fun i hi _ _ => hkept i hi).1.ret
  | @goto _ _ span name flow hflow =>
    obtain rfl : b = ⟨[], .jump flow, span⟩ := by rwa [Stmt.Lowered] at hlowered
    obtain ⟨cost, hreturns⟩ := hflows _ List.mem_cons_self name hflow
    exact ⟨cost + 1, ⟨fun {k calls locals} hk => .jump <| hreturns.ends fun locals' hkept span =>
      (hk locals' fun i hi _ _ => hkept i hi).2 span⟩⟩
  | wait hseconds =>
    obtain ⟨i, rfl, rfl⟩ := hlowered
    exact ⟨2, ⟨fun hk => .wait (hk _ fun _ _ _ _ => rfl).1⟩⟩
  | @continuation _ _ span name default seconds timeout point flow htimeout hpoint hflow =>
    obtain rfl : b = ⟨[], .pause point flow, span⟩ := by rwa [Stmt.Lowered] at hlowered
    obtain ⟨cost, hreturns⟩ := hflows _ List.mem_cons_self default hflow
    exact ⟨cost + 2, ⟨fun {k calls locals} hk => .pause <| hreturns.ends fun locals' hkept span =>
      (hk locals' fun i hi _ _ => hkept i hi).2 span⟩⟩
  | @halt _ _ span =>
    obtain rfl : b = ⟨[], .halt, span⟩ := by rwa [Stmt.Lowered] at hlowered
    exact ⟨1, ⟨fun _ => Trail.endsWithin_halt _ span⟩⟩

/-- Statements cost a fixed number of moves. -/
theorem StmtsElaborate.costs {outer : List Scope} {p p' : Place} {stmts : List Behavior.Stmt}
    {ts : List Stmt} (h : StmtsElaborate names T outer p stmts ts p')
    (hp : Homed first p.next (p.scope :: outer)) (hbelow : ∀ i, watched i → i < n)
    (hwatched : ∀ i, first ≤ i → i < p'.next → watched i)
    (hflows : ∀ x ∈ Stmt.allPassages ts, ∀ name, names.flows.lookup name = some x.1 →
      ∃ cost, Returns G watched cost x.1)
    {b b' : Block} (hlowered : Stmt.AllLowered G n ts b b') :
    ∃ cost, Costs G watched outer p p' cost b b' := by
  cases h with
  | nil =>
    obtain rfl : b = b' := by rwa [Stmt.AllLowered] at hlowered
    exact ⟨0, .refl⟩
  | cons hhead htail =>
    obtain ⟨c, hheadLowered, htailLowered⟩ := hlowered
    have hle := htail.next_le
    obtain ⟨cost, hcost⟩ := hhead.costs hp hbelow (fun i hi hlt => hwatched i hi (by omega))
      (fun x hx => hflows x (List.mem_append_left _ hx)) hheadLowered
    obtain ⟨cost', hcost'⟩ := htail.costs (hhead.keeps_homed hp) hbelow hwatched
      (fun x hx => hflows x (List.mem_append_right _ hx)) htailLowered
    refine ⟨_, hcost.trans hcost' (fun i hocc => ?_) hhead.next_le hle⟩
    exact (hhead.occupied hocc).imp_right fun hi => ⟨hi.1, by omega⟩

end

end

section

variable {registry : Registry} {d : Document} {p : Program} {names : Names} {graph : FlowGraph}

theorem Returns.mono {G : BlockGraph} {watched watched' : Nat → Prop} {cost : Nat}
    (h : Returns G watched cost flow) (hle : ∀ i, watched' i → watched i) :
    Returns G watched' cost flow :=
  ⟨fun hn => h.ends fun locals' hkept span => hn locals' (fun i hi => hkept i (hle i hi)) span⟩

/-- Flows cost a fixed number of moves. -/
theorem Checked.returns (h : Checked registry d p names graph) {first : Nat → Nat}
    (hfirst : Ranges names p.tables d.flows p.flows first) (hle : ∀ k, first k ≤ p.localCount)
    (depth : Nat) {name : String} (hname : names.flows.lookup name = some flow)
    (hrank : graph.rank flow < depth) :
    ∃ cost, Returns p.toBlocks (RankedFrom graph first (graph.rank flow + 1)) cost flow := by
  induction depth generalizing flow name with
  | zero => exact absurd hrank (Nat.not_lt_zero _)
  | succ depth ih =>
    rw [h.numbers] at hname
    obtain ⟨k, f, hk, hf, -⟩ := find?_of_lookup hname
    rw [Nat.zero_add] at hk
    subst hk
    obtain ⟨t, scope, ht, hbody⟩ := hfirst.flow hf
    have hbelow (i : Nat) (hi : RankedFrom graph first (graph.rank flow) i) : i < p.localCount := by
      obtain ⟨j, -, -, hlt⟩ := hi
      exact Nat.lt_of_lt_of_le hlt (hle _)
    have hflows (x : Nat × Passage) (hx : x ∈ Stmt.allPassages t.body) (name' : String)
        (hname' : names.flows.lookup name' = some x.1) :
        ∃ cost, Returns p.toBlocks (RankedFrom graph first (graph.rank flow)) cost x.1 := by
      have hlower := h.rank_lt ht hx hname'
      obtain ⟨cost, hreturns⟩ := ih hname' (by omega)
      refine ⟨cost, hreturns.mono ?_⟩
      rintro i ⟨j, hj, hi⟩
      exact ⟨j, by omega, hi⟩
    obtain ⟨cost, hcost⟩ := hbody.costs ⟨.start _, Nat.le_refl _, by simp⟩ hbelow
      (fun i hi hlt => ⟨flow, Nat.le_refl _, hi, hlt⟩) hflows (p.lowered ht)
    refine ⟨cost, ⟨fun hn => hcost.ends fun locals' hspares => ?_⟩⟩
    have hret := hn locals' fun i hi => hfirst.spared hspares hi
    exact ⟨hret _, hret⟩

/-- All trails through the blocks of a document end within the same number of moves. -/
theorem Checked.bounded (h : Checked registry d p names graph) (hempty : d.flows ≠ []) :
    p.toBlocks.Bounded := by
  obtain ⟨f, rest, hflows⟩ := List.exists_cons_of_ne_nil hempty
  obtain ⟨first, -, hle, hfirst⟩ := h.flows.exists_ranges
  have hname : names.flows.lookup f.name = some 0 := by
    rw [h.numbers, hflows, List.map_cons, List.zipIdx_cons, List.lookup_cons, beq_self_eq_true]
  obtain ⟨cost, hreturns⟩ := h.returns hfirst hle _ hname (Nat.lt_succ_self _)
  exact ⟨_, hreturns.ends (n := 1) fun locals' _ span => Trail.endsWithin_ret 0 span⟩

end

end Typed

end Behavior
