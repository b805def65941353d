import Behavior.Proofs.Execution

/-!
Sharing ends, and only keeps in locals what can be put back.

In every round a value that occurs twice moves to the front of its block. Its occurrences, and with
them the parts that it has in common with itself, are candidates no more, so there are fewer
candidates after each round and no bound on the rounds is ever met. What the rounds have kept stands
in front of the steps of the block, the latest first, and putting it back in that order gives the
block that sharing began with.
-/

namespace Behavior

namespace Scalar

variable {v e : Scalar} {slot : Nat}

/-- The value wherever the local is read. -/
def inline (value : Scalar) (slot : Nat) : Scalar → Scalar
  | localSlot i => if i = slot then value else localSlot i
  | unary f a => unary f (inline value slot a)
  | binary f a b => binary f (inline value slot a) (inline value slot b)
  | ternary f a b c =>
    ternary f (inline value slot a) (inline value slot b) (inline value slot c)
  | select a b c => select (inline value slot a) (inline value slot b) (inline value slot c)
  | e => e

theorem replace_of_same (h : e.same v) : replace v slot e = localSlot slot := by
  unfold replace
  exact if_pos h

/-- A local that an expression has not read stands for the value only. -/
theorem inline_replace (h : ¬ e.Reads slot) : inline v slot (replace v slot e) = e := by
  have hself {e : Scalar} (hsame : e.same v) : inline v slot (localSlot slot) = e :=
    (if_pos rfl).trans (eq_of_same hsame).symm
  induction e with
  | const _ | inputSlot _ | random =>
    unfold replace
    split
    exacts [hself ‹_›, rfl]
  | localSlot i =>
    unfold replace
    split
    exacts [hself ‹_›, if_neg h]
  | unary f a iha =>
    unfold replace
    split
    exacts [hself ‹_›, congrArg (unary f) (iha h)]
  | binary f a b iha ihb =>
    obtain ⟨ha, hb⟩ := not_or.1 h
    unfold replace
    split
    · exact hself ‹_›
    · rw [inline, iha ha, ihb hb]
  | ternary f a b c iha ihb ihc | select a b c iha ihb ihc =>
    obtain ⟨ha, h⟩ := not_or.1 h
    obtain ⟨hb, hc⟩ := not_or.1 h
    unfold replace
    split
    · exact hself ‹_›
    · rw [inline, iha ha, ihb hb, ihc hc]

theorem Reads.of_replace {s : Nat} (h : (replace v slot e).Reads s) : s = slot ∨ e.Reads s := by
  induction e with
  | const _ | inputSlot _ | localSlot _ | random =>
    unfold replace at h
    split at h
    exacts [.inl h.symm, .inr h]
  | unary f a iha =>
    unfold replace at h
    split at h
    exacts [.inl h.symm, iha h]
  | binary f a b iha ihb =>
    unfold replace at h
    split at h
    · exact .inl h.symm
    · rcases h with h | h
      exacts [(iha h).imp_right .inl, (ihb h).imp_right .inr]
  | ternary f a b c iha ihb ihc | select a b c iha ihb ihc =>
    unfold replace at h
    split at h
    · exact .inl h.symm
    · rcases h with h | h | h
      exacts [(iha h).imp_right .inl, (ihb h).imp_right fun h => .inr (.inl h),
        (ihc h).imp_right fun h => .inr (.inr h)]

theorem Fixed.not_reads (hv : v.Fixed) (s : Nat) : ¬ v.Reads s := by
  intro h
  have hreads : v.readsLocals = true := by
    clear hv
    induction v with
    | const _ | inputSlot _ | random => cases h
    | localSlot _ => rfl
    | unary f a iha => exact iha h
    | binary f a b iha ihb =>
      simp only [Scalar.readsLocals, Bool.or_eq_true]
      exact h.imp iha ihb
    | ternary f a b c iha ihb ihc | select a b c iha ihb ihc =>
      simp only [Scalar.readsLocals, Bool.or_eq_true, or_assoc]
      exact h.imp iha (Or.imp ihb ihc)
  cases hreads.symm.trans hv.readsLocals

/-! ## Fewer candidates -/

/-- Only the operands of other expressions change. -/
theorem operands_replace (h : ¬ e.same v) :
    (replace v slot e).operands = e.operands.map (replace v slot) := by
  cases e <;> simp [replace, h, operands]

theorem replace_of_operands (h : ¬ e.same v) (hoperands : e.operands = []) :
    replace v slot e = e := by
  cases e with
  | const _ | inputSlot _ | localSlot _ | random => simp [replace, h]
  | _ => cases hoperands

/-- What reads no local has been left as it was. -/
theorem isFixed_of_replace (hv : v.Fixed) (h : (replace v slot e).isFixed) : e.isFixed := by
  induction e using operands_induction with
  | h e ih =>
    by_cases hsame : e.same v
    · rw [eq_of_same hsame]
      exact isFixed_iff.2 hv
    · by_cases hoperands : e.operands = []
      · rwa [replace_of_operands hsame hoperands] at h
      · rw [isFixed_of_operands (by simpa [operands_replace hsame] using hoperands),
          operands_replace hsame, List.all_map, List.all_eq_true] at h
        rw [isFixed_of_operands hoperands, List.all_eq_true]
        exact fun a ha => ih a ha (h a ha)

theorem isShareable_of_replace (hv : v.Fixed) (hsame : ¬ e.same v)
    (h : (replace v slot e).isShareable) : e.isShareable := by
  rw [isShareable, Bool.and_eq_true, decide_eq_true_eq, two_le_size] at h ⊢
  rw [operands_replace hsame] at h
  exact ⟨isFixed_of_replace hv h.1, fun heq => h.2 (by rw [heq]; rfl)⟩

theorem size_lt_of_operand {a : Scalar} (h : a ∈ e.operands) : a.size < e.size := by
  cases e with
  | const _ | inputSlot _ | localSlot _ | random => cases h
  | unary _ _ | binary _ _ _ | ternary _ _ _ _ | select _ _ _ =>
    simp only [operands, List.mem_cons, List.not_mem_nil, or_false] at h
    rcases h with rfl | rfl | rfl <;> simp only [size] <;> omega

theorem size_le_of_part {a : Scalar} (h : a ∈ e.parts) : a.size ≤ e.size := by
  induction e using operands_induction with
  | h e ih =>
    rw [parts_eq] at h
    rcases List.mem_cons.1 h with rfl | h
    · exact Nat.le_refl _
    · obtain ⟨b, hb, ha⟩ := List.mem_flatMap.1 h
      exact (ih b hb ha).trans (size_lt_of_operand hb).le

/-- No expression is part of an operand of itself. -/
theorem countP_same_self (e : Scalar) : e.parts.countP e.same = 1 := by
  rw [parts_eq, List.countP_cons, if_pos e.same_self, List.countP_eq_zero.2]
  intro a ha hsame
  obtain ⟨b, hb, ha⟩ := List.mem_flatMap.1 ha
  have := (size_le_of_part ha).trans_lt (size_lt_of_operand hb)
  rw [eq_of_same hsame] at this
  exact this.false

/-- The candidates among some expressions, if each of them is known. -/
theorem countP_replace_flatMap {es : List Scalar} {n : Nat}
    (h : ∀ e ∈ es, (replace v slot e).parts.countP isShareable + e.parts.countP v.same * n ≤
      e.parts.countP isShareable) :
    ((es.map (replace v slot)).flatMap parts).countP isShareable +
      (es.flatMap parts).countP v.same * n ≤ (es.flatMap parts).countP isShareable := by
  induction es with
  | nil => simp
  | cons e es ih =>
    have hrest := ih fun a ha => h a (List.mem_cons_of_mem _ ha)
    have hfirst := h e List.mem_cons_self
    simp only [List.map_cons, List.flatMap_cons, List.countP_append, Nat.add_mul]
    omega

/-- With each occurrence of a value go the candidates among its parts. -/
theorem countP_replace_le (hv : v.Fixed) (slot : Nat) (e : Scalar) :
    (replace v slot e).parts.countP isShareable +
      e.parts.countP v.same * v.parts.countP isShareable ≤ e.parts.countP isShareable := by
  induction e using operands_induction with
  | h e ih =>
    by_cases hsame : e.same v
    · rw [replace_of_same hsame, eq_of_same hsame, countP_same_self, Nat.one_mul]
      exact (Nat.zero_add _).le
    · have hne : v.same e = false := by
        rw [Bool.eq_false_iff]
        intro h
        rw [eq_of_same h] at hsame
        exact hsame e.same_self
      have hrest := countP_replace_flatMap ih
      rw [parts_eq e, parts_eq (replace v slot e), operands_replace hsame]
      simp only [List.countP_cons, hne, Bool.false_eq_true, if_false, Nat.add_zero]
      have hself : (if (replace v slot e).isShareable then 1 else 0) ≤
          if e.isShareable then 1 else 0 := by
        split
        next h => rw [if_pos (isShareable_of_replace hv hsame h)]
        · exact Nat.zero_le _
      omega

end Scalar

theorem Step.value?_mapValue (s : Step) (f : Scalar → Scalar) :
    (s.mapValue f).value? = s.value?.map f := by
  cases s <;> rfl

theorem Step.setLocal_of_mapValue {s : Step} {f : Scalar → Scalar} {slot : Nat} {value : Scalar}
    (h : s.mapValue f = .setLocal slot value) : ∃ e, s = .setLocal slot e := by
  cases s with
  | setLocal i e =>
    cases h
    exact ⟨e, rfl⟩
  | setOutput | call => cases h

namespace Block

variable {b b' : Block} {v : Scalar} {slot n : Nat}

theorem length_candidates (b : Block) :
    b.candidates.length = b.parts.countP Scalar.isShareable := by
  rw [candidates_eq, List.length_map, List.countP_eq_length_filter]

theorem values_shareValue (b : Block) (slot : Nat) (v : Scalar) :
    (b.shareValue slot v).values = v :: b.values.map (Scalar.replace v slot) := by
  rw [← values_mapValues]
  rfl

/-- A value that is shared occurs twice. -/
theorem two_le_countP (h : b.nextShared? = some v) :
    v.isShareable ∧ 2 ≤ b.parts.countP v.same := by
  obtain ⟨n, ⟨⟩⟩ | htwice := repeated_of_largestRepeated? h
  rw [candidates_eq, List.countP_map] at htwice
  refine ⟨?_, htwice.trans (List.Sublist.countP_le List.filter_sublist)⟩
  obtain ⟨a, ha, hsame⟩ := List.countP_pos_iff.1 (Nat.zero_lt_of_lt htwice)
  rw [Scalar.eq_of_same hsame]
  exact (List.mem_filter.1 ha).2

theorem countP_shareValue_lt (h : b.nextShared? = some v) (slot : Nat) :
    (b.shareValue slot v).candidates.length < b.candidates.length := by
  obtain ⟨hv, htwice⟩ := two_le_countP h
  have hfixed : v.Fixed := Scalar.isFixed_iff.1 (Bool.and_eq_true_iff.1 hv).1
  have hself : 0 < v.parts.countP Scalar.isShareable := by
    rw [Scalar.parts_eq, List.countP_cons, if_pos hv]
    exact Nat.succ_pos _
  have hle := Scalar.countP_replace_flatMap fun e (_ : e ∈ b.values) =>
    Scalar.countP_replace_le hfixed slot e
  have hmul := Nat.mul_le_mul_right (v.parts.countP Scalar.isShareable) htwice
  rw [length_candidates, length_candidates, parts, values_shareValue, List.flatMap_cons,
    List.countP_append]
  unfold parts at hmul ⊢
  omega

/-! ## Rounds -/

/-- A number of rounds, which take their locals from a slot on. -/
inductive Rounds (b : Block) (slot : Nat) : Nat → Block → Prop
  | start : Rounds b slot 0 b
  | round {n : Nat} {b' : Block} {v : Scalar} :
      Rounds b slot n b' → b'.nextShared? = some v →
        Rounds b slot (n + 1) (b'.shareValue (slot + n) v)

theorem Rounds.shareWithin {fuel : Nat} (h : b.Rounds slot n b')
    (hfuel : b'.candidates.length ≤ fuel) :
    ∃ m b'', b'.shareWithin fuel (slot + n) = (slot + m, b'') ∧ b.Rounds slot m b'' ∧
      b''.nextShared? = none := by
  induction fuel generalizing n b' with
  | zero =>
    refine ⟨n, b', rfl, h, ?_⟩
    rw [nextShared?, List.eq_nil_of_length_eq_zero (Nat.le_zero.1 hfuel)]
    rfl
  | succ fuel ih =>
    cases hnext : b'.nextShared? with
    | none =>
      refine ⟨n, b', ?_, h, hnext⟩
      rw [nextShared?] at hnext
      rw [Block.shareWithin, hnext]
    | some v =>
      have hlt := countP_shareValue_lt hnext (slot + n)
      obtain ⟨m, b'', hshare, hrounds, hdone⟩ := ih (h.round hnext) (by omega)
      refine ⟨m, b'', ?_, hrounds, hdone⟩
      rw [nextShared?] at hnext
      rw [Block.shareWithin, hnext]
      exact hshare

theorem share_rounds (b : Block) (slot : Nat) :
    ∃ n b', b.share slot = (slot + n, b') ∧ b.Rounds slot n b' ∧ b'.nextShared? = none :=
  Rounds.shareWithin .start (Nat.le_refl _)

/-- There is no round in a block that has been through all of them. -/
theorem Rounds.eq_start (h : b.Rounds slot n b') (hdone : b.nextShared? = none) : b' = b := by
  induction h with
  | start => rfl
  | round _ hnext ih =>
    rw [ih, hdone] at hnext
    cases hnext

theorem pairwise_of_largestRepeated? {best : Option (Nat × Scalar)}
    {candidates : List (Nat × Scalar)} (h : largestRepeated? best candidates = none) :
    best = none ∧ candidates.Pairwise fun p q => ¬ (q.1 == p.1 && p.2.same q.2) := by
  induction candidates generalizing best with
  | nil => exact ⟨Option.map_eq_none_iff.1 h, .nil⟩
  | cons p rest ih =>
    rw [largestRepeated?_cons] at h
    split at h
    · cases (ih h).1
    next hrepeats =>
      obtain ⟨rfl, hrest⟩ := ih h
      refine ⟨rfl, List.pairwise_cons.2 ⟨fun q hq hsame => hrepeats ?_, hrest⟩⟩
      exact List.any_eq_true.2 ⟨q, hq, hsame⟩

/-- In the end no two candidates are equal. -/
theorem nodup_of_nextShared? (h : b.nextShared? = none) :
    (b.parts.filter Scalar.isShareable).Nodup := by
  have hpairwise := (pairwise_of_largestRepeated? h).2
  rw [candidates_eq, List.pairwise_map] at hpairwise
  refine hpairwise.imp fun {a c} hne heq => hne ?_
  rw [heq, Scalar.same_self, Bool.and_true]
  exact beq_self_eq_true _

/-! ## What rounds keep -/

/-- The block without its first step, which has kept a value in a local, and the value back in its
places. -/
def putBack (b : Block) : Block :=
  match b.steps with
  | (.setLocal slot value, _) :: rest =>
    mapValues (Scalar.inline value slot) { b with steps := rest }
  | _ => b

theorem mapValues_mapValues (b : Block) (f f' : Scalar → Scalar) :
    (b.mapValues f).mapValues f' = b.mapValues (f' ∘ f) := by
  simp only [mapValues, List.map_map]
  congr 1
  · refine List.map_congr_left fun s _ => ?_
    obtain ⟨s, span⟩ := s
    cases s <;> rfl
  · cases b.exit <;> rfl

/-- The locals that a block mentions are below a bound. -/
structure LocalsBelow (n : Nat) (b : Block) : Prop where
  reads : ∀ e ∈ b.values, ∀ slot, e.Reads slot → slot < n
  stores : ∀ s ∈ b.steps, ∀ slot value, s.1 = .setLocal slot value → slot < n

/-- The first steps of a block keep values in locals from a slot on, the latest first. They come
before all that reads these locals, nothing else stores to them, and putting the values back gives
the block as it was. -/
structure Keeps (b : Block) (slot n : Nat) (b' : Block) : Prop where
  stores : ∀ j < n, ∃ value span, b'.steps[j]? = some (.setLocal (slot + (n - 1 - j)) value, span)
  before : ∀ j < n, ∀ i ≤ j, ∀ s, b'.steps[i]? = some s →
    ∀ e ∈ s.1.value?, ¬ e.Reads (slot + (n - 1 - j))
  others : ∀ j, n ≤ j → ∀ i value span, b'.steps[j]? = some (.setLocal i value, span) → i < slot
  putBack : putBack^[n] b' = b

/-- The steps that were there come after the new one. -/
theorem steps_shareValue (b : Block) (slot j : Nat) (v : Scalar) :
    (b.shareValue slot v).steps[j + 1]? =
      b.steps[j]?.map fun s => (s.1.mapValue (Scalar.replace v slot), s.2) :=
  List.getElem?_map

theorem LocalsBelow.shareValue (hb : b.LocalsBelow n) (hv : v.Fixed) :
    (b.shareValue n v).LocalsBelow (n + 1) := by
  constructor
  · intro e he slot hreads
    rw [values_shareValue] at he
    rcases List.mem_cons.1 he with rfl | he
    · exact (hv.not_reads _ hreads).elim
    · obtain ⟨a, ha, rfl⟩ := List.mem_map.1 he
      rcases hreads.of_replace with rfl | hreads
      · exact Nat.lt_succ_self _
      · exact Nat.lt_succ_of_lt (hb.reads a ha slot hreads)
  · intro s hs slot value hslot
    rcases List.mem_cons.1 hs with rfl | hs
    · cases hslot
      exact Nat.lt_succ_self _
    · obtain ⟨s, hmem, rfl⟩ := List.mem_map.1 hs
      obtain ⟨e, he⟩ := Step.setLocal_of_mapValue hslot
      exact Nat.lt_succ_of_lt (hb.stores s hmem slot e he)

theorem putBack_shareValue (hb : b.LocalsBelow n) : (b.shareValue n v).putBack = b := by
  show mapValues (Scalar.inline v n) (b.mapValues (Scalar.replace v n)) = b
  rw [mapValues_mapValues]
  exact mapValues_eq_self fun e he =>
    Scalar.inline_replace fun h => Nat.lt_irrefl n (hb.reads e he n h)

theorem Keeps.shareValue (h : b.Keeps slot n b') (hb : b'.LocalsBelow (slot + n)) (hv : v.Fixed) :
    b.Keeps slot (n + 1) (b'.shareValue (slot + n) v) := by
  have hslot (j : Nat) : n + 1 - 1 - (j + 1) = n - 1 - j := by omega
  constructor
  · rintro (_ | j) hj
    · exact ⟨v, _, rfl⟩
    · obtain ⟨value, span, hstep⟩ := h.stores j (Nat.lt_of_succ_lt_succ hj)
      rw [steps_shareValue, hstep, hslot]
      exact ⟨_, _, rfl⟩
  · intro j hj i hi s hs e he
    cases i with
    | zero =>
      cases hs
      cases he
      exact hv.not_reads _
    | succ i =>
      obtain ⟨j, rfl⟩ := Nat.exists_eq_succ_of_ne_zero (Nat.ne_zero_of_lt hi)
      rw [steps_shareValue] at hs
      obtain ⟨s, hstep, rfl⟩ := Option.map_eq_some_iff.1 hs
      rw [Step.value?_mapValue] at he
      obtain ⟨a, ha, rfl⟩ := Option.map_eq_some_iff.1 he
      have hbefore :=
        h.before j (Nat.lt_of_succ_lt_succ hj) i (Nat.le_of_succ_le_succ hi) s hstep a ha
      intro hreads
      rw [Nat.succ_eq_add_one, hslot] at hreads
      rcases hreads.of_replace with heq | hreads
      · omega
      · exact hbefore hreads
  · intro j hj i value span hs
    obtain ⟨j, rfl⟩ := Nat.exists_eq_succ_of_ne_zero (Nat.ne_zero_of_lt hj)
    rw [steps_shareValue] at hs
    obtain ⟨⟨s, span'⟩, hs, hmap⟩ := Option.map_eq_some_iff.1 hs
    obtain ⟨e, rfl⟩ := Step.setLocal_of_mapValue (congrArg Prod.fst hmap)
    exact h.others j (Nat.le_of_succ_le_succ hj) i e span' hs
  · rw [Function.iterate_succ_apply, putBack_shareValue hb]
    exact h.putBack

theorem Rounds.kept (h : b.Rounds slot n b') (hb : b.LocalsBelow slot) :
    b.Keeps slot n b' ∧ b'.LocalsBelow (slot + n) := by
  induction h with
  | start =>
    have hstores (j : Nat) (_ : 0 ≤ j) (i : Nat) (value : Scalar) (span : Span)
        (hs : b.steps[j]? = some (.setLocal i value, span)) : i < slot :=
      hb.stores _ (List.mem_of_getElem? hs) _ _ rfl
    exact ⟨⟨nofun, nofun, hstores, rfl⟩, hb⟩
  | round _ hnext ih =>
    have hshareable := (two_le_countP hnext).1
    have hv : Scalar.Fixed _ := Scalar.isFixed_iff.1 (Bool.and_eq_true_iff.1 hshareable).1
    exact ⟨ih.1.shareValue ih.2 hv, ih.2.shareValue hv⟩

end Block

namespace BlockGraph

/-- Sharing in one block changes no other. -/
theorem block_withBlock_of_ne {g : BlockGraph} {i k : Nat} (h : i ≠ k) (p : Nat × Block) :
    (g.withBlock k p).block i = g.block i := by
  simp only [block, withBlock, Array.getD_eq_getD_getElem?, Array.getElem?_setIfInBounds_ne h.symm]

theorem rounds_of_withBlock (g : BlockGraph) (k : Nat) :
    let g' := g.withBlock k ((g.block k).share g.localCount)
    (g'.block k).nextShared? = none ∧
      ∃ n, g'.localCount = g.localCount + n ∧ (g.block k).Rounds g.localCount n (g'.block k) := by
  intro g'
  obtain ⟨n, b', hshare, hrounds, hdone⟩ := (g.block k).share_rounds g.localCount
  have hblock : g'.block k = b' := by
    cases hnext : (g.block k).nextShared? with
    | none => rw [show g' = g from withBlock_of_none hnext _, hrounds.eq_start hnext]
    | some v =>
      simp only [g', hshare]
      simp only [block, withBlock, Array.getD_eq_getD_getElem?,
        Array.getElem?_setIfInBounds_self_of_lt (lt_of_nextShared? hnext), Option.getD_some]
  rw [hblock]
  exact ⟨hdone, n, congrArg Prod.fst hshare, hrounds⟩

/-- Every block of a list goes through its rounds once; further times change nothing. -/
theorem rounds_of_foldl (layout : List Nat) (g : BlockGraph) :
    let g' := layout.foldl (fun g k => g.withBlock k ((g.block k).share g.localCount)) g
    g.localCount ≤ g'.localCount ∧ (∀ i ∉ layout, g'.block i = g.block i) ∧
      ∀ i ∈ layout, (g'.block i).nextShared? = none ∧ ∃ slot n, g.localCount ≤ slot ∧
        slot + n ≤ g'.localCount ∧ (g.block i).Rounds slot n (g'.block i) := by
  induction layout generalizing g with
  | nil => exact ⟨Nat.le_refl _, fun _ _ => rfl, nofun⟩
  | cons k rest ih =>
    obtain ⟨hdone, n, hcount, hrounds⟩ := g.rounds_of_withBlock k
    obtain ⟨hle, hothers, hrest⟩ := ih (g.withBlock k ((g.block k).share g.localCount))
    rw [List.foldl_cons]
    generalize List.foldl _ _ rest = g' at hle hothers hrest ⊢
    have hne {i : Nat} (h : i ≠ k) :=
      block_withBlock_of_ne (g := g) h ((g.block k).share g.localCount)
    generalize g.withBlock k _ = g₁ at hdone hcount hrounds hle hothers hrest hne
    refine ⟨by omega, fun i hi => ?_, fun i hi => ?_⟩
    · rw [List.mem_cons, not_or] at hi
      rw [hothers i hi.2, hne hi.1]
    · by_cases hk : i = k
      · subst hk
        have hsame : g'.block i = g₁.block i := by
          by_cases hmem : i ∈ rest
          · obtain ⟨-, _, _, -, -, hagain⟩ := hrest i hmem
            exact hagain.eq_start hdone
          · exact hothers i hmem
        rw [hsame]
        exact ⟨hdone, g.localCount, n, Nat.le_refl _, by omega, hrounds⟩
      · obtain ⟨hdone, slot, m, hslot, hm, hrounds⟩ :=
          hrest i ((List.mem_cons.1 hi).resolve_left hk)
        rw [hne hk] at hrounds
        exact ⟨hdone, slot, m, by omega, hm, hrounds⟩

/-- If the locals of a graph are below their number, then the blocks of the layout go through rounds
until there is none left, and others stay as they are. No two candidates of a block are equal then.
The locals that a block has taken are new, each is set before it is read and nowhere else, and with
the values back in their places the block is what it was. -/
theorem rounds_of_share (g : BlockGraph) (hg : ∀ i, (g.block i).LocalsBelow g.localCount) :
    (∀ i ∉ g.layout, g.share.block i = g.block i) ∧
      ∀ i ∈ g.layout, ∃ slot n, g.localCount ≤ slot ∧ slot + n ≤ g.share.localCount ∧
        (g.block i).Rounds slot n (g.share.block i) ∧ (g.share.block i).nextShared? = none ∧
        ((g.share.block i).parts.filter Scalar.isShareable).Nodup ∧
        (g.block i).Keeps slot n (g.share.block i) := by
  obtain ⟨-, hothers, hlayout⟩ := rounds_of_foldl g.layout g
  refine ⟨hothers, fun i hi => ?_⟩
  obtain ⟨hdone, slot, n, hslot, hcount, hrounds⟩ := hlayout i hi
  have hbelow : (g.block i).LocalsBelow slot :=
    ⟨fun e he s hs => ((hg i).reads e he s hs).trans_le hslot,
      fun s hs j v h => ((hg i).stores s hs j v h).trans_le hslot⟩
  exact ⟨slot, n, hslot, hcount, hrounds, hdone, Block.nodup_of_nextShared? hdone,
    (hrounds.kept hbelow).1⟩

/-- Adds its inputs twice. -/
def summing : BlockGraph where
  blocks := #[{ steps := [
    (.setOutput 0 (.binary .add (.inputSlot 0) (.inputSlot 1)), {}),
    (.setOutput 1 (.unary .neg (.binary .add (.inputSlot 0) (.inputSlot 1))), {})] }]
  layout := [0]
  flows := #["main"]
  localCount := 0

theorem rounds_of_share_summing :
    (∀ i, (summing.block i).LocalsBelow summing.localCount) ∧ summing.share.localCount = 1 ∧
      ∃ slot n, slot + n ≤ summing.share.localCount ∧
        (summing.block 0).Keeps slot n (summing.share.block 0) := by
  have hbelow : ∀ i, (summing.block i).LocalsBelow summing.localCount := by
    rintro (_ | i)
    · constructor
      · intro e he slot hreads
        rcases List.mem_pair.1 he with rfl | rfl <;> simp [Scalar.Reads] at hreads
      · intro s hs slot value h
        rcases List.mem_pair.1 hs with rfl | rfl <;> cases h
    · exact ⟨nofun, nofun⟩
  obtain ⟨slot, n, -, hcount, -, -, -, hkeeps⟩ :=
    (rounds_of_share summing hbelow).2 0 List.mem_cons_self
  exact ⟨hbelow, rfl, slot, n, hcount, hkeeps⟩

end BlockGraph

end Behavior
