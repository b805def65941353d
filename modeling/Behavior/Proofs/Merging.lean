import Behavior.Intent.Merge
import Behavior.Proofs.NumberOrder

/-!
What merging decides on one channel. A merger goes over all contributions twice, for all channels at
once, with vectors that it keeps from cycle to cycle; still, the decision on a channel follows from
the channel's policy and from the contributions to that channel alone.
-/

namespace Behavior

open Binary64 (Place place? placeOf? place)

variable {channel : Nat} {policy : Policy} {mine : List Contribution}
variable {t : Tally} {channels : Channels}

/-! ## What is to be decided -/

/-- A number of a value: a scalar has one, a vector three. -/
def IntentValue.coordinate : IntentValue → Fin 3 → Float
  | scalar v, 0 => v
  | vector x _ _, 0 => x
  | vector _ y _, 1 => y
  | vector _ _ z, 2 => z
  | _, _ => 0.0

/-- No contribution is more urgent, and no equally urgent one is from a source registered before. -/
def Contribution.Tops (c : Contribution) (mine : List Contribution) : Prop :=
  ∀ d ∈ mine, d.urgency.value < c.urgency.value ∨
    (d.urgency.value == c.urgency.value) = true ∧ c.source ≤ d.source

instance (c : Contribution) (mine : List Contribution) : Decidable (c.Tops mine) :=
  inferInstanceAs (Decidable (∀ d ∈ mine, _))

/-- The contribution that wins a channel: of those that are not topped the first, if it is urgent
at all. -/
def best? (mine : List Contribution) : Option Contribution :=
  mine.find? fun c => 0.0 < c.urgency.value ∧ c.Tops mine

/-- A sum, in the order of the contributions. -/
def total (contributions : List Contribution) (amount : Contribution → Float) : Float :=
  (contributions.map amount).foldl (· + ·) 0.0

/-- The contributions whose values are averaged when values of a kind are blended. -/
def blended (mine : List Contribution) (kind : IntentValue) : List Contribution :=
  mine.filter fun c => 0.0 < c.urgency.value ∧ c.value.sameKind kind = true

/-- The average of a number of the blended values, weighted by urgency. -/
def mean (mine : List Contribution) (kind : IntentValue) (axis : Fin 3) : Float :=
  total (blended mine kind) (fun c => c.urgency.value * c.value.coordinate axis) /
    total (blended mine kind) (·.urgency.value)

/-- The decision on a channel, given all contributions to it and the one that wins. -/
def verdict (policy : Policy) (mine : List Contribution) (best : Contribution) : Decision :=
  match policy, best.value with
  | .blendable, .scalar v => ⟨.scalar (mean mine (.scalar v) 0), best.urgency, none⟩
  | .blendable, .vector x y z =>
    let average := mean mine (.vector x y z)
    ⟨.vector (average 0) (average 1) (average 2), best.urgency, none⟩
  | _, value => ⟨value, best.urgency, some best.source⟩

/-! ## The order of contributions -/

namespace Urgency

variable {u : Urgency}
variable {v : Urgency}

theorem isSome_place? (u : Urgency) : (place? u.value).isSome := by
  obtain ⟨p, hp, -⟩ := Binary64.le_iff.1 u.range.2
  exact Option.isSome_of_mem hp

/-- An urgency is a number that has a place. -/
def place (u : Urgency) : Place :=
  (place? u.value).get u.isSome_place?

theorem place?_value (u : Urgency) : place? u.value = some u.place :=
  (Option.some_get _).symm

theorem lt_iff : u.value < v.value ↔ u.place < v.place := by
  simp [Binary64.lt_iff, place?_value]

theorem beq_iff : (u.value == v.value) = true ↔ u.place = v.place := by
  rw [Binary64.beq_iff, place?_value, place?_value]
  simp only [Option.mem_some_iff, exists_eq_left']
  exact eq_comm

theorem isAbstention_iff : u.isAbstention = true ↔ ¬ 0.0 < u.value := by
  rw [isAbstention, decide_eq_true_iff, show (0.0 : Float) = zero.value from rfl, lt_iff, not_lt,
    Binary64.le_iff]
  simp [place?_value]

end Urgency

namespace Contribution

variable {c d : Contribution}

/-- Where a contribution stands: by its urgency, then by its source. -/
def standing (c : Contribution) : Place ×ₗ ℕᵒᵈ :=
  toLex (c.urgency.place, OrderDual.toDual c.source.toNat)

theorem standing_lt : c.standing < d.standing ↔
    c.urgency.place < d.urgency.place ∨ c.urgency.place = d.urgency.place ∧ d.source < c.source :=
  Prod.Lex.toLex_lt_toLex

theorem standing_le : c.standing ≤ d.standing ↔
    c.urgency.place < d.urgency.place ∨ c.urgency.place = d.urgency.place ∧ d.source ≤ c.source :=
  Prod.Lex.toLex_le_toLex

theorem outranks_iff : c.outranks d = true ↔ d.standing < c.standing := by
  rw [outranks, standing_lt]
  split
  · next h =>
    have hne : c.urgency.place ≠ d.urgency.place := fun heq => by
      simp [bne, Urgency.beq_iff.2 heq] at h
    simp [Urgency.lt_iff, hne.symm]
  · next h =>
    have heq : c.urgency.place = d.urgency.place := Urgency.beq_iff.1 (by simpa [bne] using h)
    simp [heq]

theorem tops_iff {mine : List Contribution} :
    c.Tops mine ↔ ∀ d ∈ mine, d.standing ≤ c.standing := by
  simp only [Tops, standing_le, Urgency.lt_iff, Urgency.beq_iff]

theorem standing_lt_of_urgency (hc : ¬ 0.0 < c.urgency.value) (hd : 0.0 < d.urgency.value) :
    c.standing < d.standing := by
  refine standing_lt.2 (.inl ?_)
  rw [show (0.0 : Float) = Urgency.zero.value from rfl, Urgency.lt_iff] at hc hd
  exact lt_of_le_of_lt (not_lt.1 hc) hd

end Contribution

/-- What is known of the winner once some contributions to a channel are gone through: those before
it stand lower, those after it no higher. -/
def Leading (mine : List Contribution) : Option Contribution → Prop
  | none => ∀ c ∈ mine, ¬ 0.0 < c.urgency.value
  | some best => 0.0 < best.urgency.value ∧ ∃ before after, mine = before ++ best :: after ∧
      (∀ c ∈ before, c.standing < best.standing) ∧ ∀ c ∈ after, c.standing ≤ best.standing

namespace Leading

variable {mine : List Contribution} {best c : Contribution} {leader? : Option Contribution}

theorem standing_le (h : Leading mine (some best)) (hc : c ∈ mine) : c.standing ≤ best.standing := by
  obtain ⟨-, before, after, rfl, hbefore, hafter⟩ := h
  rcases List.mem_append.1 hc with hc | hc
  · exact (hbefore c hc).le
  · rcases List.mem_cons.1 hc with rfl | hc
    · exact le_rfl
    · exact hafter c hc

/-- A contribution that is no stronger changes nothing. -/
theorem keep (h : Leading mine (some best)) (hc : c.standing ≤ best.standing) :
    Leading (mine ++ [c]) (some best) := by
  obtain ⟨hpos, before, after, rfl, hbefore, hafter⟩ := h
  refine ⟨hpos, before, after ++ [c], by simp, hbefore, fun d hd => ?_⟩
  rcases List.mem_append.1 hd with hd | hd
  · exact hafter d hd
  · rw [List.mem_singleton.1 hd]
    exact hc

/-- A contribution that is stronger than all before takes over. -/
theorem replace (hpos : 0.0 < c.urgency.value) (h : ∀ d ∈ mine, d.standing < c.standing) :
    Leading (mine ++ [c]) (some c) :=
  ⟨hpos, mine, [], rfl, h, by simp⟩

theorem abstain (h : Leading mine leader?) (hc : ¬ 0.0 < c.urgency.value) :
    Leading (mine ++ [c]) leader? := by
  cases leader? with
  | none =>
    intro d hd
    rcases List.mem_append.1 hd with hd | hd
    · exact h d hd
    · rw [List.mem_singleton.1 hd]
      exact hc
  | some best => exact h.keep (Contribution.standing_lt_of_urgency hc h.1).le

/-- A contribution that is urgent takes over if it outranks the leader there is. -/
theorem urge (h : Leading mine leader?) (hpos : 0.0 < c.urgency.value) :
    Leading (mine ++ [c]) (if leader?.all c.outranks then some c else leader?) := by
  cases leader? with
  | none => exact .replace hpos fun d hd => Contribution.standing_lt_of_urgency (h d hd) hpos
  | some best =>
    rw [Option.all_some]
    split
    · next hout =>
      exact .replace hpos fun d hd =>
        lt_of_le_of_lt (h.standing_le hd) (Contribution.outranks_iff.1 hout)
    · next hout => exact h.keep (not_lt.1 fun hlt => hout (Contribution.outranks_iff.2 hlt))

theorem best?_eq (h : Leading mine leader?) : best? mine = leader? := by
  cases leader? with
  | none => exact List.find?_eq_none.2 fun c hc => by simp [h c hc]
  | some best =>
    have htops : best.Tops mine := Contribution.tops_iff.2 fun _ hd => h.standing_le hd
    obtain ⟨hpos, before, after, rfl, hbefore, -⟩ := h
    refine List.find?_eq_some_iff_append.2 ⟨by simp [hpos, htops], before, after, rfl, ?_⟩
    intro c hc
    have hnot : ¬ c.Tops (before ++ best :: after) := fun hc' =>
      absurd (Contribution.tops_iff.1 hc' best (by simp)) (not_le_of_gt (hbefore c hc))
    simp [hnot]

end Leading

theorem exists_leading (mine : List Contribution) : ∃ leader?, Leading mine leader? := by
  induction mine using List.reverseRecOn with
  | nil => exact ⟨none, fun _ hc => absurd hc List.not_mem_nil⟩
  | append_singleton mine c ih =>
    obtain ⟨leader?, h⟩ := ih
    by_cases hpos : 0.0 < c.urgency.value
    · exact ⟨_, h.urge hpos⟩
    · exact ⟨_, h.abstain hpos⟩

/-! ## The first pass: who leads -/

/-- Going through a list with a table, seen from one place of the table. -/
theorem getElem?_foldl {α β : Type} {f : Array α → β → Array α} {g : α → β → α} {i : Nat}
    (h : ∀ t x, (f t x)[i]? = t[i]?.map (g · x)) (l : List β) (t : Array α) :
    (l.foldl f t)[i]? = t[i]?.map (l.foldl g) := by
  induction l generalizing t with
  | nil => simp
  | cons x l ih =>
    rw [List.foldl_cons, ih, h, Option.map_map]
    rfl

/-- The contributions to a channel. -/
def contributionsTo (channel : Nat) (contributions : List Contribution) : List Contribution :=
  contributions.filter (·.channel.toNat = channel)

section

variable {channel : Nat} {c : Contribution} (l : List Contribution)

theorem contributionsTo_cons_of_eq (h : c.channel.toNat = channel) :
    contributionsTo channel (c :: l) = c :: contributionsTo channel l :=
  List.filter_cons_of_pos (by simp [h])

theorem contributionsTo_cons_of_ne (h : c.channel.toNat ≠ channel) :
    contributionsTo channel (c :: l) = contributionsTo channel l :=
  List.filter_cons_of_neg (by simp [h])

end

namespace Tally

section

variable {contributions done : List Contribution} {channel : Nat}
variable {c : Contribution} {number : Nat}

/-- What ranking a contribution does to the tally of one channel. -/
def rankAt (contributions : List Contribution) (channel : Nat) (t : Tally)
    (entry : Contribution × Nat) : Tally :=
  if entry.1.urgency.isAbstention ∨ entry.1.channel.toNat ≠ channel then t
  else t.rank contributions entry.1 entry.2

theorem blend_rankAt (t : Tally) (entry : Contribution × Nat) :
    (t.rankAt contributions channel entry).blend = t.blend := by
  rw [rankAt, rank]
  split
  · rfl
  · split <;> rfl

theorem leader?_rank (t : Tally) (hc : contributions[number]? = some c) :
    (t.rank contributions c number).leader? contributions =
      if (t.leader? contributions).all c.outranks then some c else t.leader? contributions := by
  rw [rank]
  split
  · exact hc
  · rfl

/-- Whichever contribution comes next, the tally of a channel keeps track of the leader. -/
theorem leading_rankAt (h : Leading (contributionsTo channel done) (t.leader? contributions))
    (hc : contributions[number]? = some c) :
    Leading (contributionsTo channel (done ++ [c]))
      ((t.rankAt contributions channel (c, number)).leader? contributions) := by
  rw [contributionsTo, List.filter_append]
  by_cases hchannel : c.channel.toNat = channel
  · have hmine : [c].filter (·.channel.toNat = channel) = [c] :=
      contributionsTo_cons_of_eq [] hchannel
    rw [hmine]
    cases habstains : c.urgency.isAbstention with
    | true =>
      rw [rankAt, if_pos (.inl habstains)]
      exact h.abstain (Urgency.isAbstention_iff.1 habstains)
    | false =>
      have hpos : 0.0 < c.urgency.value := by
        by_contra hnot
        rw [Urgency.isAbstention_iff.2 hnot] at habstains
        cases habstains
      rw [rankAt, if_neg (by simp [habstains, hchannel])]
      rw [leader?_rank t hc]
      exact h.urge hpos
  · have hmine : [c].filter (·.channel.toNat = channel) = [] :=
      contributionsTo_cons_of_ne [] hchannel
    rw [hmine, List.append_nil, rankAt, if_pos (.inr hchannel)]
    exact h

theorem leading_foldl_rankAt (rest : List Contribution) (hall : contributions = done ++ rest)
    (h : Leading (contributionsTo channel done) (t.leader? contributions)) :
    Leading (contributionsTo channel contributions)
      (((rest.zipIdx done.length).foldl (rankAt contributions channel) t).leader?
        contributions) := by
  -- Induction on the contributions still to come; the leader among those done is known.
  induction rest generalizing done t with
  | nil =>
    rw [List.append_nil] at hall
    rw [hall] at h ⊢
    exact h
  | cons c rest ih =>
    have hc : contributions[done.length]? = some c := by simp [hall]
    rw [List.zipIdx_cons, List.foldl_cons]
    have hlength : done.length + 1 = (done ++ [c]).length := by simp
    rw [hlength]
    exact ih (by simp [hall]) (leading_rankAt h hc)

theorem blend_foldl_rankAt (entries : List (Contribution × Nat)) (t : Tally) :
    (entries.foldl (rankAt contributions channel) t).blend = t.blend := by
  induction entries generalizing t with
  | nil => rfl
  | cons entry entries ih => rw [List.foldl_cons, ih, blend_rankAt]

end

end Tally

theorem Merger.getElem?_rankAll (contributions : List Contribution) (tallies : Array Tally)
    (channel : Nat) :
    (rankAll contributions tallies)[channel]? =
      tallies[channel]?.map (contributions.zipIdx.foldl (Tally.rankAt contributions channel)) := by
  refine getElem?_foldl (fun t entry => ?_) _ _
  dsimp only [Tally.rankAt]
  split
  · next h => simp [h]
  · next h =>
    rw [Array.getElem?_modify]
    split
    · next hchannel => simp [h, hchannel]
    · next hchannel => simp [hchannel]

/-! ## The second pass: what is blended -/

namespace Tally

section

variable {contributions : List Contribution} {channel : Nat} {policy : Policy}

/-- What counting a contribution does to the tally of one channel. -/
def countAt (policy : Policy) (contributions : List Contribution) (channel : Nat) (t : Tally)
    (c : Contribution) : Tally :=
  if policy = .blendable ∧ c.channel.toNat = channel then t.count contributions c else t

theorem leader?_countAt (t : Tally) (c : Contribution) :
    (t.countAt policy contributions channel c).leader? contributions = t.leader? contributions := by
  rw [countAt, count]
  split
  · split
    · rfl
    · split <;> rfl
  · rfl

theorem leader?_foldl_countAt (l : List Contribution) (t : Tally) :
    (l.foldl (countAt policy contributions channel) t).leader? contributions =
      t.leader? contributions := by
  induction l generalizing t with
  | nil => rfl
  | cons c l ih => rw [List.foldl_cons, ih, leader?_countAt]

theorem blend_foldl_countAt (l : List Contribution) {best : Contribution}
    (h : t.leader? contributions = some best) :
    (l.foldl (countAt .blendable contributions channel) t).blend =
      (blended (contributionsTo channel l) best.value).foldl Blend.add t.blend := by
  induction l generalizing t with
  | nil => rfl
  | cons c l ih =>
    rw [List.foldl_cons, ih ((leader?_countAt t c).trans h)]
    by_cases hchannel : c.channel.toNat = channel
    · have habstains := Urgency.isAbstention_iff (u := c.urgency)
      rw [countAt, if_pos ⟨rfl, hchannel⟩, count, h, contributionsTo_cons_of_eq l hchannel]
      dsimp only
      by_cases hblends : 0.0 < c.urgency.value ∧ c.value.sameKind best.value = true
      · rw [if_neg (by simp [hblends, habstains]), blended, blended,
          List.filter_cons_of_pos (by simpa using hblends), List.foldl_cons]
      · rw [if_pos, blended, blended, List.filter_cons_of_neg (by simpa using hblends)]
        rw [Bool.or_eq_true, habstains, Bool.not_eq_true', or_iff_not_imp_left, not_not]
        exact fun hpos => Bool.eq_false_iff.2 fun hkind => hblends ⟨hpos, hkind⟩
    · rw [countAt, if_neg (by simp [hchannel]), contributionsTo_cons_of_ne l hchannel]

end

end Tally

theorem Merger.getElem?_countAll (hpolicy : channels.policy? channel = some policy)
    (contributions : List Contribution) (tallies : Array Tally) :
    (countAll channels contributions tallies)[channel]? =
      tallies[channel]?.map (contributions.foldl (Tally.countAt policy contributions channel)) := by
  refine getElem?_foldl (fun t c => ?_) _ _
  dsimp only [Tally.countAt]
  by_cases hchannel : c.channel.toNat = channel
  · subst hchannel
    simp only [hpolicy, Option.some.injEq, and_true]
    split
    · rw [Array.getElem?_modify, if_pos rfl]
    · simp
  · have hid : (fun t : Tally =>
        if policy = .blendable ∧ c.channel.toNat = channel then t.count contributions c else t) = id :=
      funext fun t => if_neg fun h => hchannel h.2
    rw [hid, Option.map_id, id]
    split
    · rw [Array.getElem?_modify, if_neg hchannel]
    · rfl

/-! ## Averages -/

namespace Blend

theorem average?_of_weight {b : Blend} (h : ¬ b.weight ≤ 0.0) (kind : IntentValue) :
    b.average? kind =
      match kind with
      | .scalar _ => some (.scalar (b.x / b.weight))
      | .vector _ _ _ => some (.vector (b.x / b.weight) (b.y / b.weight) (b.z / b.weight))
      | .symbol _ => none :=
  if_neg h

theorem average?_symbol (b : Blend) (i : UInt32) : b.average? (.symbol i) = none := by
  rw [average?]
  split <;> rfl

/-- A running sum over values that have numbers is one sum for each number. -/
theorem foldl_add {l : List Contribution} (h : ∀ c ∈ l, c.value.components?.isSome) (b : Blend) :
    let sum (start : Float) (amount : Contribution → Float) := (l.map amount).foldl (· + ·) start
    let part (axis : Fin 3) (c : Contribution) := c.urgency.value * c.value.coordinate axis
    l.foldl add b =
      ⟨sum b.weight (·.urgency.value), sum b.x (part 0), sum b.y (part 1), sum b.z (part 2)⟩ := by
  induction l generalizing b with
  | nil => rfl
  | cons c l ih =>
    have hc := h c List.mem_cons_self
    dsimp only at ih ⊢
    rw [List.foldl_cons, ih fun d hd => h d (List.mem_cons_of_mem _ hd)]
    simp only [List.map_cons, List.foldl_cons]
    rw [add]
    cases hvalue : c.value with
    | scalar v => rfl
    | vector x y z => rfl
    | symbol i =>
      rw [hvalue] at hc
      cases hc

end Blend

theorem IntentValue.components?_of_sameKind {v w : IntentValue} (h : v.sameKind w = true)
    (hw : w.components?.isSome) : v.components?.isSome := by
  cases v <;> cases w <;> simp_all [sameKind, components?]

/-- The weights of what is blended add up to a positive number. -/
theorem total_urgency_pos {l : List Contribution} (h : ∀ c ∈ l, 0.0 < c.urgency.value)
    (hne : l ≠ []) : 0.0 < total l (·.urgency.value) := by
  have hsum : ∀ (l : List Contribution) (start : Float), 0.0 < start →
      (∀ c ∈ l, 0.0 < c.urgency.value) →
      0.0 < (l.map (·.urgency.value)).foldl (· + ·) start := by
    intro l
    induction l with
    | nil => exact fun _ hstart _ => hstart
    | cons c l ih =>
      intro start hstart hl
      refine ih _ (Binary64.add_pos (Binary64.le_of_lt hstart) (hl c List.mem_cons_self)) ?_
      exact fun d hd => hl d (List.mem_cons_of_mem _ hd)
  cases l with
  | nil => exact absurd rfl hne
  | cons c l =>
    refine hsum l _ (Binary64.add_pos (by decide) (h c List.mem_cons_self)) ?_
    exact fun d hd => h d (List.mem_cons_of_mem _ hd)

/-- What has been blended is what the verdict takes the averages of. -/
theorem foldl_blended (mine : List Contribution) {kind : IntentValue}
    (hkind : kind.components?.isSome) :
    let part (axis : Fin 3) (c : Contribution) := c.urgency.value * c.value.coordinate axis
    (blended mine kind).foldl Blend.add {} =
      ⟨total (blended mine kind) (·.urgency.value), total (blended mine kind) (part 0),
        total (blended mine kind) (part 1), total (blended mine kind) (part 2)⟩ := by
  refine Blend.foldl_add (fun c hc => ?_) {}
  have hsame := (List.mem_filter.1 hc).2
  rw [decide_eq_true_iff] at hsame
  exact IntentValue.components?_of_sameKind hsame.2 hkind

theorem Leading.total_pos {best : Contribution} (h : Leading mine (some best)) :
    0.0 < total (blended mine best.value) (·.urgency.value) := by
  obtain ⟨hpos, before, after, rfl, -⟩ := h
  have hself : best.value.sameKind best.value = true := by cases best.value <;> rfl
  have hmem : best ∈ blended (before ++ best :: after) best.value :=
    List.mem_filter.2 ⟨by simp, by simp [hpos, hself]⟩
  refine total_urgency_pos (fun c hc => ?_) (List.ne_nil_of_mem hmem)
  have hblends := (List.mem_filter.1 hc).2
  rw [decide_eq_true_iff] at hblends
  exact hblends.1

theorem Leading.average?_blended {best : Contribution} (h : Leading mine (some best)) :
    ((blended mine best.value).foldl Blend.add {}).average? best.value =
      match best.value with
      | .scalar _ => some (.scalar (mean mine best.value 0))
      | .vector _ _ _ =>
        some (.vector (mean mine best.value 0) (mean mine best.value 1) (mean mine best.value 2))
      | .symbol _ => none := by
  cases hkind : best.value.components? with
  | none =>
    cases hvalue : best.value with
    | scalar v | vector x y z => simp [hvalue, IntentValue.components?] at hkind
    | symbol i => rw [Blend.average?_symbol]
  | some parts =>
    have hsums := foldl_blended mine (Option.isSome_of_mem hkind)
    have hweight : ¬ ((blended mine best.value).foldl Blend.add {}).weight ≤ 0.0 := by
      rw [hsums]
      exact Binary64.not_le_of_lt h.total_pos
    rw [Blend.average?_of_weight hweight, hsums]
    rfl

/-- A tally that knows the winner, and what is blended with it, gives the verdict. -/
theorem Tally.decision?_eq {contributions : List Contribution}
    (h : Leading mine (t.leader? contributions))
    (hblend : policy = .blendable → ∀ best, t.leader? contributions = some best →
      t.blend = (blended mine best.value).foldl Blend.add {}) :
    t.decision? contributions policy = (best? mine).map (verdict policy mine) := by
  rw [h.best?_eq, Tally.decision?]
  cases hleader : t.leader? contributions with
  | none => rfl
  | some best =>
    rw [hleader] at h
    cases policy with
    | exclusive => rfl
    | blendable =>
      rw [Option.map_some, Option.map_some, hblend rfl best hleader]
      unfold verdict
      dsimp only
      rw [h.average?_blended]
      cases best.value <;> simp only

/-! ## All channels -/

theorem best?_eq_none :
    best? mine = none ↔ ∀ c ∈ mine, ¬ 0.0 < c.urgency.value := by
  constructor
  · intro h
    obtain ⟨leader?, hleader⟩ := exists_leading mine
    rw [hleader.best?_eq] at h
    rw [h] at hleader
    exact hleader
  · intro h
    have hnone : Leading mine none := h
    exact hnone.best?_eq

theorem Channels.lt_size_of_policy? (channels : Channels)
    (h : channels.policy? channel = some policy) : channel < channels.size := by
  by_contra hnot
  rw [Channels.policy?, Array.getElem?_eq_none (not_lt.1 hnot)] at h
  cases h

/-- After both passes the tally of a channel knows the winner and what is blended with it. -/
theorem Merger.tally_of_policy (hpolicy : channels.policy? channel = some policy)
    (contributions : List Contribution) :
    let mine := contributionsTo channel contributions
    ∃ t, (countAll channels contributions (rankAll contributions
        ((Array.replicate channels.size ({} : Tally)).map fun _ => {})))[channel]? = some t ∧
      Leading mine (t.leader? contributions) ∧
      (policy = .blendable → ∀ best, t.leader? contributions = some best →
        t.blend = (blended mine best.value).foldl Blend.add {}) := by
  have hsize : channel < channels.size := channels.lt_size_of_policy? hpolicy
  have hcleared : ((Array.replicate channels.size ({} : Tally)).map fun _ => {})[channel]? =
      some ({} : Tally) := by
    simp [hsize]
  have hnone : Leading (contributionsTo channel []) (({} : Tally).leader? contributions) :=
    fun _ hc => absurd hc List.not_mem_nil
  have hranked := Tally.leading_foldl_rankAt contributions (List.nil_append contributions).symm
    hnone
  refine ⟨_, by rw [getElem?_countAll hpolicy, getElem?_rankAll, hcleared]; rfl, ?_, ?_⟩
  · rw [Tally.leader?_foldl_countAt]
    exact hranked
  · rintro rfl best hbest
    rw [Tally.leader?_foldl_countAt] at hbest
    rw [Tally.blend_foldl_countAt contributions hbest, Tally.blend_foldl_rankAt]

theorem Channels.get?_merge (channels : Channels) (contributions : List Contribution)
    (channel : Nat) :
    (channels.merge contributions).get? channel =
      (channels.policy? channel).bind fun policy =>
        (best? (contributionsTo channel contributions)).map
          (verdict policy (contributionsTo channel contributions)) := by
  rw [Channels.merge, Decisions.get?, Merger.merge, Merger.new]
  dsimp only
  rw [Array.getD_eq_getD_getElem?, Array.getElem?_mapIdx]
  cases hpolicy : channels.policy? channel with
  | none =>
    have hsize : channels.size ≤ channel := by
      simpa [Channels.policy?, Channels.size] using hpolicy
    simp [hsize]
  | some policy =>
    have hsize : channel < channels.size := channels.lt_size_of_policy? hpolicy
    obtain ⟨t, ht, hleading, hblend⟩ := Merger.tally_of_policy hpolicy contributions
    have hslot : (Array.replicate channels.size (none : Option Decision))[channel]? = some none := by
      simp [hsize]
    rw [hslot, Array.getD_eq_getD_getElem?, ht]
    exact Tally.decision?_eq hleading hblend

namespace Merger

/-- Nothing is left of earlier cycles. -/
theorem decisions_merge (m : Merger) (contributions : List Contribution) :
    (m.merge contributions).decisions = m.channels.merge contributions := by
  have hcleared : m.tallies.map (fun _ => ({} : Tally)) =
      (Merger.new m.channels).tallies.map fun _ => {} := by
    apply Array.ext
    · simp only [Array.size_map, m.tallies_size, (Merger.new m.channels).tallies_size]
      rfl
    · simp
  have hslots : ∀ decide : Nat → Option Decision,
      m.decisions.slots.mapIdx (fun channel _ => decide channel) =
        (Merger.new m.channels).decisions.slots.mapIdx fun channel _ => decide channel := by
    intro decide
    apply Array.ext
    · simp only [Array.size_mapIdx, m.slots_size, (Merger.new m.channels).slots_size]
      rfl
    · simp
  rw [Channels.merge, merge, merge]
  dsimp only
  rw [hcleared, hslots]
  rfl

@[simp] theorem channels_merge (m : Merger) (contributions : List Contribution) :
    (m.merge contributions).channels = m.channels :=
  rfl

theorem channels_foldl_merge (history : List (List Contribution)) (m : Merger) :
    (history.foldl merge m).channels = m.channels := by
  induction history generalizing m with
  | nil => rfl
  | cons contributions history ih => rw [List.foldl_cons, ih, channels_merge]

/-- What has been merged before does not matter. -/
theorem get?_merge_foldl (channels : Channels) (history : List (List Contribution))
    (contributions : List Contribution) (channel : Nat) :
    ((history.foldl merge (new channels)).merge contributions).decisions.get? channel =
      (channels.policy? channel).bind fun policy =>
        (best? (contributionsTo channel contributions)).map
          (verdict policy (contributionsTo channel contributions)) := by
  rw [decisions_merge, channels_foldl_merge]
  exact channels.get?_merge contributions channel

/-- After any earlier cycles, the decision on a channel follows from its policy and from the
contributions to it: there is none unless one of them is urgent, and otherwise it is the verdict
for the first of the most urgent ones, by source. -/
theorem merge_by_channel (channels : Channels) (history : List (List Contribution))
    (contributions : List Contribution) (channel : Nat) :
    let decision? := ((history.foldl merge (new channels)).merge contributions).decisions.get? channel
    let mine := contributionsTo channel contributions
    (decision? = none ↔
      channels.policy? channel = none ∨ ∀ c ∈ mine, ¬ 0.0 < c.urgency.value) ∧
    decision? = do return verdict (← channels.policy? channel) mine (← best? mine) := by
  intro decision? mine
  have hdecision := get?_merge_foldl channels history contributions channel
  refine ⟨?_, ?_⟩
  · rw [show decision? = _ from hdecision, ← best?_eq_none]
    cases channels.policy? channel <;> simp [mine]
  · rw [show decision? = _ from hdecision]
    cases channels.policy? channel <;> cases best? mine <;> rfl

end Merger

end Behavior
