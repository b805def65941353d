import Behavior.Proofs.Merging

/-!
Merging in any order. Sums of floats depend on their order, and so does a blended value; nothing else
that is decided does, as long as a source contributes to a channel only once. Of the contributions of
different sources exactly one stands highest, wherever it comes in the list.
-/

namespace Behavior

variable {c : Contribution} {mine mine' : List Contribution}

/-! ## The winner -/

/-- No source contributes twice. -/
def Unrepeated (mine : List Contribution) : Prop :=
  ∀ c ∈ mine, ∀ d ∈ mine, c.source = d.source → c = d

theorem Contribution.source_eq_of_standing {d : Contribution} (h : c.standing = d.standing) :
    c.source = d.source := by
  rcases standing_le.1 h.le with hlt | ⟨-, hle⟩
  · exact absurd h (standing_lt.2 (.inl hlt)).ne
  · rcases standing_le.1 h.ge with hlt | ⟨-, hge⟩
    · exact absurd h (standing_lt.2 (.inl hlt)).ne'
    · exact UInt32.le_antisymm hge hle

theorem mem_and_tops_of_best? (h : best? mine = some c) :
    c ∈ mine ∧ 0.0 < c.urgency.value ∧ c.Tops mine := by
  unfold best? at h
  have htops := List.find?_some h
  exact ⟨List.mem_of_find?_eq_some h, of_decide_eq_true htops⟩

theorem best?_eq_some (hmine : Unrepeated mine) :
    best? mine = some c ↔ c ∈ mine ∧ 0.0 < c.urgency.value ∧ c.Tops mine := by
  refine ⟨mem_and_tops_of_best?, ?_⟩
  rintro ⟨hmem, hpos, htops⟩
  cases hbest : best? mine with
  | none => exact absurd hpos (best?_eq_none.1 hbest c hmem)
  | some best =>
    obtain ⟨hmem', -, htops'⟩ := mem_and_tops_of_best? hbest
    have hstanding : best.standing = c.standing :=
      le_antisymm (Contribution.tops_iff.1 htops best hmem') (Contribution.tops_iff.1 htops' c hmem)
    rw [hmine best hmem' c hmem (Contribution.source_eq_of_standing hstanding)]

theorem Unrepeated.perm (h : Unrepeated mine) (hperm : mine.Perm mine') : Unrepeated mine' :=
  fun c hc d hd => h c (hperm.mem_iff.2 hc) d (hperm.mem_iff.2 hd)

theorem best?_perm (hperm : mine.Perm mine') (hmine : Unrepeated mine) :
    best? mine = best? mine' := by
  refine Option.ext fun c => ?_
  rw [best?_eq_some hmine, best?_eq_some (hmine.perm hperm)]
  simp only [Contribution.Tops, hperm.mem_iff]

/-- The contributions to a channel come from different sources, if no two contributions share both
their channel and their source. -/
theorem unrepeated_contributionsTo {contributions : List Contribution}
    (h : contributions.Pairwise fun c d => ¬ (c.channel = d.channel ∧ c.source = d.source))
    (channel : Nat) : Unrepeated (contributionsTo channel contributions) := by
  intro c hc d hd hsource
  obtain ⟨hc, hchannel⟩ := List.mem_filter.1 hc
  obtain ⟨hd, hchannel'⟩ := List.mem_filter.1 hd
  have hsame : c.channel = d.channel :=
    UInt16.toNat.inj ((of_decide_eq_true hchannel).trans (of_decide_eq_true hchannel').symm)
  by_contra hne
  have hsymm : Std.Symm fun c d : Contribution => ¬ (c.channel = d.channel ∧ c.source = d.source) :=
    ⟨fun _ _ hcd hdc => hcd ⟨hdc.1.symm, hdc.2.symm⟩⟩
  exact h.forall hc hd hne ⟨hsame, hsource⟩

/-! ## The verdict -/

/-- Two decisions are alike but for the numbers in their values. -/
structure Decision.Alike (d e : Decision) : Prop where
  kind : d.value.sameKind e.value = true
  urgency : d.urgency = e.urgency
  winner : d.winner? = e.winner?

theorem verdict_alike (policy : Policy) (mine mine' : List Contribution) (best : Contribution) :
    (verdict policy mine best).Alike (verdict policy mine' best) := by
  obtain ⟨source, channel, value, urgency⟩ := best
  cases policy <;> cases value <;> exact ⟨rfl, rfl, rfl⟩

/-- Where nothing is blended, the verdict follows from the winner alone. -/
theorem verdict_eq_of_unblended {policy : Policy} {best : Contribution}
    (h : policy = .exclusive ∨ ∃ i, best.value = .symbol i) (mine : List Contribution) :
    verdict policy mine best = ⟨best.value, best.urgency, some best.source⟩ := by
  obtain ⟨source, channel, value, urgency⟩ := best
  rcases h with rfl | ⟨i, rfl⟩
  · cases value <;> rfl
  · cases policy <;> rfl

namespace Merger

/-- Two mergers for the same channels, whatever each has merged before, decide alike on
contributions in different orders, if no two of them share both their channel and their source. The
values are the same on exclusive channels and wherever the strongest value is a symbol. -/
theorem merge_perm (channels : Channels) (history history' : List (List Contribution))
    {contributions contributions' : List Contribution} (hperm : contributions.Perm contributions')
    (hsources : contributions.Pairwise fun c d => ¬ (c.channel = d.channel ∧ c.source = d.source))
    (channel : Nat) :
    let decision? := ((history.foldl merge (new channels)).merge contributions).decisions.get? channel
    let decision?' :=
      ((history'.foldl merge (new channels)).merge contributions').decisions.get? channel
    decision?.isSome = decision?'.isSome ∧
      ∀ d ∈ decision?, ∀ d' ∈ decision?', d.Alike d' ∧
        ((channels.policy? channel = some .exclusive ∨
            ∃ best ∈ best? (contributionsTo channel contributions), ∃ i, best.value = .symbol i) →
          d.value = d'.value) := by
  have hbest : best? (contributionsTo channel contributions) =
      best? (contributionsTo channel contributions') :=
    best?_perm (hperm.filter _) (unrepeated_contributionsTo hsources channel)
  rw [get?_merge_foldl, get?_merge_foldl, ← hbest]
  cases channels.policy? channel with
  | none => simp
  | some policy =>
    cases best? (contributionsTo channel contributions) with
    | none => simp
    | some best =>
      simp only [Option.bind_some, Option.map_some, Option.isSome_some, Option.mem_some_iff, true_and]
      rintro d rfl d' rfl
      refine ⟨verdict_alike .., fun h => ?_⟩
      have hunblended : policy = .exclusive ∨ ∃ i, best.value = .symbol i := by
        rcases h with hpolicy | ⟨_, ⟨⟩, hsymbol⟩
        · exact .inl (Option.some.inj hpolicy)
        · exact .inr hsymbol
      rw [verdict_eq_of_unblended hunblended, verdict_eq_of_unblended hunblended]

/-- Two sources want one channel equally much, and different things of another. -/
def contested : List Contribution :=
  [⟨2, 0, .scalar 1.0, .one⟩, ⟨1, 1, .scalar 0.5, .one⟩, ⟨1, 0, .scalar 3.0, .one⟩,
    ⟨2, 1, .scalar 2.0, .one⟩]

theorem merge_perm_contested :
    let channels : Channels := { specs := #[⟨"aim", .exclusive⟩, ⟨"pace", .blendable⟩] }
    let decided (contributions : List Contribution) (channel : Nat) :=
      ((new channels).merge contributions).decisions.get? channel
    contested.Perm contested.reverse ∧
      (contested.Pairwise fun c d => ¬ (c.channel = d.channel ∧ c.source = d.source)) ∧
      (decided contested 0).isSome = true ∧ (decided contested.reverse 0).isSome = true ∧
      (∀ d ∈ decided contested 0, ∀ d' ∈ decided contested.reverse 0, d.value = d'.value) ∧
      ∀ d ∈ decided contested 1, ∀ d' ∈ decided contested.reverse 1, d.Alike d' := by
  intro channels decided
  have hperm : contested.Perm contested.reverse := (List.reverse_perm _).symm
  have hsources : contested.Pairwise fun c d => ¬ (c.channel = d.channel ∧ c.source = d.source) := by
    decide
  have hsome : (decided contested 0).isSome = true := by decide +kernel
  obtain ⟨haim, haims⟩ := merge_perm channels [] [] hperm hsources 0
  obtain ⟨-, hpaces⟩ := merge_perm channels [] [] hperm hsources 1
  refine ⟨hperm, hsources, hsome, haim.symm.trans hsome, ?_, ?_⟩
  · exact fun d hd d' hd' => (haims d hd d' hd').2 (.inl rfl)
  · exact fun d hd d' hd' => (hpaces d hd d' hd').1

end Merger

end Behavior
