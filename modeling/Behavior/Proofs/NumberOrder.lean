import Behavior.Proofs.WholeNumbers

/-!
The order of doubles. Each number but the one NaN has a place among the others, and comparing two
numbers compares their places, so the comparisons form a linear order once NaN is out of the way.
A sum of positive numbers is positive, however it is rounded.
-/

namespace Behavior.Binary64

open Float.Model
open Float.Model.UnpackedFloat

variable {m : Nat} {e : Int}

/-! ## Places -/

/-- Where a number stands among all others: its class, then its exponent, then its mantissa. -/
abbrev Place := ℤ ×ₗ ℤ ×ₗ ℤ

def place (c e m : ℤ) : Place :=
  toLex (c, toLex (e, m))

/-- The place of a number. The one NaN has none. -/
def placeOf? : UnpackedFloat → Option Place
  | .notANumber => none
  | .infinity .negative => some (place (-2) 0 0)
  | .finite .negative m e _ => some (place (-1) (-e) (-m))
  | .zero _ => some (place 0 0 0)
  | .finite .positive m e _ => some (place 1 e m)
  | .infinity .positive => some (place 2 0 0)

theorem compare_place (c e m c' e' m' : ℤ) : compare (place c e m) (place c' e' m') =
    (compare c c').then ((compare e e').then (compare m m')) := by
  simp [place, Prod.Lex.compare_def, compareLex, compareOn]

theorem compare_natCast (a b : ℕ) : compare (a : ℤ) b = compare a b := by
  rw [← cmp_eq_compare, ← cmp_eq_compare]
  exact Nat.strictMono_cast.cmp_map_eq a b

theorem compare_neg_neg (a b : ℤ) : compare (-a) (-b) = (compare a b).swap := by
  have hneg : StrictAnti fun c : ℤ => -c := fun _ _ h => neg_lt_neg h
  rw [← cmp_eq_compare, ← cmp_eq_compare, cmp_swap]
  exact hneg.cmp_map_eq a b

theorem compare_eq (a b : UnpackedFloat) :
    a.compare b = (placeOf? a).bind fun x => (placeOf? b).map (compare x) := by
  -- Only two numbers of the same sign need more than their classes.
  rcases a with ⟨_ | _⟩ | _ | _ | ⟨_ | _, m, e, _⟩ <;>
    rcases b with ⟨_ | _⟩ | _ | _ | ⟨_ | _, m', e', _⟩ <;>
    try rfl
  · show some _ = some _
    rw [compare_place, compare_neg_neg e, compare_neg_neg m, compare_natCast, Ordering.swap_then]
    rfl
  · show some _ = some _
    rw [compare_place, compare_natCast]
    rfl

def place? (x : Float) : Option Place :=
  placeOf? x.toModel.unpack

section

variable {x y : Float}

theorem compare_eq_some {o : Ordering} : x.toModel.unpack.compare y.toModel.unpack = some o ↔
    ∃ p ∈ place? x, ∃ q ∈ place? y, compare p q = o := by
  rw [compare_eq]
  simp [place?, Option.bind_eq_some_iff]

theorem lt_iff : x < y ↔ ∃ p ∈ place? x, ∃ q ∈ place? y, p < q := by
  have hlt : x < y ↔ x.toModel.unpack.compare y.toModel.unpack = some .lt := by
    show decide (x.toModel < y.toModel) = true ↔ _
    rw [decide_eq_true_iff]
    exact beq_iff_eq
  simp only [hlt, compare_eq_some, compare_lt_iff_lt]

theorem beq_iff : (x == y) = true ↔ ∃ p ∈ place? x, p ∈ place? y := by
  have hbeq : (x == y) = true ↔ x.toModel.unpack.compare y.toModel.unpack = some .eq := by
    show (x.toModel.unpack.compare y.toModel.unpack == some .eq) = true ↔ _
    exact beq_iff_eq
  simp only [hbeq, compare_eq_some, compare_eq_iff_eq]
  exact ⟨fun ⟨p, hp, q, hq, h⟩ => ⟨p, hp, h ▸ hq⟩, fun ⟨p, hp, hq⟩ => ⟨p, hp, p, hq, rfl⟩⟩

theorem le_iff : x ≤ y ↔ ∃ p ∈ place? x, ∃ q ∈ place? y, p ≤ q := by
  have hle : x ≤ y ↔ ∃ o : Ordering, o.isLE ∧ x.toModel.unpack.compare y.toModel.unpack = some o := by
    show decide (x.toModel ≤ y.toModel) = true ↔ _
    rw [decide_eq_true_iff]
    show Option.any _ (x.toModel.unpack.compare y.toModel.unpack) = true ↔ _
    rw [Option.any_eq_true]
    exact exists_congr fun _ => and_comm
  simp only [hle, compare_eq_some]
  constructor
  · rintro ⟨o, ho, p, hp, q, hq, rfl⟩
    exact ⟨p, hp, q, hq, compare_le_iff_le.1 (Ordering.isLE_iff_ne_gt.1 ho)⟩
  · rintro ⟨p, hp, q, hq, h⟩
    exact ⟨_, Ordering.isLE_iff_ne_gt.2 (compare_le_iff_le.2 h), p, hp, q, hq, rfl⟩

theorem le_of_lt (h : x < y) : x ≤ y := by
  obtain ⟨p, hp, q, hq, h⟩ := lt_iff.1 h
  exact le_iff.2 ⟨p, hp, q, hq, h.le⟩

theorem not_le_of_lt (h : x < y) : ¬ y ≤ x := by
  obtain ⟨p, hp, q, hq, h⟩ := lt_iff.1 h
  rintro h'
  obtain ⟨q', hq', p', hp', h'⟩ := le_iff.1 h'
  obtain rfl := Option.mem_unique hp hp'
  obtain rfl := Option.mem_unique hq hq'
  exact absurd h (not_lt_of_ge h')

theorem pos_iff : 0.0 < x ↔ ∃ p, place? x = some p ∧ place 0 0 0 < p := by
  rw [lt_iff]
  constructor
  · rintro ⟨_, ⟨⟩, p, hp, h⟩
    exact ⟨p, hp, h⟩
  · rintro ⟨p, hp, h⟩
    exact ⟨_, rfl, p, hp, h⟩

theorem neg_iff : x < 0.0 ↔ ∃ p, place? x = some p ∧ p < place 0 0 0 := by
  rw [lt_iff]
  constructor
  · rintro ⟨p, hp, _, ⟨⟩, h⟩
    exact ⟨p, hp, h⟩
  · rintro ⟨p, hp, h⟩
    exact ⟨p, hp, _, rfl, h⟩

theorem place?_of_nonneg (h : 0.0 ≤ x) : ∃ p, place? x = some p ∧ place 0 0 0 ≤ p := by
  obtain ⟨_, ⟨⟩, p, hp, h⟩ := le_iff.1 h
  exact ⟨p, hp, h⟩

end

/-! ## Sums -/

theorem mantissa_shiftRight (em : ExtendedMantissa) (k : Nat) :
    (em >>> k).mantissa = em.mantissa / 2 ^ k := by
  induction k with
  | zero => exact (Nat.div_one _).symm
  | succ k ih =>
    show (em >>> k).mantissa / 2 = _
    rw [ih, Nat.div_div_eq_div_mul, Nat.pow_succ]

theorem le_roundToNearestEven (m : Nat) (a : Accuracy) : m ≤ a.roundToNearestEven m := by
  rcases a with _ | _ | _ | _ <;> simp [Accuracy.roundToNearestEven]

/-- Bringing a mantissa to fifty-three bits leaves the first of them, so it stays positive. -/
theorem shiftToTargetExponent_bounds (hm : 0 < m) (he : -1074 ≤ e) (a : Accuracy) :
    0 < (shiftToTargetExponent .binary64 m e a).1.mantissa ∧
      (shiftToTargetExponent .binary64 m e a).1.mantissa < 2 ^ 53 ∧
      -1074 ≤ (shiftToTargetExponent .binary64 m e a).2 := by
  obtain ⟨hle, hlt⟩ := (Nat.log2_eq_iff (Nat.ne_of_gt hm)).1 rfl
  have htarget : (Format.binary64.targetExponent (totalExponent m e) - e).toNat = m.log2 - 52 := by
    simp only [totalExponent, Format.targetExponent, Format.mantissaBits, Format.minExponent]
    omega
  have hmantissa : (ExtendedMantissa.ofMantissaAndAccuracy m a).mantissa = m := by
    rcases a with _ | _ | _ | _ <;> rfl
  rw [shiftToTargetExponent, shiftToExponent, htarget, mantissa_shiftRight, hmantissa]
  have hpow : 2 ^ (m.log2 - 52) ≤ 2 ^ m.log2 := Nat.pow_le_pow_right (by decide) (by omega)
  refine ⟨Nat.div_pos (hpow.trans hle) (Nat.two_pow_pos _), ?_, by dsimp only; omega⟩
  rw [Nat.div_lt_iff_lt_mul (Nat.two_pow_pos _), ← Nat.pow_add]
  exact hlt.trans_le (Nat.pow_le_pow_right (by decide) (by omega))

/-- Rounding a number that is not zero does not give zero. -/
theorem roundWithAccuracy_finite (s : Sign) (hm : 0 < m) (he : -1074 ≤ e) (a : Accuracy) :
    ∃ m' e' h, roundWithAccuracy .binary64 s m e a = .finite s m' e' h ∧
      m' < 2 ^ 53 ∧ -1074 ≤ e' := by
  obtain ⟨hpos, -, hexp⟩ := shiftToTargetExponent_bounds hm he a
  have hrounded := hpos.trans_le
    (le_roundToNearestEven _ (shiftToTargetExponent .binary64 m e a).1.accuracy)
  obtain ⟨hpos', hlt, hexp'⟩ := shiftToTargetExponent_bounds hrounded hexp .exact
  exact ⟨_, _, hpos', dif_neg (Nat.ne_of_gt hpos'), hlt, hexp'⟩

theorem round_finite (s : Sign) (hm : 0 < m) (he : -1074 ≤ e) :
    ∃ m' e' h, round .binary64 s m e = .finite s m' e' h ∧ m' < 2 ^ 53 ∧ -1074 ≤ e' := by
  have htarget : -1074 ≤ Format.binary64.targetExponent (totalExponent m e) :=
    Int.le_max_right ..
  rw [UnpackedFloat.round, decreaseExponent, Nat.shiftLeft_eq]
  exact roundWithAccuracy_finite s (Nat.mul_pos hm (Nat.two_pow_pos _)) (by omega) .exact

theorem zero_lt_place {c : ℤ} (hc : 0 < c) (e m : ℤ) : place 0 0 0 < place c e m :=
  Prod.Lex.toLex_lt_toLex.2 (.inl hc)

/-- Packing keeps the sign, though a number may become infinite. -/
theorem placeOf?_pack (h : 0 < m) (hm : m < 2 ^ 53) (he : -1074 ≤ e) :
    ∃ p, placeOf? (Float.Model.pack (.finite .positive m e h)).unpack = some p ∧
      place 0 0 0 < p := by
  show ∃ p, placeOf? (UnpackedFloat.unpack .binary64 (UnpackedFloat.pack .binary64 _)) = _ ∧ _
  have hbias : Format.exponentBias .binary64 = 1023 := rfl
  rw [UnpackedFloat.pack]
  dsimp only
  split
  · exact ⟨place 2 0 0, rfl, zero_lt_place (by decide) ..⟩
  · next hsmall =>
    split
    · have hword : (BitVec.ofNat 11 (e + 1023 + 52).toNat).toNat = (e + 1023 + 52).toNat := by
        rw [BitVec.toNat_ofNat]
        omega
      obtain ⟨_, hread⟩ := unpack_normal .positive
        (e := BitVec.ofNat 11 (e + 1023 + 52).toNat) (BitVec.ofNat 52 m)
        (fun hzero => by rw [hzero] at hword; have : 0 = _ := hword; omega)
        (fun hones => by rw [hones] at hword; have : 2047 = _ := hword; omega)
      exact ⟨_, congrArg placeOf? hread, zero_lt_place (by decide) ..⟩
    · next hlog =>
      have hlog : m.log2 + 1 ≠ 53 := hlog
      have hlt : m < 2 ^ 52 := (Nat.log2_lt (Nat.ne_of_gt h)).1
        (by have := (Nat.log2_lt (Nat.ne_of_gt h)).2 hm; omega)
      have hne : BitVec.ofNat 52 m ≠ 0#52 := fun hzero => by
        have hword := congrArg BitVec.toNat hzero
        rw [BitVec.toNat_ofNat, Nat.mod_eq_of_lt hlt] at hword
        exact Nat.ne_of_gt h hword
      obtain ⟨_, hread⟩ := unpack_subnormal .positive hne
      exact ⟨_, congrArg placeOf? hread, zero_lt_place (by decide) ..⟩

/-- A number that is not negative is zero, infinite or finite with a positive sign. -/
theorem finite_of_nonneg {u : UnpackedFloat} {p : Place} (hu : placeOf? u = some p)
    (hp : place 0 0 0 ≤ p) :
    (∃ s, u = .zero s) ∨ u = .infinity .positive ∨ ∃ m e h, u = .finite .positive m e h := by
  have hclass : ∀ c < 0, ∀ e m, ¬ place 0 0 0 ≤ place c e m := fun c hc e m =>
    not_le_of_gt (Prod.Lex.toLex_lt_toLex.2 (.inl hc))
  rcases u with ⟨_ | _⟩ | _ | s | ⟨_ | _, m, e, h⟩
  · cases hu
    exact absurd hp (hclass _ (by decide) _ _)
  · exact .inr (.inl rfl)
  · cases hu
  · exact .inl ⟨s, rfl⟩
  · cases hu
    exact absurd hp (hclass _ (by decide) _ _)
  · exact .inr (.inr ⟨m, e, h, rfl⟩)

theorem finite_of_pos {u : UnpackedFloat} {p : Place} (hu : placeOf? u = some p)
    (hp : place 0 0 0 < p) :
    u = .infinity .positive ∨ ∃ m e h, u = .finite .positive m e h := by
  obtain ⟨s, rfl⟩ | hu := finite_of_nonneg hu hp.le
  · cases hu
    exact absurd hp (lt_irrefl _)
  · exact hu

theorem add_finite {m' : Nat} {e' : Int} (h : 0 < m) (h' : 0 < m') (he : -1074 ≤ e)
    (he' : -1074 ≤ e') :
    ∃ k x hk, UnpackedFloat.add .binary64 (.finite .positive m e h) (.finite .positive m' e' h') =
      .finite .positive k x hk ∧ k < 2 ^ 53 ∧ -1074 ≤ x := by
  have hpos : 0 < m <<< (e - min e e').toNat + m' <<< (e' - min e e').toNat := by
    rw [Nat.shiftLeft_eq]
    exact Nat.add_pos_left (Nat.mul_pos h (Nat.two_pow_pos _)) _
  obtain ⟨k, x, hk, hround, hbounds⟩ :=
    round_finite .positive hpos (show -1074 ≤ min e e' by omega)
  refine ⟨k, x, hk, ?_, hbounds⟩
  rw [← hround, UnpackedFloat.add]
  dsimp only [decreaseExponent, Sign.apply]
  rw [← Int.natCast_add, UnpackedFloat.normalize, Int.compare_eq_gt.2 (by omega)]
  rfl

/-- Adding a positive number to one that is not negative gives a positive number. -/
theorem add_pos {x y : Float} (hx : 0.0 ≤ x) (hy : 0.0 < y) : 0.0 < x + y := by
  obtain ⟨q, hq, hqpos⟩ := pos_iff.1 hy
  obtain ⟨p, hp, hle⟩ := place?_of_nonneg hx
  have hinf : ∃ r, placeOf? (Float.Model.pack (.infinity .positive)).unpack = some r ∧
      place 0 0 0 < r :=
    ⟨place 2 0 0, rfl, zero_lt_place (by decide) ..⟩
  refine pos_iff.2 ?_
  show ∃ r, placeOf? (Float.Model.pack
    (UnpackedFloat.add .binary64 x.toModel.unpack y.toModel.unpack)).unpack = some r ∧ _
  rcases finite_of_pos hq hqpos with hy | ⟨m, e, h, hy⟩
  · obtain ⟨s, hx⟩ | hx | ⟨_, _, _, hx⟩ := finite_of_nonneg hp hle <;> rw [hx, hy] <;> exact hinf
  · obtain ⟨hm, he⟩ := (canonical_unpack hy).bounds
    obtain ⟨s, hx⟩ | hx | ⟨m', e', h', hx⟩ := finite_of_nonneg hp hle
    · rw [hx, hy]
      exact placeOf?_pack h hm he
    · rw [hx, hy]
      exact hinf
    · obtain ⟨k, i, hk, hadd, hk', hi⟩ := add_finite h' h (canonical_unpack hx).bounds.2 he
      rw [hx, hy, hadd]
      exact placeOf?_pack hk hk' hi

end Behavior.Binary64
