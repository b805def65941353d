import Behavior.Proofs.NumberOrder

/-!
Signs of doubles, and the whole numbers below zero.

A change of sign is exact and undone by another one. Whole numbers are as exact below zero as they
are above: counting down past zero goes through each of them, and a double that is a natural number
is the double of that number, but for the sign of zero.
-/

namespace Behavior.Binary64

open Float.Model
open Float.Model.UnpackedFloat

variable {x y : Float} {k m : Nat} {e : Int}

/-! ## Change of sign -/

theorem eq_of_unpack (h : x.toModel.unpack = y.toModel.unpack) : x = y := by
  obtain ⟨⟨⟨a⟩, ha⟩⟩ := x
  obtain ⟨⟨⟨b⟩, hb⟩⟩ := y
  have hbits : a = b := calc
    a = UnpackedFloat.pack .binary64 (UnpackedFloat.unpack .binary64 a) := (pack_unpack ha).symm
    _ = UnpackedFloat.pack .binary64 (UnpackedFloat.unpack .binary64 b) :=
      congrArg (UnpackedFloat.pack .binary64) h
    _ = b := pack_unpack hb
  subst hbits
  rfl

theorem unpack_neg (x : Float) : (-x).toModel.unpack = x.toModel.unpack.neg := by
  show UnpackedFloat.unpack .binary64 (UnpackedFloat.pack .binary64 x.toModel.unpack.neg) = _
  cases hx : x.toModel.unpack with
  | infinity s | zero s => cases s <;> rfl
  | notANumber => rfl
  | finite s m e h => exact unpack_pack (-s) h (canonical_unpack hx)

theorem neg_neg (x : Float) : - -x = x := by
  apply eq_of_unpack
  rw [unpack_neg, unpack_neg]
  rcases x.toModel.unpack with ⟨_ | _⟩ | _ | ⟨_ | _⟩ | ⟨_ | _, m, e, h⟩ <;> rfl

/-! ## Doubles that are natural numbers -/

theorem pos_of_mul_two_pow {a b : Nat} (hm : 0 < m) (h : m * 2 ^ a = k * 2 ^ b) : 0 < k := by
  refine Nat.pos_of_ne_zero fun hzero => ?_
  rw [hzero, Nat.zero_mul] at h
  exact Nat.ne_of_gt (Nat.mul_pos hm (Nat.two_pow_pos _)) h

/-- Of the numbers that a word can hold, only one is equal to a given whole number. -/
theorem eq_wholeMantissa (hm : 0 < m) (hc : Canonical m e) (hk : k < 2 ^ 53)
    (h : m * 2 ^ e.toNat = k * 2 ^ (-e).toNat) :
    0 < k ∧ m = wholeMantissa k ∧ e = (k.log2 : Int) - 52 := by
  have hpos := pos_of_mul_two_pow hm h
  refine ⟨hpos, ?_⟩
  obtain ⟨hlt, rfl⟩ | ⟨hle, hlt, -⟩ := hc
  · -- the smallest numbers are less than one
    have hpow : 2 ^ 52 ≤ 2 ^ (-(-1074 : Int)).toNat := Nat.pow_le_pow_right (by decide) (by decide)
    have hone := Nat.mul_le_mul_right (2 ^ (-(-1074 : Int)).toNat) hpos
    rw [← h, show (-1074 : Int).toNat = 0 from rfl, Nat.pow_zero, Nat.mul_one] at hone
    omega
  · have hlog : m.log2 = 52 := (Nat.log2_eq_iff (Nat.ne_of_gt hm)).2 ⟨hle, hlt⟩
    have hboth := congrArg Nat.log2 h
    rw [log2_mul_two_pow hm, log2_mul_two_pow hpos, hlog] at hboth
    have hsmall := log2_lt_of_lt hpos hk
    have he : e = (k.log2 : Int) - 52 := by omega
    have hshift : (-e).toNat = 52 - k.log2 := by omega
    rw [hshift, show e.toNat = 0 by omega, Nat.pow_zero, Nat.mul_one] at h
    exact ⟨h, he⟩

/-- A double that is a natural number is the double of that number, or zero below zero. -/
theorem eq_ofNat_of_toNat? (h : toNat? x = some k) (hk : k < 2 ^ 53) :
    x = Float.ofNat k ∨ k = 0 ∧ x = -0.0 := by
  rw [toNat?, parts?_eq] at h
  cases hx : x.toModel.unpack with
  | infinity s | notANumber => simp [hx, partsOf?] at h
  | zero s =>
    rw [hx] at h
    dsimp only [partsOf?] at h
    rw [bne_self_eq_false, Bool.and_false, if_neg Bool.false_ne_true] at h
    have hprod := Parts.whole?_eq_some.1 h
    rw [Nat.zero_mul] at hprod
    obtain rfl : k = 0 :=
      (Nat.mul_eq_zero.1 hprod.symm).resolve_right (Nat.ne_of_gt (Nat.two_pow_pos _))
    cases s with
    | negative => exact .inr ⟨rfl, eq_of_unpack (hx.trans rfl)⟩
    | positive => exact .inl (eq_of_unpack (hx.trans rfl))
  | finite s m e hm =>
    rw [hx] at h
    dsimp only [partsOf?] at h
    cases s with
    | negative =>
      have hne : (m != 0) = true := bne_iff_ne.2 (Nat.ne_of_gt hm)
      rw [hne] at h
      cases h
    | positive =>
      obtain ⟨hpos, rfl, rfl⟩ :=
        eq_wholeMantissa hm (canonical_unpack hx) hk (Parts.whole?_eq_some.1 h)
      exact .inl (eq_of_unpack (hx.trans (unpack_ofNat hpos hk).symm))

/-! ## Whole numbers below zero -/

theorem unpack_of_neg (h : x < 0.0) :
    x.toModel.unpack = .infinity .negative ∨
      ∃ m e hm, x.toModel.unpack = .finite .negative m e hm := by
  obtain ⟨p, hp, hlt⟩ := neg_iff.1 h
  rw [place?] at hp
  rcases hx : x.toModel.unpack with ⟨_ | _⟩ | _ | s | ⟨_ | _, m, e, hm⟩ <;> rw [hx] at hp
  · exact .inl rfl
  · cases hp
    exact absurd hlt (not_lt_of_gt (zero_lt_place (by decide) ..))
  · cases hp
  · cases hp
    exact absurd hlt (lt_irrefl _)
  · exact .inr ⟨m, e, hm, rfl⟩
  · cases hp
    exact absurd hlt (not_lt_of_gt (zero_lt_place (by decide) ..))

theorem toNat?_of_neg (h : x < 0.0) : toNat? x = none := by
  rw [toNat?, parts?_eq]
  obtain hx | ⟨m, e, hm, hx⟩ := unpack_of_neg h
  · rw [hx]
    rfl
  · have hne : (m != 0) = true := bne_iff_ne.2 (Nat.ne_of_gt hm)
    rw [hx]
    dsimp only [partsOf?]
    rw [hne]
    rfl

/-- Rounding goes by the magnitude. -/
theorem round_negative (m : Nat) (e : Int) :
    round .binary64 .negative m e = (round .binary64 .positive m e).neg := by
  unfold UnpackedFloat.round roundWithAccuracy
  dsimp only
  split <;> rfl

theorem normalize_neg {m : Int} (h : 0 < m) (e : Int) (s : Sign) :
    normalize .binary64 (-m) e s = (normalize .binary64 m e s).neg := by
  rw [UnpackedFloat.normalize, UnpackedFloat.normalize, Int.compare_eq_lt.2 (by omega),
    Int.compare_eq_gt.2 h, Int.neg_neg]
  exact round_negative _ _

section

variable {n : Nat}

/-- Counting down below zero is exact. -/
theorem neg_ofNat_sub_one (hn : n + 1 < 2 ^ 53) :
    -Float.ofNat n - 1.0 = -Float.ofNat (n + 1) := by
  cases Nat.eq_zero_or_pos n with
  | inl hzero =>
    subst hzero
    rfl
  | inr hpos =>
    have hone : (1.0 : Float).toModel.unpack = whole 1 (by decide) := rfl
    have hmore : Sign.negative.apply (n * 2 ^ 52 : Nat) - (2 ^ 52 : Nat) =
        -(((n + 1) * 2 ^ 52 : Nat) : Int) := by
      show -((n * 2 ^ 52 : Nat) : Int) - _ = _
      omega
    have hsub : UnpackedFloat.sub .binary64 (whole n hpos).neg (whole 1 (by decide)) = _ :=
      sub_whole_one .negative hpos (by omega)
    show Float.ofModel (Float.Model.pack (UnpackedFloat.sub .binary64
      (-Float.ofNat n).toModel.unpack (1.0 : Float).toModel.unpack)) =
      Float.ofModel (Float.Model.pack (Float.ofNat (n + 1)).toModel.unpack.neg)
    rw [unpack_neg, unpack_ofNat hpos (by omega), hone, hsub, hmore, normalize_neg (by omega),
      normalize_shifted n.succ_pos hn, unpack_ofNat n.succ_pos hn]

theorem isWhole_neg_ofNat (h : 0 < n) (hn : n < 2 ^ 53) : isWhole (-Float.ofNat n) = true := by
  have hwhole := whole?_wholeMantissa true h hn
  rw [isWhole, parts?_eq, unpack_neg, unpack_ofNat h hn]
  exact congrArg Option.isSome hwhole

theorem neg_ofNat_lt_zero (h : 0 < n) (hn : n < 2 ^ 53) : -Float.ofNat n < 0.0 := by
  refine neg_iff.2 ⟨place (-1) (-((n.log2 : Int) - 52)) (-wholeMantissa n), ?_, ?_⟩
  · show placeOf? (-Float.ofNat n).toModel.unpack = _
    rw [unpack_neg, unpack_ofNat h hn]
    rfl
  · exact Prod.Lex.toLex_lt_toLex.2 (.inl (show (-1 : ℤ) < 0 by decide))

end

/-- A difference that is not negative before it is rounded is not negative afterwards. -/
theorem not_lt_zero_of_normalize {m : Int} (hm : 0 ≤ m) (he : -1074 ≤ e)
    (hx : x = Float.ofModel (Float.Model.pack (normalize .binary64 m e .positive))) :
    ¬ x < 0.0 := by
  have hplace : ∃ p, place? x = some p ∧ place 0 0 0 ≤ p := by
    subst hx
    rcases hm.eq_or_lt with rfl | hpos
    · have hzero : normalize .binary64 0 e .positive = .zero .positive := rfl
      rw [hzero]
      exact ⟨place 0 0 0, rfl, le_refl _⟩
    · obtain ⟨m', e', h, hround, hlt, hle⟩ :=
        round_finite .positive (Int.pos_iff_toNat_pos.1 hpos) he
      rw [UnpackedFloat.normalize, Int.compare_eq_gt.2 hpos]
      dsimp only
      rw [hround]
      obtain ⟨p, hp, hlt⟩ := placeOf?_pack h hlt hle
      exact ⟨p, hp, hlt.le⟩
  obtain ⟨p, hp, hle⟩ := hplace
  intro hneg
  obtain ⟨q, hq, hlt⟩ := neg_iff.1 hneg
  obtain rfl : p = q := Option.some.inj (hp.symm.trans hq)
  exact absurd hlt (not_lt_of_ge hle)

/-- A whole number that is not zero is at least one, whatever the exponents. -/
theorem one_le_aligned (hm : 0 < m) (h : m * 2 ^ e.toNat = k * 2 ^ (-e).toNat) :
    wholeMantissa 1 <<< (-52 - min e (-52)).toNat ≤ m <<< (e - min e (-52)).toNat := by
  have hk := pos_of_mul_two_pow hm h
  have hle : 2 ^ (-e).toNat ≤ m := by
    rcases Int.le_total 0 e with he | he
    · rw [show (-e).toNat = 0 by omega, Nat.pow_zero]
      exact hm
    · rw [show e.toNat = 0 by omega, Nat.pow_zero, Nat.mul_one] at h
      rw [h]
      exact Nat.le_mul_of_pos_left _ hk
  have hone : wholeMantissa 1 = 2 ^ 52 := rfl
  rw [Nat.shiftLeft_eq, Nat.shiftLeft_eq, hone]
  calc 2 ^ 52 * 2 ^ (-52 - min e (-52)).toNat
      = 2 ^ (52 + (-52 - min e (-52)).toNat) := (Nat.pow_add ..).symm
    _ ≤ 2 ^ ((-e).toNat + (e - min e (-52)).toNat) :=
      Nat.pow_le_pow_right (by decide) (by omega)
    _ = 2 ^ (-e).toNat * 2 ^ (e - min e (-52)).toNat := Nat.pow_add ..
    _ ≤ m * 2 ^ (e - min e (-52)).toNat := Nat.mul_le_mul_right _ hle

/-! ## Equal but for the sign of zero -/

/-- The same double, zeros of either sign and the one NaN included. -/
def Alike (x y : Float) : Prop :=
  x = y ∨ (x == y) = true

instance (x y : Float) : Decidable (Alike x y) :=
  inferInstanceAs (Decidable (_ ∨ _))

theorem placeOf?_inj {u w : UnpackedFloat} (h : placeOf? u = placeOf? w) :
    u = w ∨ placeOf? u = some (place 0 0 0) := by
  rcases u with ⟨_ | _⟩ | _ | _ | ⟨_ | _, m, e, _⟩ <;>
    rcases w with ⟨_ | _⟩ | _ | _ | ⟨_ | _, m', e', _⟩ <;>
    simp_all [placeOf?, place]

theorem zero_of_place {u : UnpackedFloat} (h : placeOf? u = some (place 0 0 0)) :
    ∃ s, u = .zero s := by
  rcases u with ⟨_ | _⟩ | _ | s | ⟨_ | _, m, e, _⟩ <;> simp_all [placeOf?, place]

theorem alike_iff : Alike x y ↔ place? x = place? y := by
  constructor
  · rintro (rfl | h)
    · rfl
    · obtain ⟨p, hx, hy⟩ := beq_iff.1 h
      rw [Option.mem_def] at hx hy
      rw [hx, hy]
  · intro h
    cases hx : place? x with
    | none =>
      refine .inl (eq_of_unpack ((placeOf?_inj h).resolve_right ?_))
      rw [show placeOf? x.toModel.unpack = none from hx]
      nofun
    | some p => exact .inr (beq_iff.2 ⟨p, hx, h ▸ hx⟩)

namespace Alike

variable {x y z : Float}

theorem refl (x : Float) : Alike x x :=
  .inl rfl

theorem trans (hxy : Alike x y) (hyz : Alike y z) : Alike x z :=
  alike_iff.2 ((alike_iff.1 hxy).trans (alike_iff.1 hyz))

theorem eq_of_neg (h : Alike x y) (hx : x < 0.0) : x = y := by
  refine eq_of_unpack ((placeOf?_inj (alike_iff.1 h)).resolve_right fun hzero => ?_)
  obtain ⟨p, hp, hlt⟩ := neg_iff.1 hx
  obtain rfl : place 0 0 0 = p := Option.some.inj (hzero.symm.trans hp)
  exact lt_irrefl _ hlt

/-- The sign of zero does not matter for an index. -/
theorem toNat?_eq (h : Alike x y) : toNat? x = toNat? y := by
  have hzero {z : Float} (hz : placeOf? z.toModel.unpack = some (place 0 0 0)) :
      toNat? z = some 0 := by
    obtain ⟨_ | _, hsign⟩ := zero_of_place hz
    · rw [eq_of_unpack (y := -0.0) hsign]
      decide +kernel
    · rw [eq_of_unpack (y := 0.0) hsign]
      decide +kernel
  rw [alike_iff] at h
  obtain hsame | hx := placeOf?_inj h
  · rw [eq_of_unpack hsame]
  · rw [hzero hx, hzero (h.symm.trans hx)]

end Alike

theorem ofNat_inj {a b : Nat} (ha : a < 2 ^ 53) (hb : b < 2 ^ 53) :
    Float.ofNat a = Float.ofNat b ↔ a = b := by
  constructor
  · intro h
    have htwo := toNat?_ofNat ha
    rw [h, toNat?_ofNat hb] at htwo
    exact (Option.some.inj htwo).symm
  · exact congrArg Float.ofNat

/-- An integer that is exact as a double, without a sign if it is zero. -/
def IsInteger (x : Float) : Prop :=
  ∃ n < 2 ^ 53, x = Float.ofNat n ∨ 0 < n ∧ x = -Float.ofNat n

namespace IsInteger

variable {x y : Float}

theorem exists_place (h : IsInteger x) :
    ∃ p, place? x = some p ∧ (p = place 0 0 0 → x = Float.ofNat 0) := by
  obtain ⟨n, hn, rfl | ⟨hpos, rfl⟩⟩ := h
  · obtain rfl | hpos := Nat.eq_zero_or_pos n
    · exact ⟨place 0 0 0, rfl, fun _ => rfl⟩
    · refine ⟨place 1 ((n.log2 : Int) - 52) (wholeMantissa n), ?_, fun hzero => ?_⟩
      · rw [place?, unpack_ofNat hpos hn]
        rfl
      · exact absurd hzero (ne_of_gt (zero_lt_place (by decide) ..))
  · obtain ⟨p, hp, hlt⟩ := neg_iff.1 (neg_ofNat_lt_zero hpos hn)
    exact ⟨p, hp, fun hzero => absurd hzero (ne_of_lt hlt)⟩

/-- Comparing integers is telling them apart. -/
theorem beq_iff (hx : IsInteger x) (hy : IsInteger y) : (x == y) = true ↔ x = y := by
  obtain ⟨p, hp, hzero⟩ := hx.exists_place
  constructor
  · intro h
    have hplaces := alike_iff.1 (.inr h)
    obtain hsame | hpzero := placeOf?_inj hplaces
    · exact eq_of_unpack hsame
    · obtain ⟨q, hq, hqzero⟩ := hy.exists_place
      obtain rfl : p = place 0 0 0 := Option.some.inj (hp.symm.trans hpzero)
      rw [hp, hq] at hplaces
      rw [hzero rfl, hqzero (Option.some.inj hplaces).symm]
  · rintro rfl
    exact Binary64.beq_iff.2 ⟨p, hp, hp⟩

end IsInteger

/-- Whole numbers below zero. -/
def IsNegativeWhole (x : Float) : Prop :=
  x < 0.0 ∧ isWhole x = true

instance (x : Float) : Decidable (IsNegativeWhole x) :=
  inferInstanceAs (Decidable (_ ∧ _))

theorem Alike.isNegativeWhole (h : Alike x y) (hx : IsNegativeWhole x) :
    IsNegativeWhole y :=
  h.eq_of_neg hx.1 ▸ hx

theorem not_isNegativeWhole_ofNat (hk : k < 2 ^ 53) :
    ¬ IsNegativeWhole (Float.ofNat k) := by
  intro h
  have hnat := toNat?_ofNat hk
  rw [toNat?_of_neg h.1] at hnat
  cases hnat

/-- Counting down from the magnitude of a whole number does not lead below zero. -/
theorem IsNegativeWhole.not_lt_zero (hx : IsNegativeWhole x) : ¬ -x - 1.0 < 0.0 := by
  obtain ⟨hneg, hwhole⟩ := hx
  obtain ⟨k, hk⟩ := Option.isSome_iff_exists.1 hwhole
  rw [parts?_eq] at hk
  obtain hu | ⟨m, e, h, hu⟩ := unpack_of_neg hneg
  · rw [hu] at hk
    cases hk
  · rw [hu] at hk
    have hone : (1.0 : Float).toModel.unpack = .finite .positive (wholeMantissa 1) (-52)
        (wholeMantissa_pos (by decide)) := rfl
    have hwhole : m * 2 ^ e.toNat = k * 2 ^ (-e).toNat := Parts.whole?_eq_some.1 hk
    have hle := one_le_aligned h hwhole
    have he := (canonical_unpack hu).bounds.2
    refine not_lt_zero_of_normalize (m := m <<< (e - min e (-52)).toNat -
      wholeMantissa 1 <<< (-52 - min e (-52)).toNat) (e := min e (-52)) (by omega) (by omega) ?_
    show Float.ofModel (Float.Model.pack (UnpackedFloat.sub .binary64 (-x).toModel.unpack
      (1.0 : Float).toModel.unpack)) = _
    rw [unpack_neg, hu, hone]
    rfl

theorem IsNegativeWhole.not_alike (hx : IsNegativeWhole x) : ¬ Alike (-x - 1.0) x := by
  intro h
  refine hx.not_lt_zero ?_
  rw [alike_iff] at h
  rw [← (alike_iff.2 h.symm).eq_of_neg hx.1]
  exact hx.1

end Behavior.Binary64
