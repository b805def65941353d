import Behavior.Operator
import Behavior.Proofs.Bits

/-!
Whole numbers as doubles. Up to fifty-three bits they are exact: counting down by one reaches every
number on the way, and a number that stands for a place in a table can be read back.
-/

namespace Behavior.Binary64

open Float.Model
open Float.Model.UnpackedFloat

section

variable {m : Nat} {e : Int}

/-! ## Words and the numbers they stand for -/

theorem ofBitVec_unpackSign (s : Sign) (e : BitVec 11) (m : BitVec 52) :
    Sign.ofBitVec (@unpackSign .binary64 (packComponents .binary64 s e m)) = s := by
  have he := e.isLt
  have hm := m.isLt
  have hword : (@unpackSign .binary64 (packComponents .binary64 s e m)) = s.toBitVec := by
    apply BitVec.eq_of_toNat_eq
    rw [toNat_unpackSign, toNat_packComponents]
    omega
  rw [hword]
  cases s <;> rfl

theorem unpack_normal (s : Sign) {e : BitVec 11} (m : BitVec 52) (hzero : e ≠ 0#11)
    (hones : e ≠ -1#11) :
    ∃ h, UnpackedFloat.unpack .binary64 (packComponents .binary64 s e m) =
      .finite s (2 ^ 52 + m.toNat) ((e.toNat : Int) - 1075) h := by
  refine ⟨by omega, ?_⟩
  rw [UnpackedFloat.unpack]
  simp only [unpackExponent_packComponents, unpackMantissa_packComponents, ofBitVec_unpackSign,
    toNat_append_leading]
  rw [if_neg hones, if_neg hzero]
  rfl

theorem unpack_subnormal (s : Sign) {m : BitVec 52} (hm : m ≠ 0#52) :
    ∃ h, UnpackedFloat.unpack .binary64 (packComponents .binary64 s 0#11 m) =
      .finite s m.toNat (-1074) h := by
  refine ⟨Nat.pos_of_ne_zero fun h => hm (BitVec.eq_of_toNat_eq h), ?_⟩
  rw [UnpackedFloat.unpack]
  simp only [unpackExponent_packComponents, unpackMantissa_packComponents, ofBitVec_unpackSign]
  rw [if_neg (by decide), if_pos trivial, dif_neg hm]
  rfl

/-- A mantissa and an exponent that a word can hold. -/
def Canonical (m : Nat) (e : Int) : Prop :=
  m < 2 ^ 52 ∧ e = -1074 ∨ 2 ^ 52 ≤ m ∧ m < 2 ^ 53 ∧ -1074 ≤ e ∧ e ≤ 971

theorem canonical_unpack {b : BitVec 64} {s : Sign} {h : 0 < m}
    (hb : UnpackedFloat.unpack .binary64 b = .finite s m e h) : Canonical m e := by
  have hmlt := (@unpackMantissa .binary64 b).isLt
  have helt := (@unpackExponent .binary64 b).isLt
  have hlead := toNat_append_leading (@unpackMantissa .binary64 b)
  rw [UnpackedFloat.unpack] at hb
  dsimp only at hb hmlt helt
  have hbias : Format.exponentBias .binary64 = 1023 := rfl
  split at hb
  · split at hb <;> cases hb
  · next hones =>
    have hne : (@unpackExponent .binary64 b).toNat ≠ 2 ^ 11 - 1 :=
      fun h => hones (BitVec.eq_of_toNat_eq h)
    split at hb
    · next hzero =>
      split at hb
      · cases hb
      · cases hb
        refine .inl ⟨hmlt, ?_⟩
        rw [hzero, hbias]
        rfl
    · next hzero =>
      have hpos : (@unpackExponent .binary64 b).toNat ≠ 0 :=
        fun h => hzero (BitVec.eq_of_toNat_eq h)
      cases hb
      refine .inr ⟨?_, ?_, ?_, ?_⟩ <;> omega

/-- Packing loses nothing that a word can hold. -/
theorem unpack_pack (s : Sign) (h : 0 < m) (hc : Canonical m e) :
    UnpackedFloat.unpack .binary64 (UnpackedFloat.pack .binary64 (.finite s m e h)) =
      .finite s m e h := by
  obtain ⟨hm, rfl⟩ | ⟨hle, hlt, he⟩ := hc
  · have hword : (BitVec.ofNat 52 m).toNat = m := by
      rw [BitVec.toNat_ofNat, Nat.mod_eq_of_lt hm]
    have hne : BitVec.ofNat 52 m ≠ 0#52 := fun hzero => by
      rw [hzero] at hword
      exact Nat.ne_of_lt h hword
    obtain ⟨_, hread⟩ := unpack_subnormal s hne
    rw [pack_subnormal s h hm rfl, hread]
    simp only [hword]
  · obtain ⟨x, hx⟩ := Int.eq_ofNat_of_zero_le (show 0 ≤ e + 1075 by omega)
    have hword : (BitVec.ofNat 11 x).toNat = x := by
      rw [BitVec.toNat_ofNat]
      omega
    have hrest : 2 ^ 52 + (BitVec.ofNat 52 m).toNat = m := by
      rw [BitVec.toNat_ofNat]
      omega
    obtain ⟨_, hread⟩ := unpack_normal s (e := BitVec.ofNat 11 x) (BitVec.ofNat 52 m)
      (fun hzero => by rw [hzero] at hword; have : 0 = x := hword; omega)
      (fun hones => by rw [hones] at hword; have : 2047 = x := hword; omega)
    have he' : e = (x : Int) - 1075 := by omega
    rw [pack_normal s h hle hlt (by omega) he', hread]
    simp only [hword, hrest, he']

theorem Canonical.bounds (h : Canonical m e) : m < 2 ^ 53 ∧ -1074 ≤ e := by
  rcases h with h | h <;> omega

/-- What a finite number is made of. -/
def partsOf? : UnpackedFloat → Option Parts
  | .zero s => some ⟨s == .negative, 0, -1074⟩
  | .finite s m e _ => some ⟨s == .negative, m, e⟩
  | _ => none

/-- The parts of a double, read from its bits, are those of the number it stands for. -/
theorem parts?_eq (x : Float) : parts? x = partsOf? x.toModel.unpack := by
  let b : BitVec 64 := x.toBits.toBitVec
  have hfield : ((x.toBits >>> 52) &&& 0x7ff).toNat = (@unpackExponent .binary64 b).toNat := by
    rw [toNat_unpackExponent, UInt64.toNat_and, UInt64.toNat_shiftRight]
    show b.toNat >>> 52 &&& (2 ^ 11 - 1) = _
    rw [Nat.and_two_pow_sub_one_eq_mod, Nat.shiftRight_eq_div_pow]
  have hfraction : (x.toBits &&& 0xfffffffffffff).toNat = (@unpackMantissa .binary64 b).toNat := by
    rw [toNat_unpackMantissa, UInt64.toNat_and]
    show b.toNat &&& (2 ^ 52 - 1) = _
    rw [Nat.and_two_pow_sub_one_eq_mod]
  have hsign : isNegative x = (Sign.ofBitVec (@unpackSign .binary64 b) == .negative) := by
    rw [isNegative, Bool.eq_iff_iff, beq_iff_eq, ← UInt64.toNat_inj, UInt64.toNat_shiftRight]
    show b.toNat >>> 63 = 1 ↔ _
    rw [Nat.shiftRight_eq_div_pow, ← toNat_unpackSign]
    generalize @unpackSign .binary64 b = s
    revert s
    decide
  have hones : (@unpackExponent .binary64 b).toNat = 0x7ff ↔ @unpackExponent .binary64 b = -1#11 :=
    ⟨fun h => BitVec.eq_of_toNat_eq h, fun h => h ▸ rfl⟩
  have hzero : (@unpackExponent .binary64 b).toNat = 0 ↔ @unpackExponent .binary64 b = 0#11 :=
    ⟨fun h => BitVec.eq_of_toNat_eq h, fun h => h ▸ rfl⟩
  show parts? x = partsOf? (UnpackedFloat.unpack .binary64 b)
  rw [parts?, hfield, hfraction, hsign, UnpackedFloat.unpack]
  dsimp only
  by_cases hexp : @unpackExponent .binary64 b = -1#11
  · rw [if_pos (hones.2 hexp), if_pos hexp]
    split <;> rfl
  · rw [if_neg (mt hones.1 hexp), if_neg hexp]
    by_cases hsub : @unpackExponent .binary64 b = 0#11
    · rw [if_pos (hzero.2 hsub), if_pos hsub]
      split
      · next hm =>
        rw [hm]
        rfl
      · rw [hsub]
        rfl
    · rw [if_neg (mt hzero.1 hsub), if_neg hsub, partsOf?, toNat_append_leading, Nat.add_comm]
      rfl

/-- A whole number times a power of two, either way. -/
theorem Parts.whole?_eq_some {p : Parts} {k : Nat} :
    p.whole? = some k ↔ p.mantissa * 2 ^ p.exponent.toNat = k * 2 ^ (-p.exponent).toNat := by
  rw [Parts.whole?]
  split
  · next e he =>
    rw [he]
    show some (p.mantissa * 2 ^ e) = some k ↔ p.mantissa * 2 ^ e = k * 2 ^ (-(e : Int)).toNat
    rw [show (-(e : Int)).toNat = 0 by omega, Nat.pow_zero, Nat.mul_one, Option.some.injEq]
  · next e he =>
    rw [he]
    show (if p.mantissa % 2 ^ (e + 1) = 0 then some (p.mantissa / 2 ^ (e + 1)) else none) = some k ↔
      p.mantissa * 2 ^ 0 = k * 2 ^ (e + 1)
    have hpow : 0 < 2 ^ (e + 1) := Nat.two_pow_pos _
    rw [Nat.pow_zero, Nat.mul_one]
    constructor
    · intro h
      split at h
      · next hmod =>
        cases h
        exact (Nat.div_mul_cancel (Nat.dvd_of_mod_eq_zero hmod)).symm
      · cases h
    · intro h
      rw [h, if_pos (Nat.mul_mod_left ..), Nat.mul_div_cancel _ hpow]

end

/-! ## Whole numbers -/

theorem log2_mul_two_pow {n : Nat} (h : 0 < n) (k : Nat) : (n * 2 ^ k).log2 = n.log2 + k := by
  obtain ⟨hle, hlt⟩ := (Nat.log2_eq_iff (Nat.ne_of_gt h)).1 rfl
  have hpow : 0 < 2 ^ k := Nat.two_pow_pos k
  refine (Nat.log2_eq_iff (Nat.ne_of_gt (Nat.mul_pos h hpow))).2 ⟨?_, ?_⟩
  · rw [Nat.pow_add]
    exact Nat.mul_le_mul_right _ hle
  · rw [Nat.add_right_comm, Nat.pow_add]
    exact Nat.mul_lt_mul_of_pos_right hlt hpow

/-- The mantissa of a whole number: shifted until it has fifty-three bits. -/
def wholeMantissa (n : Nat) : Nat :=
  n * 2 ^ (52 - n.log2)

section

variable {n j : Nat} {e : Int}

theorem wholeMantissa_pos (h : 0 < n) : 0 < wholeMantissa n :=
  Nat.mul_pos h (Nat.two_pow_pos _)

theorem log2_lt_of_lt (h : 0 < n) (hn : n < 2 ^ 53) : n.log2 ≤ 52 :=
  Nat.le_of_lt_succ ((Nat.log2_lt (Nat.ne_of_gt h)).2 hn)

theorem log2_wholeMantissa (h : 0 < n) (hn : n < 2 ^ 53) : (wholeMantissa n).log2 = 52 := by
  rw [wholeMantissa, log2_mul_two_pow h, Nat.add_sub_cancel' (log2_lt_of_lt h hn)]

theorem wholeMantissa_bounds (h : 0 < n) (hn : n < 2 ^ 53) :
    2 ^ 52 ≤ wholeMantissa n ∧ wholeMantissa n < 2 ^ 53 :=
  (Nat.log2_eq_iff (Nat.ne_of_gt (wholeMantissa_pos h))).1 (log2_wholeMantissa h hn)

/-- A whole number before it is packed. -/
def whole (n : Nat) (h : 0 < n) : UnpackedFloat :=
  .finite .positive (wholeMantissa n) ((n.log2 : Int) - 52) (wholeMantissa_pos h)

theorem shiftRight_exact (m k : Nat) :
    (⟨m * 2 ^ k, false, false⟩ : ExtendedMantissa) >>> k = ⟨m, false, false⟩ := by
  induction k generalizing m with
  | zero => simp [HShiftRight.hShiftRight, Nat.repeat]
  | succ k ih =>
    show ExtendedMantissa.shiftRightOne
      ((⟨m * 2 ^ (k + 1), false, false⟩ : ExtendedMantissa) >>> k) = _
    rw [Nat.pow_succ', ← Nat.mul_assoc, ih]
    simp [ExtendedMantissa.shiftRightOne]

theorem targetExponent_whole (h : 0 < n) (hn : n < 2 ^ 53) (he : e = (n.log2 : Int) - 52 - j) :
    Format.binary64.targetExponent (totalExponent (wholeMantissa n * 2 ^ j) e) =
      (n.log2 : Int) - 52 := by
  rw [totalExponent, log2_mul_two_pow (wholeMantissa_pos h), log2_wholeMantissa h hn]
  simp only [Format.targetExponent, Format.mantissaBits, Format.minExponent]
  omega

theorem shiftToTargetExponent_whole (h : 0 < n) (hn : n < 2 ^ 53) (he : e = (n.log2 : Int) - 52 - j) :
    shiftToTargetExponent .binary64 (wholeMantissa n * 2 ^ j) e .exact =
      (⟨wholeMantissa n, false, false⟩, (n.log2 : Int) - 52) := by
  have hshift : ((n.log2 : Int) - 52 - e).toNat = j := by omega
  rw [shiftToTargetExponent, targetExponent_whole h hn he, shiftToExponent, hshift]
  refine Prod.ext (shiftRight_exact _ _) ?_
  show e + (j : Int) = _
  omega

/-- A whole number needs no rounding. -/
theorem roundWithAccuracy_whole (h : 0 < n) (hn : n < 2 ^ 53) (he : e = (n.log2 : Int) - 52 - j) :
    roundWithAccuracy .binary64 .positive (wholeMantissa n * 2 ^ j) e .exact = whole n h := by
  have hsecond : shiftToTargetExponent .binary64 (wholeMantissa n) ((n.log2 : Int) - 52) .exact =
      (⟨wholeMantissa n, false, false⟩, (n.log2 : Int) - 52) := by
    have hzero := shiftToTargetExponent_whole (j := 0) h hn (Int.sub_zero _).symm
    rwa [Nat.pow_zero, Nat.mul_one] at hzero
  have hrounded : (⟨wholeMantissa n, false, false⟩ : ExtendedMantissa).roundedMantissa =
      wholeMantissa n := rfl
  rw [roundWithAccuracy, shiftToTargetExponent_whole h hn he]
  dsimp only
  rw [hrounded, hsecond]
  exact dif_neg (Nat.ne_of_gt (wholeMantissa_pos h))

/-- Rounding may also have to lower the exponent first. -/
theorem round_whole (h : 0 < n) (hn : n < 2 ^ 53) : round .binary64 .positive n 0 = whole n h := by
  have hlog := log2_lt_of_lt h hn
  have htarget : Format.binary64.targetExponent (totalExponent n 0) = (n.log2 : Int) - 52 := by
    simp only [totalExponent, Format.targetExponent, Format.mantissaBits, Format.minExponent]
    omega
  have hshift : ((0 : Int) - ((n.log2 : Int) - 52)).toNat = 52 - n.log2 := by omega
  have hround := roundWithAccuracy_whole (j := 0) h hn (Int.sub_zero _).symm
  rw [Nat.pow_zero, Nat.mul_one] at hround
  rw [UnpackedFloat.round, htarget, decreaseExponent, hshift, Nat.shiftLeft_eq]
  show roundWithAccuracy .binary64 .positive (wholeMantissa n) (0 - ((52 - n.log2 : Nat) : Int)) _ = _
  rw [show (0 : Int) - ((52 - n.log2 : Nat) : Int) = (n.log2 : Int) - 52 by omega]
  exact hround

theorem unpack_pack_whole (h : 0 < n) (hn : n < 2 ^ 53) :
    (Float.Model.pack (whole n h)).unpack = whole n h := by
  have hlog := log2_lt_of_lt h hn
  obtain ⟨hle, hlt⟩ := wholeMantissa_bounds h hn
  exact unpack_pack .positive _ (.inr ⟨hle, hlt, by omega, by omega⟩)

theorem normalize_whole (h : 0 < n) (hn : n < 2 ^ 53) :
    normalize .binary64 n 0 .positive = whole n h := by
  have hcompare : compare (n : Int) 0 = .gt := Int.compare_eq_gt.2 (by omega)
  rw [UnpackedFloat.normalize, hcompare]
  exact round_whole h hn

theorem toModel_ofNat (h : 0 < n) (hn : n < 2 ^ 53) :
    (Float.ofNat n).toModel = Float.Model.pack (whole n h) := by
  have hone : (Float.ofBits 0x3FF0000000000000).toModel.unpack = whole 1 (by decide) := by
    rfl
  have hword : n.toUInt64.toNat = n := by
    rw [Nat.toUInt64, UInt64.toNat_ofNat']
    omega
  have hfloat : n.toUInt64.toFloat.toModel = Float.Model.pack (whole n h) := by
    show Float.Model.pack (normalize .binary64 (n.toUInt64.toNat : Int) 0 .positive) = _
    rw [hword, normalize_whole h hn]
  have hmul : Float.ofNat n = n.toUInt64.toFloat * Float.ofBits 0x3FF0000000000000 := by
    show Float.ofScientific n false 0 = _
    rw [Float.ofScientific, dif_pos ⟨hn, by decide⟩]
    rfl
  rw [hmul]
  show Float.Model.pack (mul .binary64 n.toUInt64.toFloat.toModel.unpack
    (Float.ofBits 0x3FF0000000000000).toModel.unpack) = _
  rw [hfloat, hone, unpack_pack_whole h hn]
  exact congrArg Float.Model.pack
    (roundWithAccuracy_whole (j := 52) h hn (by rw [show Nat.log2 1 = 0 from rfl]; omega))

theorem unpack_ofNat (h : 0 < n) (hn : n < 2 ^ 53) : (Float.ofNat n).toModel.unpack = whole n h := by
  rw [toModel_ofNat h hn, unpack_pack_whole h hn]

theorem wholeMantissa_shift (h : 0 < n) (hn : n < 2 ^ 53) :
    wholeMantissa n * 2 ^ n.log2 = n * 2 ^ 52 := by
  rw [wholeMantissa, Nat.mul_assoc, ← Nat.pow_add, Nat.sub_add_cancel (log2_lt_of_lt h hn)]

theorem decreaseExponent_whole (h : 0 < n) (hn : n < 2 ^ 53) :
    decreaseExponent (wholeMantissa n) ((n.log2 : Int) - 52) (-52) = (n * 2 ^ 52, -52) := by
  have hshift : ((n.log2 : Int) - 52 - -52).toNat = n.log2 := by omega
  rw [decreaseExponent, hshift, Nat.shiftLeft_eq, wholeMantissa_shift h hn]
  exact Prod.ext rfl (by dsimp only; omega)

theorem min_log2_one (n : Nat) : min ((n.log2 : Int) - 52) ((Nat.log2 1 : Int) - 52) = -52 := by
  rw [show Nat.log2 1 = 0 from rfl]
  omega

/-- One is subtracted at the exponent of one. -/
theorem sub_whole_one (s : Sign) (h : 0 < n) (hn : n < 2 ^ 53) :
    UnpackedFloat.sub .binary64 (.finite s (wholeMantissa n) ((n.log2 : Int) - 52)
        (wholeMantissa_pos h)) (whole 1 (by decide)) =
      normalize .binary64 (s.apply (n * 2 ^ 52 : Nat) - (2 ^ 52 : Nat)) (-52) .positive := by
  rw [whole, UnpackedFloat.sub]
  dsimp only
  rw [min_log2_one, decreaseExponent_whole h hn, decreaseExponent_whole (by decide) (by decide)]
  rfl

/-- The result of counting down may have to be shifted. -/
theorem normalize_shifted (h : 0 < n) (hn : n < 2 ^ 53) :
    UnpackedFloat.normalize .binary64 ((n * 2 ^ 52 : Nat) : Int) (-52) .positive = whole n h := by
  have hlog := log2_lt_of_lt h hn
  have hcompare : compare ((n * 2 ^ 52 : Nat) : Int) 0 = .gt := Int.compare_eq_gt.2 (by omega)
  have htarget : Format.binary64.targetExponent (totalExponent (n * 2 ^ 52) (-52)) =
      (n.log2 : Int) - 52 := by
    rw [← wholeMantissa_shift h hn]
    exact targetExponent_whole h hn (by omega)
  have hshift : ((-52 : Int) - ((n.log2 : Int) - 52)).toNat = 0 := by omega
  rw [UnpackedFloat.normalize, hcompare]
  dsimp only
  rw [Int.toNat_natCast, UnpackedFloat.round, htarget, decreaseExponent, hshift]
  dsimp only
  rw [Nat.shiftLeft_zero, ← wholeMantissa_shift h hn]
  exact roundWithAccuracy_whole h hn (by omega)

/-- Counting down is exact. -/
theorem ofNat_sub_one (hn : n + 1 < 2 ^ 53) : Float.ofNat (n + 1) - 1.0 = Float.ofNat n := by
  have hone : (1.0 : Float).toModel.unpack = whole 1 (by decide) := rfl
  show Float.ofModel (Float.Model.pack (UnpackedFloat.sub .binary64
    (Float.ofNat (n + 1)).toModel.unpack (1.0 : Float).toModel.unpack)) = _
  have hless : Sign.positive.apply ((n + 1) * 2 ^ 52 : Nat) - (2 ^ 52 : Nat) =
      ((n * 2 ^ 52 : Nat) : Int) := by
    show (((n + 1) * 2 ^ 52 : Nat) : Int) - _ = _
    omega
  rw [unpack_ofNat n.succ_pos hn, hone, whole, sub_whole_one _ n.succ_pos hn, hless]
  cases Nat.eq_zero_or_pos n with
  | inl hzero =>
    subst hzero
    rfl
  | inr hpos =>
    have hlt : n < 2 ^ 53 := Nat.lt_of_succ_lt hn
    rw [normalize_shifted hpos hlt, ← toModel_ofNat hpos hlt]

theorem zero_lt_ofNat (h : 0 < n) (hn : n < 2 ^ 53) : (0.0 : Float) < Float.ofNat n := by
  have hzero : (0.0 : Float).toModel.unpack = .zero .positive := rfl
  have hlt : (0.0 : Float).toModel < (Float.ofNat n).toModel := by
    show ((0.0 : Float).toModel.unpack.lt (Float.ofNat n).toModel.unpack) = true
    rw [hzero, unpack_ofNat h hn]
    rfl
  exact decide_eq_true hlt

theorem whole?_wholeMantissa (negative : Bool) (h : 0 < n) (hn : n < 2 ^ 53) :
    Parts.whole? ⟨negative, wholeMantissa n, (n.log2 : Int) - 52⟩ = some n := by
  have hlog := log2_lt_of_lt h hn
  refine Parts.whole?_eq_some.2 ?_
  dsimp only
  rw [show ((n.log2 : Int) - 52).toNat = 0 by omega,
    show (-((n.log2 : Int) - 52)).toNat = 52 - n.log2 by omega, Nat.pow_zero, Nat.mul_one,
    wholeMantissa]

/-- A whole number can be read back. -/
theorem toNat?_ofNat (hn : n < 2 ^ 53) : toNat? (Float.ofNat n) = some n := by
  cases Nat.eq_zero_or_pos n with
  | inl hzero =>
    subst hzero
    decide +kernel
  | inr hpos =>
    rw [toNat?, parts?_eq, unpack_ofNat hpos hn]
    exact whole?_wholeMantissa false hpos hn

end

end Behavior.Binary64
