import Behavior.Model
import Mathlib

/-!
Doubles and code words as bits. A double is determined by its bits, so a constant has the value it
was made from; a word gives back its opcode and its operand.
-/

namespace Behavior

/-! ## Doubles -/

namespace Binary64

open Float.Model
open Float.Model.UnpackedFloat (Sign packComponents unpackSign unpackExponent unpackMantissa)

theorem toBitVec_ofBitVec (s : BitVec 1) : (Sign.ofBitVec s).toBitVec = s := by
  revert s
  decide

theorem toNat_unpackSign (b : BitVec 64) :
    (@unpackSign .binary64 b).toNat = b.toNat / 2 ^ 63 := by
  have := b.isLt
  simp only [unpackSign, BitVec.toNat_cast, BitVec.extractLsb, BitVec.extractLsb',
    BitVec.toNat_ofNat, Nat.shiftRight_eq_div_pow]
  show b.toNat / 2 ^ 63 % 2 ^ 1 = _
  omega

theorem toNat_unpackExponent (b : BitVec 64) :
    (@unpackExponent .binary64 b).toNat = b.toNat / 2 ^ 52 % 2 ^ 11 := by
  simp only [unpackExponent, BitVec.toNat_cast, BitVec.extractLsb, BitVec.extractLsb',
    BitVec.toNat_ofNat, Nat.shiftRight_eq_div_pow]

theorem toNat_unpackMantissa (b : BitVec 64) :
    (@unpackMantissa .binary64 b).toNat = b.toNat % 2 ^ 52 := by
  simp only [unpackMantissa, BitVec.toNat_cast, BitVec.extractLsb, BitVec.extractLsb',
    BitVec.toNat_ofNat, Nat.shiftRight_eq_div_pow]
  show b.toNat / 2 ^ 0 % 2 ^ 52 = _
  omega

theorem toNat_packComponents (s : Sign) (e : BitVec 11) (m : BitVec 52) :
    (packComponents .binary64 s e m).toNat =
      s.toBitVec.toNat * 2 ^ 63 + e.toNat * 2 ^ 52 + m.toNat := by
  have he := e.isLt
  have hm := m.isLt
  rw [packComponents]
  simp only [BitVec.toNat_append]
  rw [← Nat.shiftLeft_add_eq_or_of_lt he, ← Nat.shiftLeft_add_eq_or_of_lt hm]
  simp only [Nat.shiftLeft_eq]
  omega

/-- Taking a word apart and putting it together again. -/
theorem packComponents_parts (b : BitVec 64) :
    packComponents .binary64 (Sign.ofBitVec (@unpackSign .binary64 b))
      (@unpackExponent .binary64 b) (@unpackMantissa .binary64 b) = b := by
  apply BitVec.eq_of_toNat_eq
  rw [toNat_packComponents, toBitVec_ofBitVec, toNat_unpackSign, toNat_unpackExponent,
    toNat_unpackMantissa]
  have := b.isLt
  omega

/-- The leading bit, which a normal number does not store. -/
theorem toNat_append_leading (m : BitVec 52) : (1#1 ++ m).toNat = 2 ^ 52 + m.toNat := by
  rw [BitVec.toNat_append, ← Nat.shiftLeft_add_eq_or_of_lt m.isLt]
  rfl

theorem pack_subnormal (s : Sign) {m : Nat} {e : Int} (hm : 0 < m) (hlt : m < 2 ^ 52)
    (he : e = -1074) :
    UnpackedFloat.pack .binary64 (.finite s m e hm) =
      packComponents .binary64 s 0#11 (BitVec.ofNat 52 m) := by
  have hlog : m.log2 < 52 := (Nat.log2_lt (Nat.ne_of_gt hm)).2 hlt
  subst he
  rw [UnpackedFloat.pack]
  dsimp only
  rw [if_neg (by decide), if_neg]
  show ¬ m.log2 + 1 = 53
  omega

theorem pack_normal (s : Sign) {m e : Nat} {e' : Int} (hm : 0 < m) (hle : 2 ^ 52 ≤ m)
    (hlt : m < 2 ^ 53) (he : e + 1 < 2 ^ 11) (he' : e' = (e : Int) - 1075) :
    UnpackedFloat.pack .binary64 (.finite s m e' hm) =
      packComponents .binary64 s (BitVec.ofNat 11 e) (BitVec.ofNat 52 m) := by
  have hlog : m.log2 = 52 := (Nat.log2_eq_iff (Nat.ne_of_gt hm)).2 ⟨hle, hlt⟩
  have hexp : (e' + ((Format.exponentBias .binary64 : Nat) : Int) + (52 : Nat)).toNat = e := by
    have : Format.exponentBias .binary64 = 1023 := rfl
    omega
  rw [UnpackedFloat.pack]
  dsimp only
  rw [hexp, if_neg (Nat.not_le.2 he), if_pos]
  show m.log2 + 1 = 53
  omega

/-- A word with the one NaN survives being read as a number. -/
theorem pack_unpack {b : BitVec 64} (hb : Format.binary64.Valid b) :
    UnpackedFloat.pack .binary64 (UnpackedFloat.unpack .binary64 b) = b := by
  have hparts := packComponents_parts b
  have hm_lt := (@unpackMantissa .binary64 b).isLt
  have he_lt := (@unpackExponent .binary64 b).isLt
  unfold UnpackedFloat.unpack
  dsimp only
  split
  · next he =>
    split
    · next hm =>
      rw [he, hm] at hparts
      exact hparts
    · next hm => exact (hb.eq_packedNaN he hm).symm
  · next he =>
    split
    · next hz =>
      split
      · next hm =>
        rw [hz, hm] at hparts
        exact hparts
      · next hm =>
        rw [hz] at hparts ⊢
        refine (pack_subnormal _ _ hm_lt rfl).trans ?_
        rw [BitVec.ofNat_toNat, BitVec.setWidth_eq]
        exact hparts
    · next hz =>
      have hm := toNat_append_leading (@unpackMantissa .binary64 b)
      have he1 : (@unpackExponent .binary64 b).toNat + 1 < 2 ^ 11 := by
        have : (@unpackExponent .binary64 b).toNat ≠ 2 ^ 11 - 1 :=
          fun h => he (BitVec.eq_of_toNat_eq h)
        dsimp only at he_lt
        omega
      dsimp only at hm_lt
      refine (pack_normal _ _ (by rw [hm]; omega) (by rw [hm]; omega) he1 rfl).trans ?_
      rw [hm, BitVec.ofNat_toNat, BitVec.setWidth_eq]
      have hlow : BitVec.ofNat 52 (2 ^ 52 + (@unpackMantissa .binary64 b).toNat) =
          @unpackMantissa .binary64 b := by
        apply BitVec.eq_of_toNat_eq
        rw [BitVec.toNat_ofNat]
        dsimp only
        omega
      rw [hlow]
      exact hparts

theorem ofBits_toBits (x : Float) : Float.ofBits x.toBits = x := by
  obtain ⟨⟨bits, hvalid⟩⟩ := x
  show Float.ofModel (Float.Model.mk
    ⟨UnpackedFloat.pack .binary64 (UnpackedFloat.unpack .binary64 bits.toBitVec)⟩ _) = _
  simp only [pack_unpack hvalid]

theorem toBits_inj {x y : Float} (h : x.toBits = y.toBits) : x = y := by
  rw [← ofBits_toBits x, h, ofBits_toBits]

end Binary64

theorem Constant.value_ofFloat (x : Float) : (ofFloat x).value = x :=
  Binary64.ofBits_toBits x

/-! ## Words -/

namespace Word

variable {operand : Nat}

theorem toNat_encode (op : Opcode) (h : operand ≤ maxOperand) :
    (encode op operand).toNat = op.byte.toNat * 2 ^ 24 + operand := by
  have hop : operand < 2 ^ 24 := Nat.lt_succ_of_le h
  have hb : op.byte.toNat < 2 ^ 8 := op.byte.toNat_lt
  have hlow : (operand.toUInt32 &&& 0xffffff).toNat = operand := by
    rw [UInt32.toNat_and]
    show operand % 2 ^ 32 &&& (2 ^ 24 - 1) = operand
    rw [Nat.and_two_pow_sub_one_eq_mod]
    omega
  have hhigh : (op.byte.toUInt32 <<< 24).toNat = op.byte.toNat <<< 24 := by
    rw [UInt32.toNat_shiftLeft]
    show op.byte.toNat <<< 24 % 2 ^ 32 = op.byte.toNat <<< 24
    rw [Nat.shiftLeft_eq]
    omega
  rw [encode, UInt32.toNat_or, hlow, hhigh, ← Nat.shiftLeft_add_eq_or_of_lt hop, Nat.shiftLeft_eq]

theorem opcode?_encode (op : Opcode) (h : operand ≤ maxOperand) :
    opcode? (encode op operand) = some op := by
  have hb : op.byte.toNat < 2 ^ 8 := op.byte.toNat_lt
  have hop : operand < 2 ^ 24 := Nat.lt_succ_of_le h
  have hbyte : byte (encode op operand) = op.byte := by
    apply UInt8.toNat_inj.1
    rw [byte, UInt32.toNat_toUInt8, UInt32.toNat_shiftRight, toNat_encode op h]
    show (op.byte.toNat * 2 ^ 24 + operand) >>> 24 % 2 ^ 8 = op.byte.toNat
    rw [Nat.shiftRight_eq_div_pow]
    omega
  rw [opcode?, hbyte, Opcode.ofByte?_byte]

theorem operand_encode (op : Opcode) (h : operand ≤ maxOperand) :
    Word.operand (encode op operand) = operand := by
  have hop : operand < 2 ^ 24 := Nat.lt_succ_of_le h
  rw [Word.operand, UInt32.toNat_and, toNat_encode op h]
  show (op.byte.toNat * 2 ^ 24 + operand) &&& (2 ^ 24 - 1) = operand
  rw [Nat.and_two_pow_sub_one_eq_mod]
  omega

end Word

end Behavior
