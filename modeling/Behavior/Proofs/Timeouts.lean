import Behavior.Proofs.SignedNumbers
import Behavior.Typed.Check

/-!
Timeouts are in range. A number of seconds that is not negative has a product with a positive number
that is not negative either, however it is rounded, and rounding a number to the nearest natural
number does not take it past a natural number.
-/

namespace Behavior.Binary64

open Float.Model
open Float.Model.UnpackedFloat

variable {p : Parts} {m n : Nat} {e : Int}

/-! ## Signs of products -/

/-- The sign of a finite number is that of its word. -/
theorem negative_of_partsOf? {b : BitVec 64}
    (h : partsOf? (UnpackedFloat.unpack .binary64 b) = some p) :
    p.negative = (Sign.ofBitVec (@unpackSign .binary64 b) == .negative) := by
  rw [UnpackedFloat.unpack] at h
  dsimp only at h
  split at h
  · split at h <;> cases h
  · split at h
    · split at h <;> cases h <;> rfl
    · cases h
      rfl

/-- Packing keeps the sign. -/
theorem negative_of_pack {hm : 0 < m} (h : partsOf? (UnpackedFloat.unpack .binary64
      (UnpackedFloat.pack .binary64 (.finite .positive m e hm))) = some p) :
    p.negative = false := by
  rw [UnpackedFloat.pack] at h
  dsimp only at h
  split at h
  · cases h
  · split at h
    · rw [negative_of_partsOf? h, ofBitVec_unpackSign]
      rfl
    · rw [negative_of_partsOf? h, ofBitVec_unpackSign]
      rfl

theorem mantissa_of_pack_zero {s : Sign}
    (h : partsOf? (UnpackedFloat.unpack .binary64 (UnpackedFloat.pack .binary64 (.zero s))) =
      some p) : p.mantissa = 0 := by
  cases s <;> exact (congrArg Parts.mantissa (Option.some.inj h)).symm

/-- A number that is not negative, times a positive one, is not negative. -/
theorem mul_not_negative {x y : Float} (hx : 0.0 ≤ x) {hm : 0 < m}
    (hy : y.toModel.unpack = .finite .positive m e hm) (hp : parts? (x * y) = some p) :
    p.negative = false ∨ p.mantissa = 0 := by
  obtain ⟨q, hq, hle⟩ := place?_of_nonneg hx
  rw [parts?_eq] at hp
  change partsOf? (UnpackedFloat.unpack .binary64 (UnpackedFloat.pack .binary64
    (UnpackedFloat.mul .binary64 x.toModel.unpack y.toModel.unpack))) = some p at hp
  rw [hy] at hp
  obtain ⟨s, hx⟩ | hx | ⟨m', e', hm', hx⟩ := finite_of_nonneg hq hle
  · rw [hx] at hp
    exact .inr (mantissa_of_pack_zero hp)
  · rw [hx] at hp
    change partsOf? (UnpackedFloat.unpack .binary64 (UnpackedFloat.pack .binary64
      (.infinity .positive))) = some p at hp
    cases hp
  · rw [hx] at hp
    change partsOf? (UnpackedFloat.unpack .binary64 (UnpackedFloat.pack .binary64
      (roundWithAccuracy .binary64 .positive (m' * m) (e' + e) .exact))) = some p at hp
    rw [roundWithAccuracy] at hp
    dsimp only at hp
    split at hp
    · exact .inr (mantissa_of_pack_zero hp)
    · exact .inl (negative_of_pack hp)

/-! ## Rounding to natural numbers -/

theorem Parts.roundHalfUp_le (h : p.mantissa * 2 ^ p.exponent.toNat ≤ n * 2 ^ (-p.exponent).toNat) :
    p.roundHalfUp ≤ n := by
  rw [Parts.roundHalfUp]
  split
  · next e he =>
    rw [he] at h
    simpa using h
  · next e he =>
    rw [he] at h
    have h : p.mantissa * 2 ^ 0 ≤ n * 2 ^ (e + 1) := h
    have hhalf : 2 ^ (e + 1) = 2 ^ e + 2 ^ e := by rw [Nat.pow_succ, Nat.mul_two]
    show (p.mantissa + 2 ^ e) / 2 ^ (e + 1) ≤ n
    refine Nat.le_of_lt_succ ((Nat.div_lt_iff_lt_mul (Nat.two_pow_pos _)).2 ?_)
    rw [Nat.succ_mul]
    have hpow : 0 < 2 ^ e := Nat.two_pow_pos _
    omega

/-- What comes before a whole number in the order of exponents and mantissas is no greater. -/
theorem scaled_le (hpos : 0 < n) (hn : n < 2 ^ 53) (hm : m < 2 ^ 53)
    (h : e < (n.log2 : Int) - 52 ∨ e = (n.log2 : Int) - 52 ∧ m ≤ wholeMantissa n) :
    m * 2 ^ e.toNat ≤ n * 2 ^ (-e).toNat := by
  have hlog := log2_lt_of_lt hpos hn
  rcases h with hlt | ⟨rfl, hle⟩
  · -- a smaller exponent makes up for any mantissa
    have hlower : 2 ^ n.log2 ≤ n := Nat.log2_self_le (Nat.ne_of_gt hpos)
    rw [show e.toNat = 0 by omega, Nat.pow_zero, Nat.mul_one]
    calc m ≤ 2 ^ 53 := Nat.le_of_lt hm
      _ ≤ 2 ^ (n.log2 + (-e).toNat) := Nat.pow_le_pow_right (by decide) (by omega)
      _ = 2 ^ n.log2 * 2 ^ (-e).toNat := Nat.pow_add ..
      _ ≤ n * 2 ^ (-e).toNat := Nat.mul_le_mul_right _ hlower
  · rw [show ((n.log2 : Int) - 52).toNat = 0 by omega, Nat.pow_zero, Nat.mul_one,
      show (-((n.log2 : Int) - 52)).toNat = 52 - n.log2 by omega]
    exact hle

/-- A number that is at most a whole number is rounded to that or less. -/
theorem roundHalfUp_le {x : Float} (hpos : 0 < n) (hn : n < 2 ^ 53) (hle : x ≤ Float.ofNat n)
    (hp : parts? x = some p) (hsign : p.negative = false ∨ p.mantissa = 0) : p.roundHalfUp ≤ n := by
  obtain ⟨q, hq, r, hr, hqr⟩ := le_iff.1 hle
  rw [place?, unpack_ofNat hpos hn] at hr
  cases hr
  rw [place?] at hq
  rw [parts?_eq] at hp
  refine Parts.roundHalfUp_le ?_
  cases hx : x.toModel.unpack with
  | zero s =>
    rw [hx] at hp
    cases hp
    rw [Nat.zero_mul]
    exact Nat.zero_le _
  | infinity s | notANumber =>
    rw [hx] at hp
    cases hp
  | finite s m e hm =>
    rw [hx] at hp hq
    cases hp
    cases s with
    | negative =>
      rcases hsign with h | h
      · cases h
      · exact absurd h (Nat.ne_of_gt hm)
    | positive =>
      cases hq
      refine scaled_le hpos hn (canonical_unpack hx).bounds.1 ?_
      rcases Prod.Lex.toLex_le_toLex.1 hqr with hclass | ⟨-, hrest⟩
      · exact absurd hclass (lt_irrefl _)
      · rcases Prod.Lex.toLex_le_toLex.1 hrest with hlt | ⟨heq, hmantissa⟩
        · exact .inl hlt
        · exact .inr ⟨heq, Int.ofNat_le.1 hmantissa⟩

end Behavior.Binary64

namespace Behavior.Typed

/-- A timeout in milliseconds fits four bytes. -/
theorem timeoutMs?_le {seconds : Float} {timeout : Nat} (h : timeoutMs? seconds = some timeout) :
    timeout ≤ maxTimeoutMs := by
  unfold timeoutMs? at h
  dsimp only at h
  split at h
  · next hrange =>
    simp only [Bool.and_eq_true, decide_eq_true_eq] at hrange
    obtain ⟨⟨-, hnonneg⟩, hle⟩ := hrange
    obtain ⟨p, hp, rfl⟩ := Option.map_eq_some_iff.1 h
    have hthousand : (1000.0 : Float).toModel.unpack = Binary64.whole 1000 (by decide) := rfl
    exact Binary64.roundHalfUp_le (by decide) (by decide) hle hp
      (Binary64.mul_not_negative hnonneg hthousand hp)
  · cases h

end Behavior.Typed
