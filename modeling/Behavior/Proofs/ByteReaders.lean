import Behavior.Model.Decode
import Behavior.Model.Encode
import Behavior.Proofs.Except
import Mathlib

/-!
Readers undo writers: read from the front of some bytes, a reader gives back what the writer has
put there, and the bytes after it.
-/

namespace Behavior

namespace LittleEndian

/-- The lower byte of a word. -/
theorem getLsbD_lowByte {w : Nat} (n : BitVec w) (i : Nat) :
    ((n.setWidth 8).setWidth w).getLsbD i = (decide (i < 8) && n.getLsbD i) := by
  rw [BitVec.getLsbD_setWidth, BitVec.getLsbD_setWidth]
  cases hbit : n.getLsbD i with
  | false => simp
  | true => simp [BitVec.lt_of_getLsbD hbit]

/-- Another byte of a word, moved down and back. -/
theorem getLsbD_byte {w : Nat} (n : BitVec w) (k i : Nat) :
    (((n >>> k).setWidth 8).setWidth w <<< k).getLsbD i =
      (decide (k ≤ i ∧ i < k + 8) && n.getLsbD i) := by
  rw [BitVec.getLsbD_shiftLeft, getLsbD_lowByte, BitVec.getLsbD_ushiftRight]
  by_cases hle : k ≤ i
  · rw [Nat.add_sub_cancel' hle]
    cases hbit : n.getLsbD i with
    | false => simp
    | true =>
      have := BitVec.lt_of_getLsbD hbit
      simp [this, hle, Nat.not_lt.2 hle]
      omega
  · simp [hle, Nat.lt_of_not_le hle]

theorem decode16?_encode16 (n : UInt16) (rest : List UInt8) :
    decode16? (encode16 n ++ rest) = some (n, rest) := by
  refine congrArg (fun n => some (n, rest)) (UInt16.toBitVec_inj.1 ?_)
  apply BitVec.eq_of_getLsbD_eq
  intro i hi
  let byte (k : Nat) : BitVec 16 := ((n.toBitVec >>> k).setWidth 8).setWidth 16 <<< k
  show ((n.toBitVec.setWidth 8).setWidth 16 ||| byte 8).getLsbD i = n.toBitVec.getLsbD i
  simp only [byte, BitVec.getLsbD_or, getLsbD_lowByte, getLsbD_byte]
  cases n.toBitVec.getLsbD i with
  | false => simp
  | true => simp; omega

theorem join32 (n : UInt32) :
    n.toUInt8.toUInt32 ||| ((n >>> 8).toUInt8.toUInt32 <<< 8) |||
      ((n >>> 16).toUInt8.toUInt32 <<< 16) ||| ((n >>> 24).toUInt8.toUInt32 <<< 24) = n := by
  apply UInt32.toBitVec_inj.1
  apply BitVec.eq_of_getLsbD_eq
  intro i hi
  let byte (k : Nat) : BitVec 32 := ((n.toBitVec >>> k).setWidth 8).setWidth 32 <<< k
  show ((n.toBitVec.setWidth 8).setWidth 32 ||| byte 8 ||| byte 16 ||| byte 24).getLsbD i =
    n.toBitVec.getLsbD i
  simp only [byte, BitVec.getLsbD_or, getLsbD_lowByte, getLsbD_byte]
  cases n.toBitVec.getLsbD i with
  | false => simp
  | true => simp; omega

theorem decode32?_encode32 (n : UInt32) (rest : List UInt8) :
    decode32? (encode32 n ++ rest) = some (n, rest) :=
  congrArg (fun n => some (n, rest)) (join32 n)

theorem decode64?_encode64 (n : UInt64) (rest : List UInt8) :
    decode64? (encode64 n ++ rest) = some (n, rest) := by
  refine congrArg (fun n => some (n, rest)) (UInt64.toBitVec_inj.1 ?_)
  apply BitVec.eq_of_getLsbD_eq
  intro i hi
  let byte (k : Nat) : BitVec 64 := ((n.toBitVec >>> k).setWidth 8).setWidth 64 <<< k
  show ((n.toBitVec.setWidth 8).setWidth 64 ||| byte 8 ||| byte 16 ||| byte 24 ||| byte 32 |||
    byte 40 ||| byte 48 ||| byte 56).getLsbD i = n.toBitVec.getLsbD i
  simp only [byte, BitVec.getLsbD_or, getLsbD_lowByte, getLsbD_byte]
  cases n.toBitVec.getLsbD i with
  | false => simp
  | true => simp; omega

theorem take?_append {count : Nat} {front : List UInt8} (h : front.length = count)
    (rest : List UInt8) : take? count (front ++ rest) = some (front, rest) := by
  subst h
  simp [take?]

end LittleEndian

/-- A text survives being written as bytes. -/
theorem fromUTF8?_toUTF8 (s : String) :
    String.fromUTF8? ⟨s.toUTF8.data.toList.toArray⟩ = some s := by
  rw [Array.toArray_toList]
  exact dif_pos s.isValidUTF8

namespace Model

open LittleEndian

variable {s : Section}

@[simp]
theorem read8_cons (n : UInt8) (rest : List UInt8) : read8 s (n :: rest) = .ok (n, rest) :=
  rfl

@[simp]
theorem read16_encode16 (n : UInt16) (rest : List UInt8) :
    read16 s (encode16 n ++ rest) = .ok (n, rest) := by
  rw [read16, decode16?_encode16, orTruncated]

@[simp]
theorem read32_encode32 (n : UInt32) (rest : List UInt8) :
    read32 s (encode32 n ++ rest) = .ok (n, rest) := by
  rw [read32, decode32?_encode32, orTruncated]

@[simp]
theorem read64_encode64 (n : UInt64) (rest : List UInt8) :
    read64 s (encode64 n ++ rest) = .ok (n, rest) := by
  rw [read64, decode64?_encode64, orTruncated]

theorem readBytes_append {count : Nat} {front : List UInt8} (h : front.length = count)
    (rest : List UInt8) : readBytes s count (front ++ rest) = .ok (front, rest) := by
  rw [readBytes, take?_append h, orTruncated]

/-- A reader reads some items one after the other, each from what its writer made of it. -/
theorem readItems_mapM {α ε : Type} {read : List UInt8 → Except LoadError (Read α)}
    {write : α → Except ε (List UInt8)} {items : List α} {written : List (List UInt8)}
    (hwritten : items.mapM write = .ok written)
    (h : ∀ a bytes, write a = .ok bytes → ∀ rest, read (bytes ++ rest) = .ok (a, rest))
    (done : List α) (rest : List UInt8) :
    readItems read items.length done (written.flatten ++ rest) =
      .ok (done.reverse ++ items, rest) := by
  induction items generalizing done written with
  | nil =>
    cases hwritten
    simp [readItems]
  | cons a items ih =>
    rw [List.mapM_cons] at hwritten
    obtain ⟨bytes, hbytes, hwritten⟩ := bind_eq_ok.1 hwritten
    obtain ⟨others, hothers, hwritten⟩ := bind_eq_ok.1 hwritten
    cases hwritten
    rw [List.length_cons, readItems, List.flatten_cons, List.append_assoc, h a bytes hbytes]
    dsimp only
    rw [ih hothers]
    simp

/-- The same for a writer that cannot fail. -/
theorem readItems_flatMap {α : Type} {read : List UInt8 → Except LoadError (Read α)}
    {write : α → List UInt8} (h : ∀ a rest, read (write a ++ rest) = .ok (a, rest))
    (items : List α) (rest : List UInt8) :
    readItems read items.length [] (items.flatMap write ++ rest) = .ok (items, rest) := by
  have hwritten : items.mapM (fun a => (pure (write a) : Except LoadError (List UInt8))) =
      .ok (items.map write) := List.mapM_pure
  refine readItems_mapM hwritten (fun a bytes hbytes rest => ?_) [] rest
  cases hbytes
  exact h a rest

end Model

end Behavior
