import Behavior.Model.Check
import Behavior.Proofs.CallExactness

/-!
Why a model is fit to run: a labelling of its offsets with stack depths, a ranking of its routines,
and operands within their tables. Every model that passes the check has all three.
-/

namespace Behavior

/-- What the check of a model has found out about its code. -/
structure Fitness (m : Model) where
  label : StackDepth.Labelling
  rank : Nat → Option Nat
  consistent : StackDepth.Consistent m.code m.points m.maxStack.toNat label
  ranked : CallDepth.Ranked m.code m.points rank
  operand_lt : ∀ (offset : Nat) (word : Word) (op : Opcode), m.code[offset]? = some word →
    Word.opcode? word = some op → Word.operand word < m.tableSizes.bound op
  entry_label : label m.entry.toNat = some 0
  entry_rank : ∃ r, rank m.entry.toNat = some r ∧ r ≤ m.maxCallDepth.toNat

namespace Model

variable {m : Model}

theorem checkWords_ok {sizes : TableSizes} {offset : Nat} {words : List Word}
    (h : checkWords sizes offset words = .ok ()) {i : Nat} {word : Word} {op : Opcode}
    (hw : words[i]? = some word) (hop : Word.opcode? word = some op) :
    Word.operand word < sizes.bound op := by
  induction words generalizing offset i with
  | nil => cases hw
  | cons w rest ih =>
    unfold checkWords at h
    split at h
    · cases h
    · next hc =>
      cases i with
      | zero =>
        cases hw
        unfold checkWord at hc
        rw [hop] at hc
        dsimp only at hc
        split at hc
        · next hlt => exact hlt
        · cases hc
      | succ i => exact ih h hw

theorem checkCode_ok (h : m.checkCode = .ok ()) {offset : Nat} {word : Word} {op : Opcode}
    (hw : m.code[offset]? = some word) (hop : Word.opcode? word = some op) :
    Word.operand word < m.tableSizes.bound op := by
  unfold checkCode at h
  split at h
  · cases h
  · exact checkWords_ok h (by rw [Array.getElem?_toList]; exact hw) hop

/-- Declared depths that pass the check have a labelling and a ranking behind them. -/
theorem checkDepths_ok (h : m.checkDepths = .ok ()) :
    (∃ l, StackDepth.Consistent m.code m.points m.maxStack.toNat l ∧
      l m.entry.toNat = some 0) ∧
    ∃ rank, CallDepth.Ranked m.code m.points rank ∧
      ∃ r, rank m.entry.toNat = some r ∧ r ≤ m.maxCallDepth.toNat := by
  unfold checkDepths at h
  split at h
  · cases h
  · next required hstack =>
    dsimp only at h
    split at h
    · cases h
    · next hdeclared =>
      split at h
      · cases h
      · next calls hcalls =>
        split at h
        · cases h
        · next hle =>
          obtain ⟨l, hl, hentry⟩ := StackDepth.analyze_ok hstack
          obtain ⟨depth, hsound, -⟩ :=
            (StackDepth.Worklist.answers_analyze _ _ _).eq_ok_iff.1 hstack
          obtain ⟨rank, hrank, hr⟩ := CallDepth.analyze_ok (fun i hi => hsound.holds hi) hcalls
          refine ⟨⟨l, hl.mono ?_, hentry⟩, rank, hrank, calls, hr, Nat.le_of_not_lt hle⟩
          exact Nat.le_of_not_lt fun hlt => hdeclared (Or.inl hlt)

theorem check_ok (h : m.check = .ok ()) :
    m.checkCode = .ok () ∧ m.checkPoints = .ok () ∧ m.checkDepths = .ok () := by
  unfold check at h
  obtain ⟨-, -, h⟩ := bind_eq_ok.1 h
  obtain ⟨-, -, h⟩ := bind_eq_ok.1 h
  obtain ⟨⟨⟩, hcode, h⟩ := bind_eq_ok.1 h
  obtain ⟨⟨⟩, hpoints, h⟩ := bind_eq_ok.1 h
  dsimp only at h
  split at h
  · cases h
  · exact ⟨hcode, hpoints, h⟩

/-- Whatever passes the check is fit to run. -/
theorem fitness_of_check (h : m.check = .ok ()) : Nonempty (Fitness m) := by
  obtain ⟨hcode, -, hdepths⟩ := check_ok h
  obtain ⟨⟨l, hl, hentry⟩, rank, hrank, hr⟩ := checkDepths_ok hdepths
  exact ⟨{
    label := l
    rank := rank
    consistent := hl
    ranked := hrank
    operand_lt := fun _ _ _ hw hop => checkCode_ok hcode hw hop
    entry_label := hentry
    entry_rank := hr }⟩

end Model

end Behavior
