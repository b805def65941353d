import Behavior.Schema
import Mathlib

/-!
How the variables of a schema share a vector. Checking a document gives each new variable the slots
after all others, so the ranges of slots lie end to end: they do not overlap and leave no gaps.
-/

namespace Behavior.Schema

variable {e : Entry} {c : Channel} {slot : Nat}

/-- Ranges of slots, each by its first slot and its width, that lie end to end. -/
def EndToEnd : Nat → List (Nat × Nat) → Nat → Prop
  | start, [], stop => start = stop
  | start, (first, width) :: rest, stop => first = start ∧ EndToEnd (start + width) rest stop

namespace EndToEnd

variable {start stop first width : Nat} {ranges : List (Nat × Nat)}

theorem snoc (h : EndToEnd start ranges stop) (width : Nat) :
    EndToEnd start (ranges ++ [(stop, width)]) (stop + width) := by
  induction ranges generalizing start with
  | nil =>
    cases h
    exact ⟨rfl, rfl⟩
  | cons range rest ih => exact ⟨h.1, ih h.2⟩

theorem le (h : EndToEnd start ranges stop) : start ≤ stop := by
  induction ranges generalizing start with
  | nil => exact Nat.le_of_eq h
  | cons range rest ih => exact Nat.le_of_add_right_le (ih h.2)

theorem bounds (h : EndToEnd start ranges stop) (hmem : (first, width) ∈ ranges) :
    start ≤ first ∧ first + width ≤ stop := by
  induction ranges generalizing start with
  | nil => cases hmem
  | cons range rest ih =>
    obtain ⟨hfirst, hrest⟩ := h
    rcases List.mem_cons.1 hmem with rfl | hmem
    · cases hfirst
      exact ⟨Nat.le_refl _, hrest.le⟩
    · obtain ⟨hle, hstop⟩ := ih hrest hmem
      exact ⟨Nat.le_of_add_right_le hle, hstop⟩

/-- No two ranges have a slot in common. -/
theorem pairwise (h : EndToEnd start ranges stop) :
    ranges.Pairwise fun a b => a.1 + a.2 ≤ b.1 := by
  induction ranges generalizing start with
  | nil => exact .nil
  | cons range rest ih =>
    refine .cons (fun b hb => ?_) (ih h.2)
    rw [show range.1 = start from h.1]
    exact (bounds h.2 (show (b.1, b.2) ∈ rest from hb)).1

theorem exists_mem (h : EndToEnd start ranges stop) (hstart : start ≤ slot) (hstop : slot < stop) :
    ∃ range ∈ ranges, range.1 ≤ slot ∧ slot < range.1 + range.2 := by
  induction ranges generalizing start with
  | nil =>
    cases h
    omega
  | cons range rest ih =>
    obtain ⟨hfirst, hrest⟩ := h
    by_cases hslot : slot < range.1 + range.2
    · exact ⟨range, List.mem_cons_self, by omega, hslot⟩
    · obtain ⟨r, hr, hcovers⟩ := ih hrest (by omega)
      exact ⟨r, List.mem_cons_of_mem _ hr, hcovers⟩

end EndToEnd

def Entry.range (e : Entry) : Nat × Nat :=
  (e.slot.toNat, e.type.width)

theorem Entry.covers_iff :
    e.covers slot = true ↔ e.range.1 ≤ slot ∧ slot < e.range.1 + e.range.2 := by
  rw [covers, Bool.and_eq_true, decide_eq_true_eq, decide_eq_true_eq]
  rfl

/-- The urgency of a channel counts as part of its range. -/
def Channel.range (c : Channel) : Nat × Nat :=
  (c.valueSlot.toNat, c.type.width + 1)

/-- Inputs lie end to end, and so do outputs and channels, in the order of first use. -/
structure LaidOut (s : Schema) : Prop where
  inputs : EndToEnd 0 (s.inputs.map Entry.range) s.inputSize
  outputs : ∃ order : List (Nat × Nat),
    order.Perm (s.outputs.map Entry.range ++ s.channels.map Channel.range) ∧
      EndToEnd 0 order s.outputSize

section

variable {s : Schema}

/-- A variable that is added after all others makes the vector longer by its width. -/
theorem inputSize_append (hslot : e.slot.toNat = s.inputSize) :
    inputSize { s with inputs := s.inputs ++ [e] } = s.inputSize + e.type.width := by
  rw [inputSize, List.foldl_append]
  show max s.inputSize e.stop = _
  rw [Entry.stop, hslot, Nat.max_eq_right (Nat.le_add_right ..)]

theorem outputSize_append (hslot : e.slot.toNat = s.outputSize) :
    outputSize { s with outputs := s.outputs ++ [e] } = s.outputSize + e.type.width := by
  refine eq_of_forall_ge_iff fun bound => ?_
  rw [outputSize_le_iff, ← hslot]
  have hbound : s.outputSize ≤ bound ↔ _ := outputSize_le_iff
  simp only [List.forall_mem_append, List.forall_mem_singleton]
  rw [Entry.stop]
  constructor
  · exact fun h => h.1.2
  · intro hle
    obtain ⟨houtputs, hchannels⟩ := hbound.1 (by omega)
    exact ⟨⟨houtputs, hle⟩, hchannels⟩

theorem outputSize_append_channel (hslot : c.valueSlot.toNat = s.outputSize)
    (hurgency : c.urgencySlot.toNat = c.valueStop) :
    outputSize { s with channels := s.channels ++ [c] } = s.outputSize + (c.type.width + 1) := by
  rw [outputSize, List.foldl_append]
  show max s.outputSize c.stop = _
  rw [Channel.stop, hurgency, Channel.valueStop, hslot]
  omega

end

namespace LaidOut

variable {s : Schema}

theorem empty : LaidOut {} :=
  ⟨rfl, [], .nil, rfl⟩

theorem addInput (h : s.LaidOut) (hslot : e.slot.toNat = s.inputSize) :
    LaidOut { s with inputs := s.inputs ++ [e] } := by
  refine ⟨?_, h.outputs⟩
  rw [inputSize_append hslot, List.map_append, List.map_singleton, Entry.range, hslot]
  exact h.inputs.snoc _

theorem addOutput (h : s.LaidOut) (hslot : e.slot.toNat = s.outputSize) :
    LaidOut { s with outputs := s.outputs ++ [e] } := by
  obtain ⟨order, hperm, horder⟩ := h.outputs
  refine ⟨h.inputs, order ++ [e.range], ?_, ?_⟩
  · rw [List.map_append, List.map_singleton]
    refine (hperm.append_right _).trans ?_
    rw [List.append_assoc, List.append_assoc]
    exact List.perm_append_comm.append_left _
  · rw [outputSize_append hslot, Entry.range, hslot]
    exact horder.snoc _

theorem addChannel (h : s.LaidOut) (hslot : c.valueSlot.toNat = s.outputSize)
    (hurgency : c.urgencySlot.toNat = c.valueStop) :
    LaidOut { s with channels := s.channels ++ [c] } := by
  obtain ⟨order, hperm, horder⟩ := h.outputs
  refine ⟨h.inputs, order ++ [c.range], ?_, ?_⟩
  · rw [List.map_append, List.map_singleton, ← List.append_assoc]
    exact hperm.append_right _
  · rw [outputSize_append_channel hslot hurgency, Channel.range, hslot]
    exact horder.snoc _

end LaidOut

end Behavior.Schema
