import Behavior.Proofs.BridgeRange
import Behavior.Proofs.SignedNumbers

/-!
Texts on their way through an extension.

The stream's table with the texts of an extension has every text at an index of its own, where it
stays. An index of the stream enters the extension as the index of the same text there, or below
zero if the extension does not have the text, and leaves it as it was. So does everything else but
the whole numbers below zero, which leave the extension as if they had been put there by the map.
-/

namespace Behavior

/-! ## Tables -/

theorem Pool.prefix_intern {α : Type} [BEq α] (table : Array α) (value : α) :
    table.toList <+: (intern table value).2.toList := by
  unfold intern
  split
  · exact List.prefix_refl _
  · rw [Array.toList_push]
    exact List.prefix_append _ _

theorem getElem?_of_prefix {α : Type} {a b : Array α} (h : a.toList <+: b.toList) {i : Nat} {x : α}
    (ha : a[i]? = some x) : b[i]? = some x := by
  obtain ⟨added, hadded⟩ := h
  rw [← Array.getElem?_toList] at ha ⊢
  rw [← hadded, List.getElem?_append_left (List.getElem?_eq_some_iff.1 ha).1, ha]

namespace StringMap

/-- What has been indexed stands in the table, which has been added to at its end. -/
theorem indexAll_ok (table : Array String) (texts : List String) (indices : Array Nat) :
    let all := indexAll table texts indices
    table.toList <+: all.2.toList ∧
      ∃ found, all.1.toList = indices.toList ++ found ∧
        List.Forall₂ (fun k text => all.2[k]? = some text) found texts := by
  induction texts generalizing table indices with
  | nil => exact ⟨List.prefix_refl _, [], (List.append_nil _).symm, .nil⟩
  | cons text rest ih =>
    obtain ⟨hadded, -⟩ := Assembly.intern_placed table text
    obtain ⟨hbegins, found, heq, hfound⟩ :=
      ih (Pool.intern table text).2 (indices.push (Pool.intern table text).1)
    refine ⟨(Pool.prefix_intern table text).trans hbegins, (Pool.intern table text).1 :: found,
      ?_, .cons ?_ hfound⟩
    · rw [Array.toList_push, List.append_assoc] at heq
      exact heq
    · exact getElem?_of_prefix hbegins hadded

theorem indexAll_nodup {table : Array String} (texts : List String) (indices : Array Nat)
    (h : table.toList.Nodup) : (indexAll table texts indices).2.toList.Nodup := by
  induction texts generalizing table indices with
  | nil => exact h
  | cons text rest ih => exact ih _ (Assembly.intern_nodup text h)

theorem size_indexAll_le (table : Array String) (texts : List String) (indices : Array Nat) :
    (indexAll table texts indices).2.size ≤ table.size + texts.length := by
  induction texts generalizing table indices with
  | nil => exact Nat.le_refl _
  | cons text rest ih =>
    have hrest := ih (Pool.intern table text).2 (indices.push (Pool.intern table text).1)
    have hfirst := Assembly.size_intern_le table text
    rw [List.length_cons]
    exact hrest.trans (by omega)

/-- The map between a table and the texts of an extension that it has taken in. -/
structure Matches (table extension : Array String) (map : StringMap) : Prop where
  size : map.toStream.size = extension.size
  toStream : ∀ {own k : Nat}, map.toStream[own]? = some k → table[k]? = extension[own]?
  /-- An index that leads into the extension leads back. -/
  known : ∀ {k own : Nat}, map.ofStream.getD k none = some own → map.toStream[own]? = some k
  foreign : ∀ {k own : Nat}, map.ofStream.getD k none = none → map.toStream[own]? ≠ some k

/-- Reading a table of indices backwards. -/
theorem getD_ofStream {toStream : Array Nat} {size : Nat} (hlt : ∀ k ∈ toStream, k < size)
    (k : Nat) :
    let ofStream := toStream.toList.zipIdx.foldl
      (fun (ofStream : Array (Option Nat)) (index, own) => ofStream.setIfInBounds index (some own))
      (Array.replicate size none)
    (∃ own, toStream[own]? = some k ∧ ofStream.getD k none = some own) ∨
      (∀ own : Nat, toStream[own]? ≠ some k) ∧ ofStream.getD k none = none := by
  intro ofStream
  have hsize : ofStream.size = size := by
    rw [size_foldl_setIfInBounds, Array.size_replicate]
  rw [Array.getD_eq_getD_getElem?]
  by_cases hk : k < size
  · have hk' : k < (Array.replicate size (none : Option Nat)).size := by
      rwa [Array.size_replicate]
    obtain ⟨⟨index, own⟩, hmem, hindex, hwritten⟩ | ⟨hnone, hkept⟩ :=
      getElem?_foldl_setIfInBounds Prod.fst (fun p : Nat × Nat => some p.2)
        toStream.toList.zipIdx hk'
    · refine .inl ⟨own, ?_, ?_⟩
      · rw [← Array.getElem?_toList, ← hindex]
        exact List.mem_zipIdx_iff_getElem?.1 hmem
      · rw [show ofStream[k]? = _ from hwritten]
        rfl
    · refine .inr ⟨fun own hown => hnone (k, own) ?_ rfl, ?_⟩
      · rw [List.mem_zipIdx_iff_getElem?, Array.getElem?_toList]
        exact hown
      · rw [show ofStream[k]? = _ from hkept, Array.getElem?_replicate, if_pos hk]
        rfl
  · refine .inr ⟨fun own hown => hk (hlt k (Array.mem_of_getElem? hown)), ?_⟩
    rw [Array.getElem?_eq_none (by omega)]
    rfl

theorem Matches.of_build {stream extension table : Array String} {map : StringMap}
    (h : build stream extension = (table, map)) :
    map.Matches table extension ∧ stream.toList <+: table.toList ∧
      (stream.toList.Nodup → table.toList.Nodup) := by
  obtain ⟨hbegins, found, heq, hfound⟩ := indexAll_ok stream extension.toList #[]
  have hlt : ∀ k ∈ (indexAll stream extension.toList #[]).1,
      k < (indexAll stream extension.toList #[]).2.size := lt_size_of_mem_indexAll nofun
  have hnodup : stream.toList.Nodup → (indexAll stream extension.toList #[]).2.toList.Nodup :=
    indexAll_nodup _ _
  unfold build at h
  generalize indexAll stream extension.toList #[] = all at *
  obtain ⟨toStream, taken⟩ := all
  cases h
  obtain rfl : toStream.toList = found := heq
  obtain ⟨hlength, hfound⟩ := List.forall₂_iff_get.1 hfound
  refine ⟨⟨hlength, fun {own k} hk => ?_, fun {k own} hk => ?_, fun {k own} hk => ?_⟩, hbegins,
    hnodup⟩
  · obtain ⟨hown, rfl⟩ := Array.getElem?_eq_some_iff.1 hk
    have hown' : own < extension.size := lt_of_lt_of_eq hown hlength
    rw [Array.getElem?_eq_getElem hown']
    exact hfound own hown hown'
  · obtain ⟨own', hown', heq⟩ | ⟨-, hnone⟩ := getD_ofStream hlt k
    · cases heq.symm.trans hk
      exact hown'
    · cases hnone.symm.trans hk
  · obtain ⟨own', -, heq⟩ | ⟨hnone, -⟩ := getD_ofStream hlt k
    · cases heq.symm.trans hk
    · exact hnone own

/-! ## Values -/

theorem index?_ofNat {k : Nat} (hk : k < indexBound) : index? (Float.ofNat k) = some k := by
  rw [index?, Binary64.toNat?_ofNat (hk.trans (by decide)), Option.filter_some,
    if_pos (decide_eq_true hk)]

theorem index?_of_neg {v : Float} (h : v < 0.0) : index? v = none := by
  rw [index?, Binary64.toNat?_of_neg h, Option.filter_none]

theorem index?_eq_some {v : Float} {k : Nat} (h : index? v = some k) :
    Binary64.toNat? v = some k ∧ k < indexBound := by
  obtain ⟨hv, hk⟩ := Option.filter_eq_some_iff.1 h
  exact ⟨hv, of_decide_eq_true hk⟩

section

variable {map : StringMap} {k own : Nat} {v : Float}

theorem enter_known (hk : k < indexBound) (h : map.ofStream.getD k none = some own) :
    map.enter (Float.ofNat k) = Float.ofNat own := by
  simp only [enter, index?_ofNat hk, h]

/-- The index of a text that the extension does not have. -/
theorem enter_foreign (hk : k < indexBound) (h : map.ofStream.getD k none = none) :
    map.enter (Float.ofNat k) = -Float.ofNat (k + 1) := by
  have hone : k + 1 < 2 ^ 53 := (Nat.succ_lt_succ hk).trans (by decide)
  simp only [enter, index?_ofNat hk, h]
  exact Binary64.neg_ofNat_sub_one hone

theorem leave_ofNat (hown : own < indexBound) (h : map.toStream[own]? = some k) :
    map.leave (Float.ofNat own) = Float.ofNat k := by
  simp only [leave, index?_ofNat hown, h]

theorem leave_negativeWhole (hv : Binary64.IsNegativeWhole v) :
    map.leave v = -v - 1.0 := by
  simp only [leave, index?_of_neg hv.1, decide_eq_true hv.1, hv.2, Bool.and_self, if_true]

theorem leave_neg_ofNat (hk : k + 1 < 2 ^ 53) :
    map.leave (-Float.ofNat (k + 1)) = Float.ofNat k := by
  rw [leave_negativeWhole ⟨Binary64.neg_ofNat_lt_zero k.succ_pos hk,
    Binary64.isWhole_neg_ofNat k.succ_pos hk⟩, Binary64.neg_neg, Binary64.ofNat_sub_one hk]

/-- Zero enters the same with either sign. -/
theorem enter_neg_zero (map : StringMap) : map.enter (-0.0) = map.enter (Float.ofNat 0) := by
  have hneg : index? (-0.0) = some 0 := by decide +kernel
  simp only [enter, hneg, index?_ofNat (show 0 < indexBound by decide)]
  cases map.ofStream.getD 0 none with
  | some own => rfl
  | none => rfl

theorem enter_of_index?_none (h : index? v = none) : map.enter v = v := by
  simp only [enter, h]

theorem leave_of_index?_none (h : index? v = none) (hv : ¬ Binary64.IsNegativeWhole v) :
    map.leave v = v := by
  have hcond : (decide (v < 0.0) && Binary64.isWhole v) = false := by
    rw [Bool.eq_false_iff]
    intro htrue
    obtain ⟨hneg, hwhole⟩ := Bool.and_eq_true_iff.1 htrue
    exact hv ⟨of_decide_eq_true hneg, hwhole⟩
  simp only [leave, h, hcond, Bool.false_eq_true, if_false]

end

namespace Matches

variable {table extension : Array String} {map : StringMap} {k : Nat}

theorem lt_of_toStream (h : map.Matches table extension) (hsize : extension.size < indexBound)
    {own : Nat} (hown : map.toStream[own]? = some k) : own < indexBound :=
  (h.size ▸ (Array.getElem?_eq_some_iff.1 hown).1).trans hsize

/-- An index of the stream comes back. -/
theorem leave_enter_ofNat (h : map.Matches table extension) (hsize : extension.size < indexBound)
    (hk : k < indexBound) : map.leave (map.enter (Float.ofNat k)) = Float.ofNat k := by
  cases hmap : map.ofStream.getD k none with
  | some own =>
    have hown := h.known hmap
    rw [enter_known hk hmap, leave_ofNat (h.lt_of_toStream hsize hown) hown]
  | none =>
    rw [enter_foreign hk hmap, leave_neg_ofNat ((Nat.succ_lt_succ hk).trans (by decide))]

/-- Just the whole numbers below zero do not come back as they were: they are taken for indices that
the extension did not know. -/
theorem alike_leave_enter (h : map.Matches table extension) (hsize : extension.size < indexBound)
    (v : Float) :
    Binary64.Alike (map.leave (map.enter v)) v ↔ ¬ Binary64.IsNegativeWhole v := by
  cases hindex : index? v with
  | none =>
    rw [enter_of_index?_none hindex]
    by_cases hv : Binary64.IsNegativeWhole v
    · rw [leave_negativeWhole hv]
      exact iff_of_false hv.not_alike (not_not.2 hv)
    · rw [leave_of_index?_none hindex hv]
      exact iff_of_true (.refl v) hv
  | some k =>
    obtain ⟨hnat, hk⟩ := index?_eq_some hindex
    have hback := h.leave_enter_ofNat hsize hk
    refine iff_of_true ?_ fun hv => ?_
    · obtain rfl | ⟨rfl, rfl⟩ := Binary64.eq_ofNat_of_toNat? hnat (hk.trans (by decide))
      · rw [hback]
        exact .refl _
      · rw [enter_neg_zero, hback]
        exact .inr (by decide +kernel)
    · rw [index?_of_neg hv.1] at hindex
      cases hindex

/-- An index enters as that of the same text, or below zero. -/
theorem enter_ofNat_cases (h : map.Matches table extension) (hk : k < indexBound) :
    (∃ own, map.toStream[own]? = some k ∧ map.enter (Float.ofNat k) = Float.ofNat own) ∨
      (∀ own : Nat, map.toStream[own]? ≠ some k) ∧
        map.enter (Float.ofNat k) = -Float.ofNat (k + 1) := by
  cases hmap : map.ofStream.getD k none with
  | some own => exact .inl ⟨own, h.known hmap, enter_known hk hmap⟩
  | none => exact .inr ⟨fun own => h.foreign hmap, enter_foreign hk hmap⟩

end Matches

/-! ## Tables without repetitions -/

/-- The map between tables in which every text has one index, and every index is a value. -/
structure Exact (table extension : Array String) (map : StringMap) : Prop
    extends map.Matches table extension where
  nodup : table.toList.Nodup
  nodup_own : extension.toList.Nodup
  size_lt : table.size < indexBound
  size_own_lt : extension.size < indexBound

/-- What a value of an extension stands for: a text of its own under its index, or one of the
stream's table under what the index has become on the way in. -/
inductive Denotes (table extension : Array String) (map : StringMap) : Float → String → Prop
  | own {e : Nat} {text : String} :
    extension[e]? = some text → Denotes table extension map (Float.ofNat e) text
  | entered {k : Nat} {text : String} :
    table[k]? = some text → Denotes table extension map (map.enter (Float.ofNat k)) text

namespace Exact

variable {table extension : Array String} {map : StringMap} {x y : Float} {a b : String}

theorem isInteger_enter (h : map.Exact table extension) {k : Nat} (hk : k < table.size) :
    Binary64.IsInteger (map.enter (Float.ofNat k)) := by
  have hk' := hk.trans h.size_lt
  obtain ⟨own, hown, heq⟩ | ⟨-, heq⟩ := h.enter_ofNat_cases hk'
  · exact ⟨own, (h.lt_of_toStream h.size_own_lt hown).trans (by decide), .inl heq⟩
  · exact ⟨k + 1, (Nat.succ_lt_succ hk').trans (by decide), .inr ⟨k.succ_pos, heq⟩⟩

/-- Two indices enter alike just if they are the same. -/
theorem enter_inj (h : map.Exact table extension) {i j : Nat} (hi : i < table.size)
    (hj : j < table.size) : map.enter (Float.ofNat i) = map.enter (Float.ofNat j) ↔ i = j := by
  have hi' := hi.trans h.size_lt
  have hj' := hj.trans h.size_lt
  constructor
  · intro heq
    have hback := h.leave_enter_ofNat h.size_own_lt hi'
    rw [heq, h.leave_enter_ofNat h.size_own_lt hj'] at hback
    exact ((Binary64.ofNat_inj (hj'.trans (by decide)) (hi'.trans (by decide))).1 hback).symm
  · rintro rfl
    rfl

/-- An index enters as an index of the extension just if both stand for the same text. -/
theorem enter_eq_ofNat (h : map.Exact table extension) {i e : Nat} (hi : i < table.size)
    (he : e < extension.size) :
    map.enter (Float.ofNat i) = Float.ofNat e ↔ table[i]? = extension[e]? := by
  have hsmall : ∀ {n : Nat}, n < indexBound → n < 2 ^ 53 := fun h => h.trans (by decide)
  have hi' := hi.trans h.size_lt
  have he' : e < 2 ^ 53 := hsmall (he.trans h.size_own_lt)
  obtain ⟨own, hown, henter⟩ | ⟨hforeign, henter⟩ := h.enter_ofNat_cases hi'
  · have hlt := (Array.getElem?_eq_some_iff.1 hown).1
    rw [h.size] at hlt
    rw [henter, Binary64.ofNat_inj (hsmall (hlt.trans h.size_own_lt)) he', h.toStream hown]
    exact ((List.getElem?_inj hlt h.nodup_own).symm.trans
      (by rw [Array.getElem?_toList, Array.getElem?_toList]))
  · refine iff_of_false (fun heq => ?_) fun heq => ?_
    · have hnat := Binary64.toNat?_ofNat he'
      rw [← heq, henter, Binary64.toNat?_of_neg (Binary64.neg_ofNat_lt_zero i.succ_pos
        ((Nat.succ_lt_succ hi').trans (by decide)))] at hnat
      cases hnat
    · -- the text of the extension is in the table, and nowhere else
      have hlt : e < map.toStream.size := h.size ▸ he
      have hk := h.toStream (Array.getElem?_eq_getElem hlt)
      rw [← heq, ← Array.getElem?_toList, ← Array.getElem?_toList] at hk
      refine hforeign e ?_
      rw [Array.getElem?_eq_getElem hlt, (List.getElem?_inj hi h.nodup).1 hk.symm]

/-- A text of the extension could have come from the stream as well. -/
theorem exists_entered (h : map.Exact table extension) (hx : map.Denotes table extension x a) :
    ∃ k, table[k]? = some a ∧ x = map.enter (Float.ofNat k) := by
  cases hx with
  | @own e _ he =>
    have hlt := (Array.getElem?_eq_some_iff.1 he).1
    have hk := h.toStream (Array.getElem?_eq_getElem (h.size ▸ hlt))
    exact ⟨_, hk.trans he, ((h.enter_eq_ofNat
      (Array.getElem?_eq_some_iff.1 (hk.trans he)).1 hlt).2 hk).symm⟩
  | entered hk => exact ⟨_, hk, rfl⟩

/-- What stands for a text leaves the extension as the index of the text. -/
theorem leave (h : map.Exact table extension) (hx : map.Denotes table extension x a) :
    ∃ k, table[k]? = some a ∧ map.leave x = Float.ofNat k := by
  obtain ⟨k, hk, rfl⟩ := h.exists_entered hx
  exact ⟨k, hk, h.leave_enter_ofNat h.size_own_lt
    ((Array.getElem?_eq_some_iff.1 hk).1.trans h.size_lt)⟩

theorem eq_iff (h : map.Exact table extension) (hx : map.Denotes table extension x a)
    (hy : map.Denotes table extension y b) : x = y ↔ a = b := by
  obtain ⟨i, hi, rfl⟩ := h.exists_entered hx
  obtain ⟨j, hj, rfl⟩ := h.exists_entered hy
  have hlt := (Array.getElem?_eq_some_iff.1 hi).1
  rw [h.enter_inj hlt (Array.getElem?_eq_some_iff.1 hj).1, ← List.getElem?_inj hlt h.nodup,
    Array.getElem?_toList, Array.getElem?_toList, hi, hj, Option.some_inj]

/-- Comparing values is comparing texts. -/
theorem beq_eq (h : map.Exact table extension) (hx : map.Denotes table extension x a)
    (hy : map.Denotes table extension y b) : (x == y) = (a == b) := by
  have hinteger {z : Float} {text : String} (hz : map.Denotes table extension z text) :
      Binary64.IsInteger z := by
    obtain ⟨k, hk, rfl⟩ := h.exists_entered hz
    exact h.isInteger_enter (Array.getElem?_eq_some_iff.1 hk).1
  rw [Bool.eq_iff_iff, (hinteger hx).beq_iff (hinteger hy), h.eq_iff hx hy, beq_iff_eq]

end Exact

end StringMap

end Behavior
