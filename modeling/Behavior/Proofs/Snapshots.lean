import Behavior.Ensemble
import Behavior.Proofs.BridgeRange
import Behavior.Proofs.Layouts

/-!
What a model reads from the state of an entity. Values have names; a model looks up the places of
its inputs once and reads from those places ever after. Names keep their places, so what it reads is
what is stored under the names of its inputs, also after values have changed type.
-/

namespace Behavior

/-- A value with a number of components: what is too much is cut, what is missing is zero. -/
def fitTo (width : Nat) (value : List Float) : List Float :=
  (value ++ List.replicate width 0.0).take width

theorem length_fitTo (width : Nat) (value : List Float) : (fitTo width value).length = width := by
  simp [fitTo]

theorem take_fitTo {width bound : Nat} (h : width ≤ bound) (value : List Float) :
    (fitTo bound value).take width = fitTo width value := by
  rw [fitTo, fitTo, List.take_take, Nat.min_eq_left h]
  apply List.ext_getElem?
  intro i
  simp only [List.getElem?_take, List.getElem?_append, List.getElem?_replicate]
  split
  · split
    · rfl
    · rw [if_pos (by omega), if_pos (by omega)]
  · rfl

/-- The input vector with the value of each variable in its slots. -/
def Schema.inputVector (s : Schema) (value : String → List Float) : Array Float :=
  Array.ofFn fun slot : Fin s.inputSize =>
    match s.inputs.find? (·.covers slot) with
    | some e => (fitTo e.type.width (value e.name)).getD (slot - e.slot.toNat) 0.0
    | none => 0.0

namespace Snapshot

/-- A snapshot holds one value under each of its names. -/
structure Holds (s : Snapshot) (value : String → List Float) : Prop where
  names : (s.entries.toList.map (·.name)).Nodup
  values : ∀ e ∈ s.entries, e.values = fitTo 3 (value e.name)

/-- The name at a place. -/
def nameAt? (s : Snapshot) (key : Nat) : Option String :=
  s.entries[key]?.map (·.name)

variable {s : Snapshot} {value : String → List Float} {target : Array Float}
  {bound : List BoundInput}

theorem Holds.empty : Holds {} fun _ => [] :=
  ⟨List.nodup_nil, by simp⟩

/-- Storing a value replaces the entry of its name, or adds one. -/
theorem put_cases (s : Snapshot) (e : Entry) :
    (∃ key, s.nameAt? key = some e.name ∧ (s.put e).entries = s.entries.setIfInBounds key e) ∨
      (∀ x ∈ s.entries, x.name ≠ e.name) ∧ (s.put e).entries = s.entries.push e := by
  rw [put]
  split
  · next key hkey =>
    obtain ⟨hlt, hname, -⟩ := Array.findIdx?_eq_some_iff_getElem.1 hkey
    refine .inl ⟨key, ?_, rfl⟩
    rw [nameAt?, Array.getElem?_eq_getElem hlt, Option.map_some, eq_of_beq hname]
  · next hnone =>
    refine .inr ⟨fun x hx hname => ?_, rfl⟩
    have hne := Array.findIdx?_eq_none_iff.1 hnone x hx
    rw [hname, beq_self_eq_true] at hne
    cases hne

theorem nameAt?_eq (s : Snapshot) (key : Nat) :
    s.nameAt? key = (s.entries.toList.map (·.name))[key]? := by
  rw [nameAt?, List.getElem?_map, Array.getElem?_toList]

theorem Holds.key_unique (h : s.Holds value) {i j : Nat} {name : String}
    (hi : s.nameAt? i = some name) (hj : s.nameAt? j = some name) : i = j := by
  rw [nameAt?_eq] at hi hj
  obtain ⟨hlt, -⟩ := List.getElem?_eq_some_iff.1 hi
  exact (List.getElem?_inj hlt h.names).1 (hi.trans hj.symm)

/-- A name keeps its place. -/
theorem nameAt?_put {key : Nat} {name : String} (h : s.nameAt? key = some name) (e : Entry) :
    (s.put e).nameAt? key = some name := by
  obtain ⟨x, hx, rfl⟩ := Option.map_eq_some_iff.1 h
  obtain ⟨hlt, -⟩ := Array.getElem?_eq_some_iff.1 hx
  rw [nameAt?]
  obtain ⟨i, hi, heq⟩ | ⟨-, heq⟩ := put_cases s e
  · rw [heq, Array.getElem?_setIfInBounds]
    split
    · next hik =>
      subst hik
      rw [if_pos hlt, Option.map_some, ← hi]
      exact h
    · exact h
  · rw [heq, Array.getElem?_push_lt hlt, ← Array.getElem?_eq_getElem hlt]
    exact h

/-- The names after a value has been stored. -/
theorem names_put (s : Snapshot) (e : Entry) :
    (s.put e).entries.toList.map (·.name) = s.entries.toList.map (·.name) ∨
      (∀ x ∈ s.entries, x.name ≠ e.name) ∧
        (s.put e).entries.toList.map (·.name) = s.entries.toList.map (·.name) ++ [e.name] := by
  obtain ⟨i, hi, heq⟩ | ⟨hnew, heq⟩ := put_cases s e
  · left
    rw [heq, Array.toList_setIfInBounds, List.map_set]
    rw [nameAt?_eq] at hi
    obtain ⟨hlt, hname⟩ := List.getElem?_eq_some_iff.1 hi
    rw [← hname, List.set_getElem_self]
  · right
    rw [heq, Array.toList_push, List.map_append, List.map_singleton]
    exact ⟨hnew, rfl⟩

/-- Storing a value changes what is stored under its name, and nothing else. -/
theorem Holds.put (h : s.Holds value) {e : Entry} {new : List Float}
    (hnew : e.values = fitTo 3 new) : (s.put e).Holds (Function.update value e.name new) where
  names := by
    obtain heq | ⟨hfresh, heq⟩ := names_put s e
    · rw [heq]
      exact h.names
    · rw [heq]
      refine List.nodup_append.2 ⟨h.names, by simp, ?_⟩
      rintro _ hname _ hlast rfl
      obtain ⟨x, hx, hxname⟩ := List.mem_map.1 hname
      exact hfresh x (Array.mem_toList_iff.1 hx) (hxname.trans (List.mem_singleton.1 hlast))
  values x hx := by
    have hother : x ∈ s.entries → x.name ≠ e.name →
        x.values = fitTo 3 (Function.update value e.name new x.name) := fun hmem hne => by
      rw [Function.update_of_ne hne]
      exact h.values x hmem
    have hself : e.values = fitTo 3 (Function.update value e.name new e.name) := by
      rw [Function.update_self]
      exact hnew
    obtain ⟨i, hi, heq⟩ | ⟨hfresh, heq⟩ := put_cases s e
    · rw [heq] at hx
      obtain ⟨j, hj⟩ := Array.mem_iff_getElem?.1 hx
      rw [Array.getElem?_setIfInBounds] at hj
      split at hj
      · split at hj
        · cases hj
          exact hself
        · cases hj
      · next hne =>
        refine hother (Array.mem_of_getElem? hj) fun hname => hne (h.key_unique hi ?_)
        rw [nameAt?, hj, Option.map_some, hname]
    · rw [heq] at hx
      rcases Array.mem_push.1 hx with hx | rfl
      · exact hother hx (hfresh x hx)
      · exact hself

/-! ## Reading -/

/-- Numbers written one after the other. -/
theorem getElem?_foldl_write (numbers : List Float) (slot first : Nat) (target : Array Float)
    (h : slot + first + numbers.length ≤ target.size) (k : Nat) :
    ((numbers.zipIdx first).foldl (fun target (x, i) => target.setIfInBounds (slot + i) x)
        target)[k]? =
      if slot + first ≤ k ∧ k < slot + first + numbers.length then numbers[k - (slot + first)]?
      else target[k]? := by
  induction numbers generalizing first target with
  | nil =>
    rw [if_neg (by simp)]
    rfl
  | cons x rest ih =>
    rw [List.length_cons] at h
    rw [List.zipIdx_cons, List.foldl_cons, ih _ _ (by rw [Array.size_setIfInBounds]; omega),
      Array.getElem?_setIfInBounds, List.length_cons]
    by_cases hk : k = slot + first
    · subst hk
      rw [if_neg (by omega), if_pos rfl, if_pos (by omega), if_pos (by omega), Nat.sub_self]
      rfl
    · rw [if_neg (Ne.symm hk)]
      by_cases hrange : slot + first ≤ k ∧ k < slot + first + (rest.length + 1)
      · obtain ⟨j, rfl⟩ : ∃ j, k = slot + first + 1 + j := ⟨k - (slot + first + 1), by omega⟩
        rw [if_pos (by omega), if_pos hrange,
          show slot + first + 1 + j - (slot + (first + 1)) = j by omega,
          show slot + first + 1 + j - (slot + first) = j + 1 by omega, List.getElem?_cons_succ]
      · rw [if_neg (by omega), if_neg hrange]

/-- A bound input leads to the value stored under the name of a variable. -/
structure Binds (s : Snapshot) (b : BoundInput) (e : Schema.Entry) : Prop where
  name : s.nameAt? b.key = some e.name
  slot : b.slot = e.slot.toNat
  width : b.width = e.type.width

theorem Binds.put {b : BoundInput} {e : Schema.Entry} (h : s.Binds b e) (x : Entry) :
    (s.put x).Binds b e :=
  { h with name := nameAt?_put h.name x }

theorem width_le_three (t : ValueType) : t.width ≤ 3 := by
  cases t <;> decide

theorem Binds.getElem?_read {b : BoundInput} {e : Schema.Entry} (h : s.Binds b e)
    (hs : s.Holds value) (hsize : e.stop ≤ target.size) (k : Nat) :
    (s.read b.key b.slot b.width target)[k]? =
      if e.covers k then (fitTo e.type.width (value e.name))[k - e.slot.toNat]? else target[k]? := by
  obtain ⟨x, hx, hname⟩ := Option.map_eq_some_iff.1 h.name
  have hnumbers : x.values.take e.type.width = fitTo e.type.width (value e.name) := by
    rw [hs.values x (Array.mem_of_getElem? hx), hname, take_fitTo (width_le_three _)]
  rw [read, hx, h.slot, h.width]
  dsimp only
  rw [hnumbers]
  have hwrite := getElem?_foldl_write (fitTo e.type.width (value e.name)) e.slot.toNat 0 target
    (by rw [length_fitTo]; exact hsize) k
  rw [length_fitTo, Nat.add_zero] at hwrite
  rw [hwrite]
  exact if_congr Schema.Entry.covers_iff.symm rfl rfl

theorem size_read (s : Snapshot) (key slot width : Nat) (target : Array Float) :
    (s.read key slot width target).size = target.size := by
  rw [read]
  split
  · rfl
  · exact size_foldl_setIfInBounds (fun b : Float × Nat => slot + b.2) (·.1) _ target

theorem size_readAll (s : Snapshot) (bound : List BoundInput) (target : Array Float) :
    (bound.foldl (fun v b => s.read b.key b.slot b.width v) target).size = target.size := by
  induction bound generalizing target with
  | nil => rfl
  | cons b bound ih => rw [List.foldl_cons, ih, size_read]

/-- What is read into the slots of variables that do not overlap. -/
theorem getElem?_readAll (hs : s.Holds value) {entries : List Schema.Entry}
    (h : List.Forall₂ s.Binds bound entries)
    (hdisjoint : (entries.map Schema.Entry.range).Pairwise fun a b => a.1 + a.2 ≤ b.1)
    (hsize : ∀ e ∈ entries, e.stop ≤ target.size) (k : Nat) :
    (bound.foldl (fun v b => s.read b.key b.slot b.width v) target)[k]? =
      match entries.find? (·.covers k) with
      | some e => (fitTo e.type.width (value e.name))[k - e.slot.toNat]?
      | none => target[k]? := by
  induction h generalizing target with
  | nil => rfl
  | @cons b e bound entries hbinds _ ih =>
    rw [List.map_cons, List.pairwise_cons] at hdisjoint
    obtain ⟨hstop, hrest⟩ := List.forall_mem_cons.1 hsize
    rw [List.foldl_cons, ih hdisjoint.2 (by rwa [size_read]), hbinds.getElem?_read hs hstop]
    cases hcovers : e.covers k with
    | true =>
      -- No later variable has this slot too.
      have hnone : entries.find? (·.covers k) = none := List.find?_eq_none.2 fun e' he' hk => by
        have hbefore := hdisjoint.1 _ (List.mem_map_of_mem he')
        have hk := Schema.Entry.covers_iff.1 hk
        have hcovers := Schema.Entry.covers_iff.1 hcovers
        omega
      rw [hnone, List.find?_cons_of_pos (by simp [hcovers])]
      rfl
    | false =>
      rw [List.find?_cons_of_neg (by simp [hcovers])]
      rfl

/-- The vector that is read has the stored value in the slots of each input. -/
theorem readAll_eq (hs : s.Holds value) {schema : Schema} (hlayout : schema.LaidOut)
    (h : List.Forall₂ s.Binds bound schema.inputs) (hsize : target.size = schema.inputSize) :
    bound.foldl (fun v b => s.read b.key b.slot b.width v) target = schema.inputVector value := by
  apply Array.ext_getElem?
  intro k
  rw [getElem?_readAll hs h hlayout.inputs.pairwise
    (hsize ▸ Schema.inputSize_le_iff.1 (Nat.le_refl _)), Schema.inputVector]
  by_cases hk : k < schema.inputSize
  · obtain ⟨range, hrange, hcovers⟩ := hlayout.inputs.exists_mem (Nat.zero_le k) hk
    obtain ⟨e, he, rfl⟩ := List.mem_map.1 hrange
    have hfound : ∃ e', schema.inputs.find? (·.covers k) = some e' :=
      Option.isSome_iff_exists.1 (List.find?_isSome.2 ⟨e, he, Schema.Entry.covers_iff.2 hcovers⟩)
    obtain ⟨e', he'⟩ := hfound
    have hfits := List.find?_some he'
    have hcovers' := Schema.Entry.covers_iff.1 hfits
    have hlt : k - e'.slot.toNat < (fitTo e'.type.width (value e'.name)).length := by
      rw [length_fitTo]
      have hrange : e'.range = (e'.slot.toNat, e'.type.width) := rfl
      rw [hrange] at hcovers'
      omega
    rw [Array.getElem?_ofFn, dif_pos hk, he']
    dsimp only
    rw [List.getD_eq_getElem?_getD, List.getElem?_eq_getElem hlt]
    rfl
  · have hnone : schema.inputs.find? (·.covers k) = none :=
      List.find?_eq_none.2 fun e he hcovers => by
        have hstop := Schema.inputSize_le_iff.1 (Nat.le_refl _) e he
        have hcovers := (Schema.Entry.covers_iff.1 hcovers).2
        exact absurd (Nat.lt_of_lt_of_le hcovers hstop) hk
    rw [hnone, Array.getElem?_ofFn, dif_neg hk]
    exact Array.getElem?_eq_none (by omega)

end Snapshot

end Behavior
