import Behavior.Proofs.Layouts
import Behavior.Proofs.Placement
import Behavior.Proofs.Safety
import Behavior.Stream.Stage

/-!
Bridges stay within the vectors they translate between.

Reading or writing an entry that does not exist goes unnoticed in the definitions of bridges and
stages. Here each of them has a strict form, which has no result in that case, and the strict forms
agree with the definitions: always when a bridge is built, and on vectors of the right sizes when a
stage runs behind a bridge that was built.
-/

namespace Behavior

variable {α β : Type} {xs : Array α}
variable {index : β → Nat} {value : β → α} {l : List β} {i limit : Nat}

/-! ## Strict access -/

/-- Replace an entry that has to be there. -/
def put? {α : Type} (xs : Array α) (i : Nat) (x : α) : Option (Array α) :=
  if i < xs.size then some (xs.setIfInBounds i x) else none

/-- Change an entry that has to be there. -/
def change? {α : Type} (f : α → α) (xs : Array α) (i : Nat) : Option (Array α) :=
  if i < xs.size then some (xs.modify i f) else none

theorem put?_eq (h : i < xs.size) (x : α) : put? xs i x = some (xs.setIfInBounds i x) :=
  if_pos h

/-- A strict fold agrees with the plain one if its steps do. -/
theorem foldlM_eq_some {strict : β → α → Option β} {plain : β → α → β} (inv : β → Prop) {l : List α}
    {b : β} (hb : inv b)
    (hstep : ∀ b, inv b → ∀ a ∈ l, strict b a = some (plain b a) ∧ inv (plain b a)) :
    l.foldlM strict b = some (l.foldl plain b) := by
  induction l generalizing b with
  | nil => rfl
  | cons a rest ih =>
    obtain ⟨heq, hinv⟩ := hstep b hb a List.mem_cons_self
    rw [List.foldlM_cons, heq]
    exact ih hinv fun b hb a ha => hstep b hb a (List.mem_cons_of_mem _ ha)

/-- A strict fold of writes agrees with the plain one if all of them are in range. -/
theorem foldlM_put? (h : ∀ b ∈ l, index b < xs.size) :
    l.foldlM (fun xs b => put? xs (index b) (value b)) xs =
      some (l.foldl (fun xs b => xs.setIfInBounds (index b) (value b)) xs) := by
  refine foldlM_eq_some (·.size = xs.size) rfl fun ys hys b hb => ⟨if_pos ?_, ?_⟩
  · rw [hys]
    exact h b hb
  · rw [Array.size_setIfInBounds, hys]

theorem size_foldl_setIfInBounds (index : β → Nat) (value : β → α) (l : List β) (xs : Array α) :
    (l.foldl (fun xs b => xs.setIfInBounds (index b) (value b)) xs).size = xs.size :=
  List.foldlRecOn (motive := fun ys : Array α => ys.size = xs.size) l _ rfl fun ys hys b _ => by
    rw [Array.size_setIfInBounds, hys]

/-- An entry is what was written to it last, or what it was if nothing was. -/
theorem getElem?_foldl_setIfInBounds (index : β → Nat) (value : β → α) (l : List β)
    (hi : i < xs.size) :
    let after := l.foldl (fun xs b => xs.setIfInBounds (index b) (value b)) xs
    (∃ b ∈ l, index b = i ∧ after[i]? = some (value b)) ∨
      (∀ b ∈ l, index b ≠ i) ∧ after[i]? = xs[i]? := by
  induction l generalizing xs with
  | nil => exact .inr ⟨nofun, rfl⟩
  | cons b rest ih =>
    obtain ⟨c, hc, hindex, hc'⟩ | ⟨hnone, hkept⟩ :=
      ih (show i < (xs.setIfInBounds (index b) (value b)).size by rwa [Array.size_setIfInBounds])
    · exact .inl ⟨c, List.mem_cons_of_mem _ hc, hindex, hc'⟩
    · by_cases hb : index b = i
      · refine .inl ⟨b, List.mem_cons_self, hb, hkept.trans ?_⟩
        rw [hb, Array.getElem?_setIfInBounds_self_of_lt hi]
      · refine .inr ⟨List.forall_mem_cons.2 ⟨hb, hnone⟩, hkept.trans ?_⟩
        rw [Array.getElem?_setIfInBounds_ne hb]

/-- Strictly reading some entries agrees with plainly reading them if all of them are there. -/
theorem mapM_getElem?_eq {slots : Array Nat} (d : α) (h : ∀ slot ∈ slots, slot < xs.size) :
    slots.mapM (fun slot => xs[slot]?) = some (slots.map fun slot => xs.getD slot d) := by
  rw [Array.mapM_eq_mapM_toList]
  have hlist : ∀ l : List Nat, (∀ slot ∈ l, slot < xs.size) →
      l.mapM (fun slot => xs[slot]?) = some (l.map fun slot => xs.getD slot d) := by
    intro l hl
    induction l with
    | nil => rfl
    | cons slot rest ih =>
      have hslot := hl slot List.mem_cons_self
      rw [List.mapM_cons, ih fun slot hs => hl slot (List.mem_cons_of_mem _ hs),
        Array.getElem?_eq_getElem hslot, List.map_cons, Array.getD, dif_pos hslot]
      rfl
  rw [hlist _ fun slot hs => h slot (Array.mem_toList_iff.1 hs)]
  show some (slots.toList.map _).toArray = _
  rw [List.map_toArray.symm]

/-- A strict sequence agrees with the plain one if its parts do. -/
theorem bind_eq_some_bind {ε : Type} {x : ExceptT ε Option α} {y : Except ε α}
    {f : α → ExceptT ε Option β} {g : α → Except ε β} (hx : x.run = some y)
    (hf : ∀ a, y = .ok a → (f a).run = some (g a)) : (x >>= f).run = some (y >>= g) := by
  rw [ExceptT.run_bind, hx]
  cases y with
  | error e => rfl
  | ok a => exact hf a rfl

/-! ## String maps -/

namespace StringMap

/-- As `build`, if every index is one of the stream's table. -/
def build? (stream extension : Array String) : Option (Array String × StringMap) := do
  let (toStream, table) := indexAll stream extension.toList #[]
  let ofStream ← toStream.toList.zipIdx.foldlM
    (fun (ofStream : Array (Option Nat)) p => put? ofStream p.1 (some p.2))
    (Array.replicate table.size none)
  return (table, ⟨toStream, ofStream⟩)

/-- Every index that is handed out is one of the table that has been added to. -/
theorem lt_size_of_mem_indexAll {table : Array String} {texts : List String} {indices : Array Nat}
    (h : ∀ k ∈ indices, k < table.size) :
    ∀ k ∈ (indexAll table texts indices).1, k < (indexAll table texts indices).2.size := by
  induction texts generalizing table indices with
  | nil => exact h
  | cons text rest ih =>
    obtain ⟨hadded, hkept⟩ := Assembly.intern_placed table text
    refine ih fun k hk => ?_
    rcases Array.mem_push.1 hk with hk | rfl
    · exact (Array.getElem?_eq_some_iff.1 (hkept (Array.getElem?_eq_getElem (h k hk)))).1
    · exact (Array.getElem?_eq_some_iff.1 hadded).1

theorem build?_eq (stream extension : Array String) :
    build? stream extension = some (build stream extension) := by
  have hlt : ∀ k ∈ (indexAll stream extension.toList #[]).1,
      k < (indexAll stream extension.toList #[]).2.size := lt_size_of_mem_indexAll nofun
  generalize hall : indexAll stream extension.toList #[] = all at hlt
  simp only [build?, build, hall]
  rw [foldlM_put?]
  · rfl
  · rintro ⟨k, own⟩ hk
    rw [Array.size_replicate]
    exact hlt k (Array.mem_toList_iff.1 (List.fst_mem_of_mem_zipIdx hk))

end StringMap

/-! ## Places -/

/-- What a name stands for in the outputs of a model. -/
inductive Part where
  | output
  | value
  | urgency
deriving DecidableEq

namespace Schema

/-- Where a vector has a value of some type. -/
structure Place where
  type : ValueType
  slot : Nat

def Place.range (p : Place) : Nat × Nat :=
  (p.slot, p.type.width)

def Entry.place (e : Entry) : (Part × String) × Place :=
  ((.output, e.name), ⟨e.type, e.slot.toNat⟩)

def Channel.places (c : Channel) : List ((Part × String) × Place) :=
  [((.value, c.name), ⟨c.type, c.valueSlot.toNat⟩),
    ((.urgency, c.name), ⟨.number, c.urgencySlot.toNat⟩)]

/-- The places of the outputs of a model, each under what it holds. -/
def places (s : Schema) : List ((Part × String) × Place) :=
  s.outputs.map Entry.place ++ s.channels.flatMap Channel.places

/-- Input slots that hold texts. -/
def textInputs (s : Schema) : List Nat :=
  (s.inputs.filter (·.type == .string)).map (·.slot.toNat)

/-- Output slots that hold texts, the values of channels included. -/
def textOutputs (s : Schema) : List Nat :=
  (s.outputs.filter (·.type == .string)).map (·.slot.toNat) ++
    (s.channels.filter (·.type == .string)).map (·.valueSlot.toNat)

/-- The inputs of a model, laid out as outputs. -/
def inputSide (s : Schema) : Schema where
  outputs := s.inputs

/-- One of the slots of a range. -/
def Within (slot : Nat) (range : Nat × Nat) : Prop :=
  ∃ i < range.2, slot = range.1 + i

variable {s : Schema} {a : (Part × String) × Place}

theorem mem_places :
    a ∈ s.places ↔ (∃ e ∈ s.outputs, a = e.place) ∨ ∃ c ∈ s.channels, a ∈ c.places := by
  simp only [places, List.mem_append, List.mem_map, List.mem_flatMap, eq_comm]

theorem place_le (ha : a ∈ s.places) : a.2.slot + a.2.type.width ≤ s.outputSize := by
  obtain ⟨houtputs, hchannels⟩ := outputSize_le_iff.1 (Nat.le_refl s.outputSize)
  rcases mem_places.1 ha with ⟨e, he, rfl⟩ | ⟨c, hc, ha⟩
  · exact houtputs e he
  · obtain ⟨hvalue, hurgency⟩ := Nat.max_le.1 (hchannels c hc)
    rcases List.mem_pair.1 ha with rfl | rfl
    exacts [hvalue, hurgency]

theorem outputSize_of_places (h : s.places = []) : s.outputSize = 0 := by
  obtain ⟨houtputs, hchannels⟩ := List.append_eq_nil_iff.1 h
  refine Nat.le_zero.1 (outputSize_le_iff.2 ⟨fun e he => ?_, fun c hc => ?_⟩)
  · cases List.map_eq_nil_iff.1 houtputs ▸ he
  · cases List.flatMap_eq_nil_iff.1 hchannels c hc

theorem textOutputs_eq (s : Schema) :
    s.textOutputs = (s.places.filter (·.2.type == .string)).map (·.2.slot) := by
  rw [textOutputs, places, List.filter_append, List.map_append, List.filter_map, List.map_map]
  refine congrArg₂ (· ++ ·) rfl ?_
  induction s.channels with
  | nil => rfl
  | cons c rest ih =>
    rw [List.flatMap_cons, List.filter_append, List.map_append, ← ih]
    cases htype : c.type == .string <;> simp [Channel.places, htype]

theorem mem_textOutputs {slot : Nat} :
    slot ∈ s.textOutputs ↔ ∃ a ∈ s.places, a.2.type = .string ∧ a.2.slot = slot := by
  simp only [textOutputs_eq, List.mem_map, List.mem_filter, beq_iff_eq, and_assoc]

end Schema

/-! ## Bridges -/

namespace Bridge

/-- As `link`, if the slots exist. -/
def link? (slots : Array Nat) (own root width : Nat) : Option (Array Nat) :=
  (List.range width).foldlM (fun slots i => put? slots (own + i) (root + i)) slots

/-- As `linkEntries`, if the slots exist. -/
def linkEntries? (root : List Schema.Entry) :
    List Schema.Entry → Array Nat → ExceptT String Option (Array Nat)
  | [], slots => return slots
  | e :: rest, slots =>
    match root.find? fun r => r.name == e.name && r.type == e.type with
    | none => throw e.name
    | some r => do linkEntries? root rest (← link? slots e.slot.toNat r.slot.toNat e.type.width)

/-- As `linkChannels`, if the slots exist. -/
def linkChannels? (root : List Schema.Channel) :
    List Schema.Channel → Array Nat → ExceptT String Option (Array Nat)
  | [], slots => return slots
  | c :: rest, slots =>
    match root.find? fun r => r.name == c.name && r.type == c.type with
    | none => throw c.name
    | some r => do
      let slots ← link? slots c.valueSlot.toNat r.valueSlot.toNat c.type.width
      linkChannels? root rest (← put? slots c.urgencySlot.toNat r.urgencySlot.toNat)

/-- As `build`, if the slots exist. -/
def build? (root own : Schema) (strings : StringMap) : ExceptT String Option Bridge := do
  let inputs ← linkEntries? root.inputs own.inputs (Array.replicate own.inputSize 0)
  let outputs ← linkEntries? root.outputs own.outputs (Array.replicate own.outputSize 0)
  let outputs ← linkChannels? root.channels own.channels outputs
  return {
    inputs
    outputs
    stringInputs := (own.inputs.filter (·.type == .string)).map (·.slot.toNat)
    stringOutputs := (own.outputs.filter (·.type == .string)).map (·.slot.toNat) ++
      (own.channels.filter (·.type == .string)).map (·.valueSlot.toNat)
    strings }

/-- As `recode`, if the slots exist. -/
def recode? (f : Float → Float) (slots : List Nat) (values : Array Float) : Option (Array Float) :=
  slots.foldlM (change? f) values

/-- As `readInputs`, if the slots exist. -/
def readInputs? (b : Bridge) (inputs : Array Float) : Option (Array Float) := do
  recode? b.strings.enter b.stringInputs (← b.inputs.mapM fun slot => inputs[slot]?)

/-- As `readOutputs`, if the slots exist. -/
def readOutputs? (b : Bridge) (outputs : Array Float) : Option (Array Float) := do
  recode? b.strings.enter b.stringOutputs (← b.outputs.mapM fun slot => outputs[slot]?)

/-- As `writeOutputs`, if the slots exist. -/
def writeOutputs? (b : Bridge) (own outputs : Array Float) : Option (Array Float) := do
  let own ← recode? b.strings.leave b.stringOutputs own
  (own.toList.zip b.outputs.toList).foldlM (fun outputs p => put? outputs p.2 p.1) outputs

section Build

variable {slots : Array Nat} {own root width bound : Nat}
variable {after : Array Nat}

theorem size_link : (link slots own root width).size = slots.size :=
  size_foldl_setIfInBounds _ _ _ _

theorem link?_eq (h : own + width ≤ slots.size) :
    link? slots own root width = some (link slots own root width) := by
  refine foldlM_put? fun i hi => ?_
  have := List.mem_range.1 hi
  omega

theorem linkEntries?_eq {root own : List Schema.Entry} (h : ∀ e ∈ own, e.stop ≤ slots.size) :
    (linkEntries? root own slots).run = some (linkEntries root own slots) := by
  induction own generalizing slots with
  | nil => rfl
  | cons e rest ih =>
    cases hfind : root.find? fun r => r.name == e.name && r.type == e.type with
    | none => simp only [linkEntries?, linkEntries, hfind]; rfl
    | some r =>
      simp only [linkEntries?, linkEntries, hfind, link?_eq (h e List.mem_cons_self)]
      exact ih fun e he => size_link.symm ▸ h e (List.mem_cons_of_mem _ he)

theorem linkChannels?_eq {root own : List Schema.Channel} (h : ∀ c ∈ own, c.stop ≤ slots.size) :
    (linkChannels? root own slots).run = some (linkChannels root own slots) := by
  induction own generalizing slots with
  | nil => rfl
  | cons c rest ih =>
    obtain ⟨hvalue, hurgency⟩ := Nat.max_le.1 (h c List.mem_cons_self)
    cases hfind : root.find? fun r => r.name == c.name && r.type == c.type with
    | none => simp only [linkChannels?, linkChannels, hfind]; rfl
    | some r =>
      have hput := put?_eq
        (size_link.symm ▸ hurgency : c.urgencySlot.toNat <
          (link slots c.valueSlot.toNat r.valueSlot.toNat c.type.width).size) r.urgencySlot.toNat
      simp only [linkChannels?, linkChannels, hfind, link?_eq hvalue]
      show (liftM (put? _ _ _) >>= _ : ExceptT String Option _).run = _
      rw [hput]
      refine ih fun c hc => ?_
      rw [Array.size_setIfInBounds, size_link]
      exact h c (List.mem_cons_of_mem _ hc)

/-! ### Links -/

/-- Let places lead to others. -/
def linkAll (runs : List (((Part × String) × Schema.Place) × (Part × String) × Schema.Place))
    (slots : Array Nat) : Array Nat :=
  runs.foldl (fun slots run => link slots run.1.2.slot run.2.2.slot run.1.2.type.width) slots

/-- Places have been led to others of the same names and types. -/
def Linked (root own : List ((Part × String) × Schema.Place)) (slots after : Array Nat) : Prop :=
  ∃ runs, after = linkAll runs slots ∧ runs.map Prod.fst = own ∧
    ∀ run ∈ runs, run.2 ∈ root ∧ run.2.1 = run.1.1 ∧ run.2.2.type = run.1.2.type

theorem found_of_find? {name : α → String} {type : α → ValueType} {l : List α} {n : String}
    {t : ValueType} {r : α} (h : (l.find? fun r => name r == n && type r == t) = some r) :
    r ∈ l ∧ name r = n ∧ type r = t := by
  have hfound := List.find?_some h
  obtain ⟨hname, htype⟩ := Bool.and_eq_true_iff.1 hfound
  exact ⟨List.mem_of_find?_eq_some h, eq_of_beq hname, eq_of_beq htype⟩

theorem linkEntries_linked {root own : List Schema.Entry}
    (h : linkEntries root own slots = .ok after) :
    Linked (root.map Schema.Entry.place) (own.map Schema.Entry.place) slots after := by
  induction own generalizing slots with
  | nil =>
    cases h
    exact ⟨[], rfl, rfl, nofun⟩
  | cons e rest ih =>
    rw [linkEntries] at h
    split at h
    · cases h
    · next r hfind =>
      obtain ⟨hmem, hname, htype⟩ := found_of_find? hfind
      obtain ⟨runs, rfl, hown, hruns⟩ := ih h
      refine ⟨(e.place, r.place) :: runs, rfl, congrArg (e.place :: ·) hown,
        List.forall_mem_cons.2 ⟨⟨List.mem_map_of_mem hmem, ?_, htype⟩, hruns⟩⟩
      exact congrArg (Prod.mk Part.output) hname

theorem linkChannels_linked {root own : List Schema.Channel}
    (h : linkChannels root own slots = .ok after) :
    Linked (root.flatMap Schema.Channel.places) (own.flatMap Schema.Channel.places) slots
      after := by
  induction own generalizing slots with
  | nil =>
    cases h
    exact ⟨[], rfl, rfl, nofun⟩
  | cons c rest ih =>
    rw [linkChannels] at h
    split at h
    · cases h
    · next r hfind =>
      obtain ⟨hmem, hname, htype⟩ := found_of_find? hfind
      have hplace {a : (Part × String) × Schema.Place} (ha : a ∈ r.places) :
          a ∈ root.flatMap Schema.Channel.places := List.mem_flatMap.2 ⟨r, hmem, ha⟩
      obtain ⟨runs, rfl, hown, hruns⟩ := ih h
      refine ⟨c.places.zip r.places ++ runs, rfl, congrArg (c.places ++ ·) hown,
        List.forall_mem_cons.2 ⟨⟨hplace List.mem_cons_self, ?_, htype⟩, List.forall_mem_cons.2
          ⟨⟨hplace (List.mem_cons_of_mem _ List.mem_cons_self), ?_, rfl⟩, hruns⟩⟩⟩
      · exact congrArg (Prod.mk Part.value) hname
      · exact congrArg (Prod.mk Part.urgency) hname

theorem Linked.size {root own : List ((Part × String) × Schema.Place)}
    (h : Linked root own slots after) : after.size = slots.size := by
  obtain ⟨runs, rfl, -⟩ := h
  exact List.foldlRecOn (motive := fun ys : Array Nat => ys.size = slots.size) runs _ rfl
    fun ys hys run _ => size_link.trans hys

/-- A slot leads where it has been linked to last, or where it did before. -/
theorem Linked.getElem? {root own : List ((Part × String) × Schema.Place)} {k : Nat}
    (h : Linked root own slots after) (hk : k < slots.size) :
    (∃ a ∈ own, ∃ r ∈ root, r.1 = a.1 ∧ r.2.type = a.2.type ∧ ∃ i < a.2.type.width,
        k = a.2.slot + i ∧ after[k]? = some (r.2.slot + i)) ∨
      (∀ a ∈ own, ¬ Schema.Within k a.2.range) ∧ after[k]? = slots[k]? := by
  obtain ⟨runs, rfl, rfl, hruns⟩ := h
  let steps := runs.flatMap fun run =>
    (List.range run.1.2.type.width).map fun i => (run.1.2.slot + i, run.2.2.slot + i)
  have hlinks : linkAll runs slots =
      steps.foldl (fun slots step => slots.setIfInBounds step.1 step.2) slots := by
    rw [linkAll, List.foldl_flatMap]
    simp only [List.foldl_map]
    rfl
  rw [hlinks]
  obtain ⟨step, hstep, hindex, hvalue⟩ | ⟨hnone, hkept⟩ :=
    getElem?_foldl_setIfInBounds Prod.fst Prod.snd steps hk
  · obtain ⟨run, hrun, hstep⟩ := List.mem_flatMap.1 hstep
    obtain ⟨i, hi, rfl⟩ := List.mem_map.1 hstep
    obtain ⟨hr, hkey, htype⟩ := hruns run hrun
    exact .inl ⟨run.1, List.mem_map_of_mem hrun, run.2, hr, hkey, htype, i, List.mem_range.1 hi,
      hindex.symm, hvalue⟩
  · refine .inr ⟨List.forall_mem_map.2 fun run hrun => ?_, hkept⟩
    rintro ⟨i, hi, rfl⟩
    exact hnone (run.1.2.slot + i, run.2.2.slot + i) (List.mem_flatMap.2 ⟨run, hrun,
      List.mem_map.2 ⟨i, List.mem_range.2 hi, rfl⟩⟩) rfl

theorem build_ok {root own : Schema} {strings : StringMap} {b : Bridge}
    (h : build root own strings = .ok b) :
    Linked root.places own.places (Array.replicate own.outputSize 0) b.outputs ∧
      b.strings = strings ∧ b.stringInputs = own.textInputs ∧
      b.stringOutputs = own.textOutputs := by
  obtain ⟨inputs, -, h⟩ := bind_eq_ok.1 h
  obtain ⟨linked, hlinked, h⟩ := bind_eq_ok.1 h
  obtain ⟨outputs, houtputs, h⟩ := bind_eq_ok.1 h
  cases h
  refine ⟨?_, rfl, rfl, rfl⟩
  obtain ⟨runs, rfl, hown, hruns⟩ := linkEntries_linked hlinked
  obtain ⟨runs', rfl, hown', hruns'⟩ := linkChannels_linked houtputs
  refine ⟨runs ++ runs', List.foldl_append.symm, ?_, List.forall_mem_append.2 ⟨?_, ?_⟩⟩
  · rw [List.map_append, hown, hown']
    rfl
  · exact fun run hrun => (hruns run hrun).imp_left (List.mem_append_left _)
  · exact fun run hrun => (hruns' run hrun).imp_left (List.mem_append_right _)

theorem build?_eq (root own : Schema) (strings : StringMap) :
    (build? root own strings).run = some (build root own strings) := by
  obtain ⟨houtputs, hchannels⟩ := (Schema.outputSize_le_iff (s := own)).1 (Nat.le_refl _)
  refine bind_eq_some_bind (linkEntries?_eq ?_) fun inputs _ =>
    bind_eq_some_bind (linkEntries?_eq ?_) fun outputs hout =>
      bind_eq_some_bind (linkChannels?_eq ?_) fun _ _ => rfl
  · rw [Array.size_replicate]
    exact Schema.inputSize_le_iff.1 (Nat.le_refl _)
  · rw [Array.size_replicate]
    exact houtputs
  · rw [(linkEntries_linked hout).size, Array.size_replicate]
    exact hchannels

end Build

/-- A bridge between the vectors of two models. -/
structure Fits (root own : Schema) (b : Bridge) : Prop where
  inputs_size : b.inputs.size = own.inputSize
  outputs_size : b.outputs.size = own.outputSize
  inputs_lt : ∀ slot ∈ b.inputs, slot < root.inputSize
  outputs_lt : ∀ slot ∈ b.outputs, slot < root.outputSize
  stringInputs_lt : ∀ slot ∈ b.stringInputs, slot < own.inputSize
  stringOutputs_lt : ∀ slot ∈ b.stringOutputs, slot < own.outputSize

/-- The inputs of a bridge, in the place of its outputs. -/
def inputSide (b : Bridge) : Bridge where
  inputs := #[]
  outputs := b.inputs
  stringInputs := []
  stringOutputs := b.stringInputs
  strings := b.strings

section

variable {root own : Schema} {strings : StringMap} {b : Bridge}

theorem build_inputSide (h : build root own strings = .ok b) :
    build root.inputSide own.inputSide strings = .ok b.inputSide := by
  obtain ⟨inputs, hinputs, h⟩ := bind_eq_ok.1 h
  obtain ⟨linked, -, h⟩ := bind_eq_ok.1 h
  obtain ⟨outputs, -, h⟩ := bind_eq_ok.1 h
  cases h
  refine bind_eq_ok.2 ⟨#[], rfl, bind_eq_ok.2 ⟨inputs, hinputs, bind_eq_ok.2 ⟨inputs, rfl, ?_⟩⟩⟩
  simp only [Schema.inputSide, List.filter_nil, List.map_nil, List.append_nil]
  rfl

/-- A slot leads to one of the same name, or belongs to nothing and leads to the first one. -/
theorem outputs_cases (h : build root own strings = .ok b) {k slot : Nat}
    (hk : b.outputs[k]? = some slot) :
    (∃ a ∈ own.places, ∃ r ∈ root.places, r.1 = a.1 ∧ r.2.type = a.2.type ∧
        ∃ i < a.2.type.width, k = a.2.slot + i ∧ slot = r.2.slot + i) ∨
      k < own.outputSize ∧ (∀ a ∈ own.places, ¬ Schema.Within k a.2.range) ∧ slot = 0 := by
  obtain ⟨hlinked, -⟩ := build_ok h
  have hlt : k < own.outputSize := by
    simpa only [hlinked.size, Array.size_replicate] using (Array.getElem?_eq_some_iff.1 hk).1
  obtain ⟨a, ha, r, hr, hkey, htype, i, hi, hslot, hvalue⟩ | ⟨hnone, hkept⟩ :=
    hlinked.getElem? (k := k) (by rwa [Array.size_replicate])
  · exact .inl ⟨a, ha, r, hr, hkey, htype, i, hi, hslot, Option.some.inj (hk.symm.trans hvalue)⟩
  · rw [hk, Array.getElem?_replicate, if_pos hlt] at hkept
    exact .inr ⟨hlt, hnone, Option.some.inj hkept⟩

/-- Slots that belong to nothing lead to the first one, which exists because some other slot was
linked. -/
theorem outputs_fit (h : build root own strings = .ok b) :
    b.outputs.size = own.outputSize ∧ (∀ slot ∈ b.outputs, slot < root.outputSize) ∧
      ∀ slot ∈ b.stringOutputs, slot < own.outputSize := by
  obtain ⟨hlinked, -, -, htexts⟩ := build_ok h
  refine ⟨hlinked.size.trans Array.size_replicate, fun slot hslot => ?_, fun slot hslot => ?_⟩
  · obtain ⟨k, hk⟩ := Array.mem_iff_getElem?.1 hslot
    rcases outputs_cases h hk with ⟨a, -, r, hr, -, htype, i, hi, -, rfl⟩ | ⟨hlt, -, rfl⟩
    · exact Nat.lt_of_lt_of_le (Nat.add_lt_add_left (htype ▸ hi) _) (Schema.place_le hr)
    · obtain ⟨runs, -, hown, hruns⟩ := hlinked
      cases runs with
      | nil => rw [Schema.outputSize_of_places hown.symm] at hlt; omega
      | cons run _ =>
        have hle := Schema.place_le (hruns run List.mem_cons_self).1
        have hpos := run.2.2.type.width_pos
        omega
  · obtain ⟨a, ha, -, rfl⟩ := Schema.mem_textOutputs.1 (htexts ▸ hslot)
    have hle := Schema.place_le ha
    have hpos := a.2.type.width_pos
    omega

/-- A bridge that was built fits. -/
theorem Fits.of_build (h : build root own strings = .ok b) : b.Fits root own := by
  obtain ⟨hi, hilt, hitexts⟩ := outputs_fit (build_inputSide h)
  obtain ⟨ho, holt, hotexts⟩ := outputs_fit h
  exact ⟨hi, ho, hilt, holt, hitexts, hotexts⟩

end

/-! ### Crossing a bridge -/

theorem size_recode (f : Float → Float) (slots : List Nat) (values : Array Float) :
    (recode f slots values).size = values.size :=
  List.foldlRecOn (motive := fun ys : Array Float => ys.size = values.size) slots _ rfl
    fun ys hys slot _ => by rw [Array.size_modify, hys]

theorem recode?_eq {slots : List Nat} {values : Array Float} (f : Float → Float)
    (h : ∀ slot ∈ slots, slot < values.size) :
    recode? f slots values = some (recode f slots values) := by
  refine foldlM_eq_some (·.size = values.size) rfl fun ys hys slot hslot => ⟨if_pos ?_, ?_⟩
  · rw [hys]
    exact h slot hslot
  · rw [Array.size_modify, hys]

namespace Fits

variable {root own : Schema} {b : Bridge} {inputs outputs values : Array Float}

theorem readInputs?_eq (h : b.Fits root own) (hi : inputs.size = root.inputSize) :
    b.readInputs? inputs = some (b.readInputs inputs) := by
  rw [readInputs?, mapM_getElem?_eq 0.0 fun slot hslot => hi ▸ h.inputs_lt slot hslot]
  refine recode?_eq _ fun slot hslot => ?_
  rw [Array.size_map, h.inputs_size]
  exact h.stringInputs_lt slot hslot

theorem readOutputs?_eq (h : b.Fits root own) (ho : outputs.size = root.outputSize) :
    b.readOutputs? outputs = some (b.readOutputs outputs) := by
  rw [readOutputs?, mapM_getElem?_eq 0.0 fun slot hslot => ho ▸ h.outputs_lt slot hslot]
  refine recode?_eq _ fun slot hslot => ?_
  rw [Array.size_map, h.outputs_size]
  exact h.stringOutputs_lt slot hslot

theorem writeOutputs?_eq (h : b.Fits root own) (hv : values.size = own.outputSize)
    (ho : outputs.size = root.outputSize) :
    b.writeOutputs? values outputs = some (b.writeOutputs values outputs) := by
  rw [writeOutputs?, recode?_eq _ fun slot hslot => hv ▸ h.stringOutputs_lt slot hslot]
  refine foldlM_put? fun p hp => ho ▸ h.outputs_lt p.2 ?_
  exact Array.mem_toList_iff.1 (List.of_mem_zip hp).2

theorem size_readInputs (h : b.Fits root own) : (b.readInputs inputs).size = own.inputSize := by
  rw [readInputs, size_recode, Array.size_map, h.inputs_size]

theorem size_readOutputs (h : b.Fits root own) :
    (b.readOutputs outputs).size = own.outputSize := by
  rw [readOutputs, size_recode, Array.size_map, h.outputs_size]

end Fits

theorem size_writeOutputs (b : Bridge) (values outputs : Array Float) :
    (b.writeOutputs values outputs).size = outputs.size :=
  size_foldl_setIfInBounds _ _ _ _

end Bridge

/-! ## Stages -/

namespace Stage

/-- What the machine of a stage finds: its inputs, and its outputs before it runs. -/
def enter (stage : Stage) (inputs outputs : Array Float) : Array Float × Array Float :=
  match stage.bridge? with
  | some b => (b.readInputs inputs, b.readOutputs outputs)
  | none => (inputs, outputs)

/-- As `enter`, if the slots of the bridge exist. -/
def enter? (stage : Stage) (inputs outputs : Array Float) : Option (Array Float × Array Float) :=
  match stage.bridge? with
  | some b => do pure (← b.readInputs? inputs, ← b.readOutputs? outputs)
  | none => some (inputs, outputs)

/-- The stream's outputs after the machine of a stage left its own. -/
def write (stage : Stage) (outputs own : Array Float) : Array Float :=
  match stage.bridge? with
  | some b => b.writeOutputs own outputs
  | none => own

/-- As `write`, if the slots of the bridge exist. -/
def write? (stage : Stage) (outputs own : Array Float) : Option (Array Float) :=
  match stage.bridge? with
  | some b => b.writeOutputs? own outputs
  | none => some own

/-- What the run of its machine means for a stage. -/
def leave (stage : Stage) (outputs : Array Float) : Machine.Outcome → Outcome
  | .stopped signal s rest =>
    .stopped signal { stage with frame := s.toFrame } (stage.write outputs s.outputs) rest
  | .faulted f s => .faulted f { stage with frame := s.toFrame } (stage.write outputs s.outputs)

/-- As `leave`, if the slots of the bridge exist. -/
def leave? (stage : Stage) (outputs : Array Float) : Machine.Outcome → Option Outcome
  | .stopped signal s rest => do
    pure (.stopped signal { stage with frame := s.toFrame } (← stage.write? outputs s.outputs) rest)
  | .faulted f s => do
    pure (.faulted f { stage with frame := s.toFrame } (← stage.write? outputs s.outputs))

/-- As `run`, if the slots of the bridge exist. -/
def run? (stage : Stage) (limit fuel : Nat) (inputs outputs : Array Float) : Option Outcome := do
  let own ← stage.enter? inputs outputs
  let start : Machine := { toFrame := stage.frame, outputs := own.2 }
  stage.leave? outputs (start.run stage.model own.1 limit false fuel)

theorem run_eq (stage : Stage) (limit fuel : Nat) (inputs outputs : Array Float) :
    stage.run limit fuel inputs outputs = stage.leave outputs
      (Machine.run stage.model (stage.enter inputs outputs).1 limit false fuel
        { toFrame := stage.frame, outputs := (stage.enter inputs outputs).2 }) := by
  unfold run enter leave write
  cases stage.bridge? <;> rfl

/-- A stage that stops has executed an instruction. -/
theorem fuel_lt_of_run? {stage next : Stage} {fuel rest : Nat} {inputs outputs after : Array Float}
    {signal : Signal}
    (h : stage.run? limit fuel inputs outputs = some (.stopped signal next after rest)) :
    rest < fuel := by
  obtain ⟨own, -, h⟩ := Option.bind_eq_some_iff.1 h
  dsimp only at h
  generalize hrun : Machine.run _ _ _ _ _ _ = o at h
  cases o with
  | stopped signal s rest =>
    obtain ⟨written, -, h⟩ := Option.bind_eq_some_iff.1 h
    cases h
    exact Machine.fuel_lt_of_run hrun
  | faulted f s =>
    obtain ⟨written, -, h⟩ := Option.bind_eq_some_iff.1 h
    cases h

/-- A stage that stands in the vectors of a stream: it runs the model that these belong to, or is
behind a bridge that leads there. -/
def Fits (root : Model) (stage : Stage) : Prop :=
  match stage.bridge? with
  | none => stage.model = root
  | some b => b.Fits root.schema stage.model.schema

/-- How running a stage of a fit model may end: at a signal, from which it can go on, or at its
instruction limit. -/
def Outcome.Safe (root : Model) (stage : Stage) (f : Fitness stage.model) (limit : Nat) :
    Outcome → Prop
  | .stopped signal next outputs _ =>
    outputs.size = root.outputSize ∧ ∃ frame, next = { stage with frame } ∧
      match signal with
      | .halt => True
      | .wait _ => frame.Safe f
      | .pause point => ∃ p, stage.model.points[point]? = some p ∧
        Frame.Safe f { frame with ip := p.defaultOffset.toNat }
  | .faulted fault next _ => fault = .instructionLimit limit ∧ ∃ frame, next = { stage with frame }

namespace Fits

variable {root : Model} {stage : Stage} {inputs outputs own : Array Float} {f : Fitness stage.model}

theorem enter?_eq (h : stage.Fits root) (hi : inputs.size = root.inputSize)
    (ho : outputs.size = root.outputSize) :
    stage.enter? inputs outputs = some (stage.enter inputs outputs) := by
  unfold Fits at h
  unfold enter? enter
  cases hb : stage.bridge? with
  | none => rfl
  | some b =>
    rw [hb] at h
    dsimp only
    rw [h.readInputs?_eq hi, h.readOutputs?_eq ho]
    rfl

theorem size_enter (h : stage.Fits root) (hi : inputs.size = root.inputSize)
    (ho : outputs.size = root.outputSize) :
    (stage.enter inputs outputs).1.size = stage.model.inputSize ∧
      (stage.enter inputs outputs).2.size = stage.model.outputSize := by
  unfold Fits at h
  unfold enter
  cases hb : stage.bridge? with
  | none =>
    rw [hb] at h
    exact ⟨h ▸ hi, h ▸ ho⟩
  | some b =>
    rw [hb] at h
    exact ⟨h.size_readInputs, h.size_readOutputs⟩

theorem write?_eq (h : stage.Fits root) (hown : own.size = stage.model.outputSize)
    (ho : outputs.size = root.outputSize) :
    stage.write? outputs own = some (stage.write outputs own) := by
  unfold Fits at h
  unfold write? write
  cases hb : stage.bridge? with
  | none => rfl
  | some b =>
    rw [hb] at h
    exact h.writeOutputs?_eq hown ho

theorem size_write (h : stage.Fits root) (hown : own.size = stage.model.outputSize)
    (ho : outputs.size = root.outputSize) : (stage.write outputs own).size = root.outputSize := by
  unfold Fits at h
  unfold write
  cases hb : stage.bridge? with
  | none =>
    rw [hb] at h
    exact h ▸ hown
  | some b => exact (b.size_writeOutputs own outputs).trans ho

theorem leave?_eq (h : stage.Fits root) (ho : outputs.size = root.outputSize) {o : Machine.Outcome}
    (hsafe : o.Safe f limit) :
    stage.leave? outputs o = some (stage.leave outputs o) ∧
      (stage.leave outputs o).Safe root stage f limit := by
  cases o with
  | stopped signal s rest =>
    have hsize : s.outputs.size = stage.model.outputSize := by
      cases signal with
      | halt => exact hsafe
      | wait seconds => exact Machine.Safe.outputs hsafe
      | pause point =>
        obtain ⟨p, -, hs⟩ := hsafe
        exact hs.outputs
    constructor
    · simp only [leave?, leave, h.write?_eq hsize ho]
      rfl
    · refine ⟨h.size_write hsize ho, s.toFrame, rfl, ?_⟩
      cases signal with
      | halt => trivial
      | wait seconds => exact Machine.Safe.toSafe hsafe
      | pause point =>
        obtain ⟨p, hp, hs⟩ := hsafe
        exact ⟨p, hp, hs.toSafe⟩
  | faulted fault s =>
    obtain ⟨hfault, hs⟩ := hsafe
    constructor
    · simp only [leave?, leave, h.write?_eq hs.outputs ho]
      rfl
    · exact ⟨hfault, s.toFrame, rfl⟩

/-- A stage of a fit model stays within its vectors, and ends at a signal or at its limit. -/
theorem run?_eq (h : stage.Fits root) (hframe : stage.frame.Safe f)
    (hi : inputs.size = root.inputSize) (ho : outputs.size = root.outputSize) (limit fuel : Nat) :
    stage.run? limit fuel inputs outputs = some (stage.run limit fuel inputs outputs) ∧
      (stage.run limit fuel inputs outputs).Safe root stage f limit := by
  obtain ⟨hown, hownOutputs⟩ := h.size_enter hi ho
  have hstart : Machine.Safe f
      { toFrame := stage.frame, outputs := (stage.enter inputs outputs).2 } :=
    ⟨hframe, hownOutputs⟩
  obtain ⟨hleave, hsafe⟩ := h.leave?_eq ho (hstart.run hown limit false fuel)
  rw [run_eq]
  refine ⟨?_, hsafe⟩
  rw [run?, h.enter?_eq hi ho]
  exact hleave

end Fits

end Stage

end Behavior
