import Behavior.Proofs.Acceptance

/-!
Where code came from.

Every step and every exit of a block has a place in the source, and so have the words that are
emitted for it. Marks are made where the place changes, and a mark that no word follows is replaced
by the next. So the marks ascend, and the last one before a word has its place.
-/

namespace Behavior

namespace DebugMap

variable {spans : Array (UInt32 × Span)} {offset : UInt32}

/-- The place of the last mark at or before an offset. -/
def lastBefore (marks : List (UInt32 × Span)) (offset : Nat) : Option Span :=
  marks.foldl (fun last p => if p.1.toNat ≤ offset then some p.2 else last) none

theorem lastBefore_concat (marks : List (UInt32 × Span)) (p : UInt32 × Span) (offset : Nat) :
    lastBefore (marks ++ [p]) offset =
      if p.1.toNat ≤ offset then some p.2 else lastBefore marks offset := by
  rw [lastBefore, List.foldl_append]
  rfl

/-- Marks that come later do not matter. -/
theorem lastBefore_append {marks later : List (UInt32 × Span)} {offset : Nat}
    (h : ∀ p ∈ later, offset < p.1.toNat) :
    lastBefore (marks ++ later) offset = lastBefore marks offset := by
  induction later using List.reverseRecOn with
  | nil => rw [List.append_nil]
  | append_singleton later p ih =>
    rw [← List.append_assoc, lastBefore_concat,
      if_neg (Nat.not_le.2 (h p (List.mem_append_right _ List.mem_cons_self)))]
    exact ih fun q hq => h q (List.mem_append_left _ hq)

/-- All marks from a position on come later. -/
def LaterFrom (spans : Array (UInt32 × Span)) (offset : UInt32) (i : Nat) : Prop :=
  ∀ j p, i ≤ j → spans[j]? = some p → offset < p.1

/-- A position that is the first one, or has a mark that is not later. -/
def Low (spans : Array (UInt32 × Span)) (offset : UInt32) (i : Nat) : Prop :=
  i = 0 ∨ ∃ p, spans[i]? = some p ∧ p.1 ≤ offset

theorem locate_spec (hasc : spans.toList.Pairwise (·.1 < ·.1)) {base size : Nat}
    (hend : base + size ≤ spans.size) (hlow : Low spans offset base)
    (hlater : LaterFrom spans offset (base + size)) :
    Low spans offset (locate spans offset base size) ∧
      LaterFrom spans offset (locate spans offset base size + 1) := by
  induction size using Nat.strong_induction_on generalizing base with
  | h size ih =>
    unfold locate
    split
    next hsize => exact ⟨hlow, fun j p hj => hlater j p (by omega)⟩
    next hsize =>
      have hmiddle : base + size / 2 < spans.size := by omega
      have hget := Array.getElem?_eq_getElem hmiddle
      generalize spans[base + size / 2] = p at hget
      simp only [hget]
      split
      next hle =>
        refine ih (size - size / 2) (by omega) (by omega) (.inr ⟨p, hget, hle⟩) ?_
        rwa [show base + size / 2 + (size - size / 2) = base + size by omega]
      next hnot =>
        refine ih (size - size / 2) (by omega) (by omega) hlow fun j q hj hq => ?_
        -- marks ascend, so those behind the middle come later with it
        obtain hlt | heq := Nat.lt_or_eq_of_le (show base + size / 2 ≤ j by omega)
        · obtain ⟨hi, rfl⟩ := Array.getElem?_eq_some_iff.1 hget
          obtain ⟨hj, rfl⟩ := Array.getElem?_eq_some_iff.1 hq
          exact UInt32.lt_trans (UInt32.not_le.1 hnot)
            (List.pairwise_iff_getElem.1 hasc _ _ hi hj hlt)
        · cases heq
          cases hget.symm.trans hq
          exact UInt32.not_le.1 hnot

/-- Halving finds the last mark that is not later. -/
theorem spanAt?_eq {d : DebugMap} (hasc : d.spans.toList.Pairwise (·.1 < ·.1)) (offset : UInt32) :
    d.spanAt? offset = lastBefore d.spans.toList offset.toNat := by
  have hend (j : Nat) (p : UInt32 × Span) (hj : 0 + d.spans.size ≤ j) (hp : d.spans[j]? = some p) :
      offset < p.1 := by
    rw [Array.getElem?_eq_none (by omega)] at hp
    cases hp
  obtain ⟨hlow, hlater⟩ := locate_spec hasc (Nat.zero_add _).le (.inl rfl) hend
  unfold spanAt?
  generalize locate d.spans offset 0 d.spans.size = i at hlow hlater
  rw [← List.take_append_drop (i + 1) d.spans.toList, lastBefore_append, List.take_add_one,
    Array.getElem?_toList]
  · cases hget : d.spans[i]? with
    | none =>
      obtain rfl | ⟨p, hp, -⟩ := hlow
      · rfl
      · cases hget.symm.trans hp
    | some p =>
      show (if p.1 ≤ offset then some p.2 else none) = lastBefore (_ ++ [p]) _
      simp only [lastBefore_concat, ← UInt32.le_iff_toNat_le]
      obtain rfl | ⟨q, hq, hle⟩ := hlow
      · rfl
      · cases hget.symm.trans hq
        rw [if_pos hle, if_pos hle]
  · intro p hp
    obtain ⟨j, hj⟩ := List.mem_iff_getElem?.1 hp
    rw [List.getElem?_drop, Array.getElem?_toList] at hj
    exact hlater _ p (Nat.le_add_right _ _) hj

end DebugMap

namespace Assembly

open DebugMap

/-- How many words an action appends. -/
def appended (act : Emit Unit) (s : State) : Nat :=
  (after act s).code.size - s.code.size

/-- For each word that is emitted for some steps, the place of its step. -/
def stepPlaces : List (Step × Span) → State → List Span
  | [], _ => []
  | (step, span) :: rest, s =>
    let s := after (mark span) s
    List.replicate (appended (emitStep step) s) span ++ stepPlaces rest (after (emitStep step) s)

/-- For each word that is emitted for some blocks, the place of its step or exit. -/
def blockPlaces (g : BlockGraph) (points : Array Typed.Point) : List Nat → State → List Span
  | [], _ => []
  | block :: rest, s =>
    let b := g.block block
    let s₀ := s.begin block g.flows[block]?
    let s₁ := after (mark b.exitSpan) (after (emitSteps b.steps) s₀)
    stepPlaces b.steps s₀ ++
      List.replicate (appended (emitExit points rest.head? b.exit) s₁) b.exitSpan ++
      blockPlaces g points rest (after (emitBlock g points block rest.head?) s)

/-- For each word of the code of a graph, the place of the step or exit that it was emitted for. -/
def places (g : BlockGraph) (points : Array Typed.Point) : List Span :=
  blockPlaces g points g.layout { starts := Array.replicate g.blocks.size none }

/-- What has been recorded of the places and the flows of what has been emitted. -/
structure Mapped (g : BlockGraph) (places : List Span) (s : State) : Prop where
  length : places.length = s.code.size
  ascending : s.spans.toList.Pairwise (·.1 < ·.1)
  le_size : ∀ p ∈ s.spans.toList, p.1.toNat ≤ s.code.size
  place : ∀ offset < s.code.size, lastBefore s.spans.toList offset = places[offset]?
  flows : s.flows.Pairwise fun a b => b.1 ≤ a.1
  flows_le : ∀ p ∈ s.flows, p.1.toNat ≤ s.code.size
  flow : ∀ (i start : Nat) name, s.starts[i]? = some (some start) → g.flows[i]? = some name →
    (start.toUInt32, name) ∈ s.flows

variable {g : BlockGraph} {points : Array Typed.Point} {list : List Span} {s t : State}

/-- Nothing but the code has changed, if at all. -/
structure Unmoved (s t : State) : Prop where
  spans : t.spans = s.spans
  flows : t.flows = s.flows

theorem Unmoved.steady (s : State) : Steady (Unmoved s) :=
  ⟨fun _ _ h => ⟨h.spans, h.flows⟩, fun _ _ h => ⟨h.spans, h.flows⟩⟩

/-- The marks before this offset stay, and this one comes last. -/
theorem Mapped.push (hs : Mapped g list s) (hle : s.code.size ≤ Word.maxOperand) (span : Span)
    {front : Array (UInt32 × Span)} (hasc : front.toList.Pairwise (·.1 < ·.1))
    (hlt : ∀ p ∈ front.toList, p.1 < s.code.size.toUInt32)
    (hplace : ∀ offset < s.code.size,
      lastBefore front.toList offset = lastBefore s.spans.toList offset) :
    let t := { s with spans := front.push (s.code.size.toUInt32, span) }
    Mapped g list t ∧
      ∀ offset, s.code.size ≤ offset → lastBefore t.spans.toList offset = some span := by
  intro t
  have hspans : t.spans.toList = front.toList ++ [(s.code.size.toUInt32, span)] := Array.toList_push
  have hhere := toNat_toUInt32_of_le hle
  refine ⟨⟨hs.length, ?_, ?_, ?_, hs.flows, hs.flows_le, hs.flow⟩, ?_⟩
  · rw [hspans, List.pairwise_append]
    exact ⟨hasc, List.pairwise_singleton _ _, fun p hp q hq => List.mem_singleton.1 hq ▸ hlt p hp⟩
  · rw [hspans]
    intro p hp
    rcases List.mem_append.1 hp with hp | hp
    · have := UInt32.lt_iff_toNat_lt.1 (hlt p hp)
      exact (hhere ▸ this).le
    · rw [List.mem_singleton.1 hp]
      exact hhere.le
  · intro offset hoffset
    rw [hspans, lastBefore_concat, if_neg (by rw [hhere]; exact Nat.not_le.2 hoffset),
      hplace offset hoffset, hs.place offset hoffset]
  · intro offset hoffset
    rw [hspans, lastBefore_concat, if_pos (by rw [hhere]; exact hoffset)]

/-- A mark says where the next words come from. -/
theorem Mapped.mark (hs : Mapped g list s) (hle : s.code.size ≤ Word.maxOperand) (span : Span) :
    Mapped g list (after (mark span) s) ∧
      ∀ offset, s.code.size ≤ offset →
        lastBefore (after (Assembly.mark span) s).spans.toList offset = some span := by
  have hhere := toNat_toUInt32_of_le hle
  rw [Assembly.mark, after_modify]
  dsimp only
  rcases List.eq_nil_or_concat' s.spans.toList with hnil | ⟨front, ⟨start, last⟩, hfront⟩
  · have hback : s.spans.back? = none := by rw [Array.toList_eq_nil_iff.1 hnil]; rfl
    rw [hback]
    exact hs.push hle span hs.ascending (hnil ▸ List.forall_mem_nil _) fun _ _ => rfl
  · have hspans : s.spans = front.toArray.push (start, last) := by
      rw [← s.spans.toArray_toList, hfront]
      simp
    have hback : s.spans.back? = some (start, last) := by rw [hspans, Array.back?_push]
    have hpop : s.spans.pop = front.toArray := by rw [hspans, Array.pop_push]
    obtain ⟨hasc, -, hlast⟩ := List.pairwise_append.1 (hfront ▸ hs.ascending)
    have hlt (p : UInt32 × Span) (hp : p ∈ front) : p.1 < start :=
      hlast p hp _ List.mem_cons_self
    have hstart : start.toNat ≤ s.code.size :=
      hs.le_size (start, last) (hfront ▸ List.mem_append_right _ List.mem_cons_self)
    rw [hback]
    dsimp only
    split
    next heq =>
      refine ⟨hs, fun offset hoffset => ?_⟩
      rw [hfront, lastBefore_concat, if_pos (hstart.trans hoffset), heq]
    split
    next heq =>
      rw [hpop]
      refine hs.push hle span hasc (fun p hp => heq ▸ hlt p hp) fun offset hoffset => ?_
      rw [hfront, lastBefore_concat, if_neg]
      rw [heq, hhere]
      exact Nat.not_le.2 hoffset
    next hne =>
      have hbefore : start < s.code.size.toUInt32 :=
        UInt32.lt_of_le_of_ne (by rwa [UInt32.le_iff_toNat_le, hhere]) hne
      refine hs.push hle span hs.ascending (fun p hp => ?_) fun _ _ => rfl
      rw [hfront] at hp
      rcases List.mem_append.1 hp with hp | hp
      · exact UInt32.lt_trans (hlt p hp) hbefore
      · rw [List.mem_singleton.1 hp]
        exact hbefore

/-- The words that follow a mark have its place. -/
theorem Mapped.emit (hs : Mapped g list s) (hle : s.code.size ≤ Word.maxOperand) (span : Span)
    {act : Emit Unit} {n : Nat} (happ : Appends act (after (Assembly.mark span) s) n)
    (hsame : Unmoved (after (Assembly.mark span) s) (after act (after (Assembly.mark span) s))) :
    Mapped g (list ++ List.replicate (appended act (after (Assembly.mark span) s)) span)
      (after act (after (Assembly.mark span) s)) := by
  obtain ⟨hmarked, hspan⟩ := hs.mark hle span
  have hcode := (mark_unchanged span s).1
  generalize after (Assembly.mark span) s = t at hmarked hspan happ hsame hcode
  have hn : appended act t = n := by rw [appended, happ.size, Nat.add_sub_cancel_left]
  rw [← hcode] at hspan
  rw [hn]
  constructor
  case length => rw [List.length_append, List.length_replicate, happ.size, hmarked.length]
  case ascending => rw [hsame.spans]; exact hmarked.ascending
  case le_size =>
    rw [hsame.spans, happ.size]
    exact fun p hp => (hmarked.le_size p hp).trans (Nat.le_add_right _ _)
  case place =>
    intro offset hlt
    rw [happ.size] at hlt
    rw [hsame.spans]
    by_cases hold : offset < t.code.size
    · rw [hmarked.place offset hold, List.getElem?_append_left (hmarked.length ▸ hold)]
    · have hle := Nat.le_of_not_lt hold
      rw [hspan offset hle, List.getElem?_append_right (hmarked.length ▸ hle), hmarked.length,
        List.getElem?_replicate_of_lt (by omega)]
  case flows => rw [hsame.flows]; exact hmarked.flows
  case flows_le =>
    rw [hsame.flows, happ.size]
    exact fun p hp => (hmarked.flows_le p hp).trans (Nat.le_add_right _ _)
  case flow => rw [happ.starts, hsame.flows]; exact hmarked.flow

theorem Mapped.begin (hs : Mapped g list s) (hle : s.code.size ≤ Word.maxOperand) (block : Nat) :
    Mapped g list (s.begin block g.flows[block]?) := by
  have hhere := toNat_toUInt32_of_le hle
  have hstarts {i start : Nat}
      (h : (s.starts.setIfInBounds block (some s.code.size))[i]? = some (some start)) :
      i = block ∧ start = s.code.size ∨ s.starts[i]? = some (some start) := by
    rw [Array.getElem?_setIfInBounds] at h
    split at h
    next heq =>
      split at h
      · cases h
        exact .inl ⟨heq.symm, rfl⟩
      · cases h
    · exact .inr h
  cases hflow : g.flows[block]? with
  | none =>
    refine { hs with flow := fun i start name hstart hname => ?_ }
    obtain ⟨rfl, -⟩ | hstart := hstarts hstart
    · cases hflow.symm.trans hname
    · exact hs.flow i start name hstart hname
  | some own =>
    refine { hs with
      flows := List.pairwise_cons.2 ⟨fun p hp => ?_, hs.flows⟩
      flows_le := List.forall_mem_cons.2 ⟨hhere.le, hs.flows_le⟩
      flow := fun i start name hstart hname => ?_ }
    · rw [UInt32.le_iff_toNat_le, hhere]
      exact hs.flows_le p hp
    · obtain ⟨rfl, rfl⟩ | hstart := hstarts hstart
      · cases hflow.symm.trans hname
        exact List.mem_cons_self
      · exact List.mem_cons_of_mem _ (hs.flow i start name hstart hname)

theorem Mapped.emitSteps {steps : List (Step × Span)} (hs : Mapped g list s)
    (hle : (after (emitSteps steps) s).code.size ≤ Word.maxOperand) :
    Mapped g (list ++ stepPlaces steps s) (after (emitSteps steps) s) := by
  induction steps generalizing s list with
  | nil => rwa [stepPlaces, List.append_nil]
  | cons head rest ih =>
    obtain ⟨step, span⟩ := head
    let t := after (Assembly.mark span) s
    have hmark : t.code.size = s.code.size + 0 := (mark_appends span s).size
    obtain ⟨m, happ, -⟩ := emitStep_placed step t
    obtain ⟨n, hrest, -⟩ := emitSteps_placed rest (after (emitStep step) t)
    have hsize : (after (Assembly.emitSteps rest) (after (emitStep step) t)).code.size ≤
      Word.maxOperand := hle
    have hstep := hs.emit (by rw [hrest.size, happ.size] at hsize; omega) span happ
      ((Unmoved.steady t).emitStep step t ⟨rfl, rfl⟩)
    rw [stepPlaces, ← List.append_assoc]
    exact ih hstep hsize

theorem Mapped.emitBlocks {layout : List Nat} (hs : Mapped g list s)
    (hle : (after (emitBlocks g points layout) s).code.size ≤ Word.maxOperand) :
    Mapped g (list ++ blockPlaces g points layout s) (after (emitBlocks g points layout) s) := by
  induction layout generalizing s list with
  | nil => rwa [blockPlaces, List.append_nil]
  | cons block rest ih =>
    let b := g.block block
    let s₁ := after (Assembly.emitSteps b.steps) (s.begin block g.flows[block]?)
    let s₂ := after (Assembly.mark b.exitSpan) s₁
    obtain ⟨m, hsteps, -⟩ := emitSteps_placed b.steps (s.begin block g.flows[block]?)
    have hmark : s₂.code.size = s₁.code.size + 0 := (mark_appends b.exitSpan s₁).size
    obtain ⟨n, hexit, -⟩ := emitExit_placed points rest.head? b.exit s₂
    have heq : after (emitBlock g points block rest.head?) s =
      after (emitExit points rest.head? b.exit) s₂ := emitBlock_eq g points block rest.head? s
    obtain ⟨-, hmono, -⟩ := emitBlocks_placed g points rest
      (after (emitBlock g points block rest.head?) s)
    have hsize : (after (emitExit points rest.head? b.exit) s₂).code.size ≤ Word.maxOperand := by
      rw [← heq]
      exact hmono.trans hle
    have hbegin : s₁.code.size = s.code.size + m := hsteps.size
    rw [hexit.size] at hsize
    have hs₁ := (hs.begin (by omega) block).emitSteps (show s₁.code.size ≤ _ by omega)
    have hblock := hs₁.emit (show s₁.code.size ≤ _ by omega) b.exitSpan hexit
      ((Unmoved.steady s₂).emitExit rest.head? (fun _ _ h => ⟨h.spans, h.flows⟩) s₂ ⟨rfl, rfl⟩)
    have hrest := ih (heq ▸ hblock) hle
    rw [List.append_assoc, List.append_assoc] at hrest
    rw [blockPlaces, List.append_assoc]
    exact hrest

theorem mapped_emission (hle : (emission g points).code.size ≤ Word.maxOperand) :
    Mapped g (places g points) (emission g points) := by
  have hstart : Mapped g [] { starts := Array.replicate g.blocks.size none } := by
    refine ⟨rfl, .nil, nofun, nofun, .nil, nofun, fun i start name h => ?_⟩
    rw [Array.getElem?_replicate] at h
    split at h <;> cases h
  exact hstart.emitBlocks hle

end Assembly

/-- The map of a compiled document. Marks ascend, and for every word of the code the place that is
found is that of the step or exit that the word was emitted for. The offsets of flows do not
descend, and every flow whose first block has code is found where this begins. -/
theorem places_of_compile {registry : Registry} {o : CompileOptions} {d : Document} {m : Model}
    (h : compile registry o d = .ok m) (hdebug : o.debugInfo = true) :
    ∃ p map, Typed.check registry d = .ok p ∧ m.debug? = some map ∧
      let g := p.toBlocks.optimize o.clamp.level
      map.spans.toList.Pairwise (·.1 < ·.1) ∧
      (Assembly.places g p.points).length = m.code.size ∧
      (∀ offset < m.code.size,
        map.spanAt? offset.toUInt32 = (Assembly.places g p.points)[offset]?) ∧
      map.flows.Pairwise (·.1 ≤ ·.1) ∧
      ∀ i ∈ g.layout, ∀ name, g.flows[i]? = some name →
        ∃ start, (Assembly.emission g p.points).starts[i]? = some (some start) ∧
          (start.toUInt32, name) ∈ map.flows := by
  obtain ⟨p, hp, h⟩ := bind_eq_ok.1 h
  obtain ⟨names, graph, hchecked⟩ := Typed.check_ok hp
  split at h
  next m' hm =>
    cases h
    obtain ⟨-, a, depth, ha, rfl, -⟩ := Typed.Program.toModel_eq hm
    obtain ⟨⟨hle, -⟩, hwords, -, -, -, hmap⟩ := Assembly.ofBlocks_ok ha
    obtain ⟨rank, -, hordered⟩ := hchecked.ordered
    have hmapped := Assembly.mapped_emission hle
    have hsize : a.code.size = (Assembly.emission _ p.points).code.size := mapM_array_size hwords
    refine ⟨p, a.debug, hp, if_pos hdebug, ?_⟩
    rw [hmap]
    refine ⟨hmapped.ascending, hmapped.length.trans hsize.symm, fun offset hlt => ?_,
      List.pairwise_reverse.2 hmapped.flows, fun i hi name hname => ?_⟩
    · have hlt : offset < (Assembly.emission _ p.points).code.size := hsize ▸ hlt
      rw [DebugMap.spanAt?_eq hmapped.ascending,
        Assembly.toNat_toUInt32_of_le (hlt.le.trans hle), hmapped.place offset hlt]
    · obtain ⟨start, -, hstart, -⟩ :=
        Assembly.start_emission p.points hi ((hordered.optimize _).inside i hi)
      exact ⟨start, hstart, List.mem_reverse.2 (hmapped.flow i start name hstart hname)⟩
  · cases h

/-- The jump from one flow to the next has a place and no code. -/
def placed : Document where
  name := "placed"
  flows := [⟨"main", [.assign ⟨1, 1⟩ "b" (.var {} "a"), .goto ⟨2, 1⟩ "next"], {}⟩,
    ⟨"next", [.assign ⟨3, 1⟩ "b" (.var {} "a")], {}⟩]

theorem places_of_compile_placed :
    ∃ m map, compile relayRegistry { debugInfo := true } placed = .ok m ∧ m.debug? = some map ∧
      map.spans.toList.Pairwise (·.1 < ·.1) ∧ map.flows.Pairwise (·.1 ≤ ·.1) := by
  have hcompiles : (compile relayRegistry { debugInfo := true } placed).toOption.isSome = true := by
    cbv
  cases h : compile relayRegistry { debugInfo := true } placed with
  | error e =>
    rw [h] at hcompiles
    cases hcompiles
  | ok m =>
    obtain ⟨p, map, -, hmap, hspans, -, -, hflows, -⟩ := places_of_compile h rfl
    exact ⟨m, map, rfl, hmap, hspans, hflows⟩

end Behavior
