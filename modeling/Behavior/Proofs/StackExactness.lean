import Behavior.Model.StackDepth
import Behavior.Proofs.Except
import Mathlib.Logic.Relation
import Mathlib.Order.Bounds.Basic

/-!
The stack analysis is exact. Where control can go is said without depths, and a depth for every
offset that can be reached is sound if each instruction finds what it pops, leaves what its
successors are entered with, and stays in the code. The analysis succeeds just where there are such
depths, and finds the greatest depth that an instruction leaves.

The analysis works off visits, the latest first. Nothing depends on that: whichever pending visit is
taken up next, the work comes to an end, and it ends well in every order or in none.
-/

namespace Behavior

namespace Opcode

/-- Whether control can go on to the next instruction, for a call once it returns. -/
def continues : Opcode → Bool
  | jump | ret | halt | pause => false
  | _ => true

/-- Whether the operand is an offset that control can go to. -/
def branches : Opcode → Bool
  | jump | jumpIfFalse | jumpIfTrue | call => true
  | _ => false

/-- Whether the stack has to be empty. -/
def needsEmpty : Opcode → Bool
  | call | ret | pause => true
  | _ => false

/-- Depth of the stack after an instruction that is entered with a given depth. -/
def leaves (op : Opcode) (depth : Nat) : Nat :=
  depth - op.pops + op.pushes

theorem leaves_of_needsEmpty {op : Opcode} (h : op.needsEmpty = true) (depth : Nat) :
    op.leaves depth = depth := by
  cases op with
  | call | ret | pause => rfl
  | _ => cases h

end Opcode

namespace StackDepth

variable {code : Array Word} {points : Array ContinuationPoint}
  {entry offset operand depth i deep : Nat} {op : Opcode} {n : Next}
variable {v : Visit} {r : Except StackError Nat} {dest d : Nat}

/-! ## What is to be found -/

/-- There is an instruction at an offset. -/
def Holds (code : Array Word) (offset : Nat) (op : Opcode) (operand : Nat) : Prop :=
  ∃ word, code[offset]? = some word ∧ Word.opcode? word = some op ∧ Word.operand word = operand

/-- Control can go from one offset to another. -/
inductive Edge (code : Array Word) (points : Array ContinuationPoint) : Nat → Nat → Prop
  | next {offset operand : Nat} {op : Opcode} (h : Holds code offset op operand)
      (hop : op.continues = true) : Edge code points offset (offset + 1)
  | branch {offset operand : Nat} {op : Opcode} (h : Holds code offset op operand)
      (hop : op.branches = true) : Edge code points offset operand
  | resume {offset operand : Nat} {p : ContinuationPoint} (h : Holds code offset .pause operand)
      (hp : points[operand]? = some p) : Edge code points offset p.defaultOffset.toNat

/-- Control can get from one offset to another. -/
abbrev Reaches (code : Array Word) (points : Array ContinuationPoint) : Nat → Nat → Prop :=
  Relation.ReflTransGen (Edge code points)

/-- One depth for every offset that can be reached, with which nothing can go wrong. -/
structure Sound (code : Array Word) (points : Array ContinuationPoint) (entry : Nat)
    (depth : Nat → Nat) : Prop where
  zero : depth entry = 0
  /-- Control stays in the code and meets only known opcodes. -/
  holds {i : Nat} (hi : Reaches code points entry i) : ∃ op operand, Holds code i op operand
  le_limit {i : Nat} (hi : Reaches code points entry i) : depth i ≤ limit
  pops_le {i operand : Nat} {op : Opcode} (hi : Reaches code points entry i)
    (h : Holds code i op operand) : op.pops ≤ depth i
  empty {i operand : Nat} {op : Opcode} (hi : Reaches code points entry i)
    (h : Holds code i op operand) (hop : op.needsEmpty = true) : depth i = 0
  point {i operand : Nat} (hi : Reaches code points entry i) (h : Holds code i .pause operand) :
    operand < points.size
  edge {i j operand : Nat} {op : Opcode} (hi : Reaches code points entry i)
    (h : Holds code i op operand) (hj : Edge code points i j) : depth j = op.leaves (depth i)

/-- The depths that instructions leave, of those that can be reached. -/
def left (code : Array Word) (points : Array ContinuationPoint) (entry : Nat) (depth : Nat → Nat) :
    Set Nat :=
  {d | ∃ i op operand, Reaches code points entry i ∧ Holds code i op operand ∧
    d = op.leaves (depth i)}

/-- Some depths are sound, and with them the greatest depth that an instruction leaves is `d`. -/
def Requires (code : Array Word) (points : Array ContinuationPoint) (entry d : Nat) : Prop :=
  ∃ depth, Sound code points entry depth ∧ IsGreatest (left code points entry depth) d

theorem Holds.unique {operand' : Nat} {op' : Opcode} (h : Holds code offset op operand)
    (h' : Holds code offset op' operand') :
    op = op' ∧ operand = operand' := by
  obtain ⟨word, hw, hop, rfl⟩ := h
  obtain ⟨word', hw', hop', rfl⟩ := h'
  cases hw.symm.trans hw'
  exact ⟨Option.some.inj (hop.symm.trans hop'), rfl⟩

theorem Holds.lt_size (h : Holds code offset op operand) :
    offset < code.size := by
  obtain ⟨word, hw, -⟩ := h
  exact (Array.getElem?_eq_some_iff.1 hw).1

/-- Sound depths are those at the entry carried along every edge, so there is one choice. -/
theorem Sound.unique {depth depth' : Nat → Nat} (h : Sound code points entry depth)
    (h' : Sound code points entry depth') (hi : Reaches code points entry i) :
    depth i = depth' i := by
  induction hi with
  | refl => rw [h.zero, h'.zero]
  | tail hi hedge ih =>
    obtain ⟨op, operand, hop⟩ := h.holds hi
    rw [h.edge hi hop hedge, h'.edge hi hop hedge, ih]

theorem Requires.unique {d' : Nat} (h : Requires code points entry d)
    (h' : Requires code points entry d') : d = d' := by
  obtain ⟨depth, hsound, hd⟩ := h
  obtain ⟨depth', hsound', hd'⟩ := h'
  have hleft : left code points entry depth = left code points entry depth' := by
    ext k
    constructor
    · rintro ⟨i, op, operand, hi, hop, rfl⟩
      exact ⟨i, op, operand, hi, hop, by rw [hsound.unique hsound' hi]⟩
    · rintro ⟨i, op, operand, hi, hop, rfl⟩
      exact ⟨i, op, operand, hi, hop, by rw [hsound.unique hsound' hi]⟩
  rw [hleft] at hd
  exact hd.unique hd'

/-- What an instruction leaves is entered somewhere, unless it leaves the stack as it is. -/
theorem Sound.leaves_le_limit {depth : Nat → Nat} (h : Sound code points entry depth)
    (hi : Reaches code points entry i) (hop : Holds code i op operand) :
    op.leaves (depth i) ≤ limit := by
  have hnext (hc : op.continues = true) : op.leaves (depth i) ≤ limit := by
    have hedge : Edge code points i (i + 1) := .next hop hc
    rw [← h.edge hi hop hedge]
    exact h.le_limit (hi.tail hedge)
  cases op with
  | jump | ret | halt | pause => exact h.le_limit hi
  | _ => exact hnext rfl

/-! ## One visit -/

theorem after_ok (h : after op offset depth = .ok deep) :
    op.pops ≤ depth ∧ deep = depth - op.pops + op.pushes ∧ deep ≤ limit := by
  unfold after at h
  split at h
  · cases h
  · next hle =>
    dsimp only at h
    split at h
    · cases h
    · next hlimit =>
      cases h
      exact ⟨Nat.le_of_not_lt hle, rfl, Nat.le_of_not_lt hlimit⟩

theorem target_ok {found : Nat} (h : target code offset dest = .ok found) : found = dest := by
  unfold target at h
  split at h
  · cases h
    rfl
  · cases h

theorem balanced_ok (h : balanced offset depth = .ok ()) : depth = 0 := by
  unfold balanced at h
  split at h
  · next hd => exact hd
  · cases h

/-- A visit finds an instruction, the depth it leaves and where it leads to. -/
theorem visit_ok (h : visit code points offset depth = .ok (deep, n)) :
    ∃ word op, code[offset]? = some word ∧ Word.opcode? word = some op ∧ op.pops ≤ depth ∧
      deep = depth - op.pops + op.pushes ∧ deep ≤ limit ∧
      next code points op (Word.operand word) offset deep = .ok n := by
  unfold visit at h
  split at h
  · cases h
  · next word hw =>
    split at h
    · cases h
    · next op hop =>
      obtain ⟨deep', hafter, h⟩ := bind_eq_ok.1 h
      obtain ⟨n', hnext, h⟩ := bind_eq_ok.1 h
      cases h
      obtain ⟨hpops, hdeep, hlimit⟩ := after_ok hafter
      exact ⟨word, op, hw, hop, hpops, hdeep, hlimit, hnext⟩

theorem target_of_lt (h : dest < code.size) (offset : Nat) : target code offset dest = .ok dest :=
  if_pos h

theorem balanced_of_zero (h : depth = 0) (offset : Nat) :
    balanced offset depth = .ok () :=
  if_pos h

theorem after_of_le (hpops : op.pops ≤ depth) (hle : op.leaves depth ≤ limit) (offset : Nat) :
    after op offset depth = .ok (op.leaves depth) := by
  unfold after Opcode.leaves at *
  rw [if_neg (Nat.not_lt.2 hpops)]
  exact if_neg (Nat.not_lt.2 hle)

/-- The edges from an offset are those of the instruction there. -/
theorem Holds.edge_iff {j : Nat} (h : Holds code offset op operand) :
    Edge code points offset j ↔
      op.continues = true ∧ j = offset + 1 ∨ op.branches = true ∧ j = operand ∨
        op = .pause ∧ ∃ p, points[operand]? = some p ∧ j = p.defaultOffset.toNat := by
  constructor
  · rintro (⟨h', hc⟩ | ⟨h', hb⟩ | ⟨h', hp⟩) <;> obtain ⟨rfl, rfl⟩ := h.unique h'
    · exact .inl ⟨hc, rfl⟩
    · exact .inr (.inl ⟨hb, rfl⟩)
    · exact .inr (.inr ⟨rfl, _, hp, rfl⟩)
  · rintro (⟨hc, rfl⟩ | ⟨hb, rfl⟩ | ⟨rfl, p, hp, rfl⟩)
    · exact .next h hc
    · exact .branch h hb
    · exact .resume h hp

/-- The visits after an instruction are those to where control can go from it, with what the
instruction leaves. -/
theorem next_ok (hop : Holds code offset op operand)
    (h : next code points op operand offset deep = .ok n) :
    (op.needsEmpty = true → deep = 0) ∧ (op = .pause → operand < points.size) ∧
      ∀ v, v ∈ n.visits ↔ Edge code points offset v.1 ∧ v.2 = deep := by
  simp only [hop.edge_iff]
  cases op with
  | jump =>
    obtain ⟨dest, hdest, ⟨⟩⟩ := bind_eq_ok.1 h
    obtain rfl := target_ok hdest
    simp [Next.visits, Opcode.needsEmpty, Opcode.continues, Opcode.branches, Prod.ext_iff]
  | jumpIfFalse | jumpIfTrue =>
    obtain ⟨dest, hdest, ⟨⟩⟩ := bind_eq_ok.1 h
    obtain rfl := target_ok hdest
    simp [Next.visits, Opcode.needsEmpty, Opcode.continues, Opcode.branches, Prod.ext_iff,
      or_and_right]
  | call =>
    obtain ⟨⟨⟩, hempty, hcall⟩ := bind_eq_ok.1 h
    obtain ⟨dest, hdest, ⟨⟩⟩ := bind_eq_ok.1 hcall
    obtain rfl := target_ok hdest
    rw [balanced_ok hempty]
    simp [Next.visits, Opcode.continues, Opcode.branches, Prod.ext_iff, or_and_right]
  | ret =>
    obtain ⟨⟨⟩, hempty, ⟨⟩⟩ := bind_eq_ok.1 h
    rw [balanced_ok hempty]
    simp [Next.visits, Opcode.continues, Opcode.branches]
  | pause =>
    obtain ⟨⟨⟩, hempty, hpause⟩ := bind_eq_ok.1 h
    rw [balanced_ok hempty]
    cases hp : points[operand]? with
    | none =>
      rw [hp] at hpause
      cases hpause
    | some p =>
      rw [hp] at hpause
      obtain ⟨dest, hdest, ⟨⟩⟩ := bind_eq_ok.1 hpause
      obtain rfl := target_ok hdest
      have hlt : operand < points.size := (Array.getElem?_eq_some_iff.1 hp).1
      simp [Next.visits, Opcode.continues, Opcode.branches, Prod.ext_iff, hlt]
  | halt =>
    cases h
    simp [Next.visits, Opcode.needsEmpty, Opcode.continues, Opcode.branches]
  | _ =>
    cases h
    simp [Next.visits, Opcode.needsEmpty, Opcode.continues, Opcode.branches, Prod.ext_iff]

/-- Control can go on after an instruction that finds the stack it needs, if it stays in the code. -/
theorem next_of_edges (hop : Holds code offset op operand)
    (hempty : op.needsEmpty = true → deep = 0) (hpoint : op = .pause → operand < points.size)
    (hedges : ∀ j, Edge code points offset j → j < code.size) :
    ∃ n, next code points op operand offset deep = .ok n := by
  have htarget (hb : op.branches = true) : target code offset operand = .ok operand :=
    target_of_lt (hedges operand (.branch hop hb)) offset
  cases op with
  | jump | jumpIfFalse | jumpIfTrue => exact ⟨_, bind_eq_ok.2 ⟨operand, htarget rfl, rfl⟩⟩
  | call =>
    exact ⟨_, bind_eq_ok.2 ⟨(), balanced_of_zero (hempty rfl) offset,
      bind_eq_ok.2 ⟨operand, htarget rfl, rfl⟩⟩⟩
  | ret => exact ⟨_, bind_eq_ok.2 ⟨(), balanced_of_zero (hempty rfl) offset, rfl⟩⟩
  | pause =>
    obtain ⟨p, hp⟩ : ∃ p, points[operand]? = some p := ⟨_, Array.getElem?_eq_getElem (hpoint rfl)⟩
    have hdefault := hedges _ (.resume hop hp)
    refine ⟨.goto (p.defaultOffset.toNat, 0),
      bind_eq_ok.2 ⟨(), balanced_of_zero (hempty rfl) offset, ?_⟩⟩
    rw [hp]
    exact bind_eq_ok.2 ⟨_, target_of_lt hdefault offset, rfl⟩
  | halt | _ => exact ⟨_, rfl⟩

theorem holds_of_visit (h : visit code points offset depth = .ok (deep, n)) :
    ∃ op operand, Holds code offset op operand ∧ op.pops ≤ depth ∧ deep = op.leaves depth ∧
      deep ≤ limit ∧ next code points op operand offset deep = .ok n := by
  obtain ⟨word, op, hw, hop, hpops, hdeep, hlimit, hnext⟩ := visit_ok h
  exact ⟨op, word.operand, ⟨word, hw, hop, rfl⟩, hpops, hdeep, hlimit, hnext⟩

theorem visit_eq (hop : Holds code offset op operand) (hpops : op.pops ≤ depth)
    (hle : op.leaves depth ≤ limit)
    (hnext : next code points op operand offset (op.leaves depth) = .ok n) :
    visit code points offset depth = .ok (op.leaves depth, n) := by
  obtain ⟨word, hw, hop, rfl⟩ := hop
  rw [visit, hw]
  dsimp only
  rw [hop]
  exact bind_eq_ok.2 ⟨_, after_of_le hpops hle offset, bind_eq_ok.2 ⟨n, hnext, rfl⟩⟩

/-- Where there are sound depths, every offset that can be reached can be visited. -/
theorem Sound.visit {depth : Nat → Nat} (h : Sound code points entry depth)
    (hi : Reaches code points entry i) :
    ∃ deep n, visit code points i (depth i) = .ok (deep, n) ∧
      ∀ v ∈ n.visits, Edge code points i v.1 ∧ depth v.1 = v.2 := by
  obtain ⟨op, operand, hop⟩ := h.holds hi
  have hempty : op.needsEmpty = true → op.leaves (depth i) = 0 := by
    intro hneeds
    rw [Opcode.leaves_of_needsEmpty hneeds, h.empty hi hop hneeds]
  have hedges : ∀ j, Edge code points i j → j < code.size := by
    intro j hj
    obtain ⟨op', operand', hop'⟩ := h.holds (hi.tail hj)
    exact hop'.lt_size
  have hpoint : op = .pause → operand < points.size := by
    rintro rfl
    exact h.point hi hop
  obtain ⟨n, hnext⟩ := next_of_edges hop hempty hpoint hedges
  refine ⟨_, n, visit_eq hop (h.pops_le hi hop) (h.leaves_le_limit hi hop) hnext, ?_⟩
  intro v hv
  obtain ⟨hedge, hv⟩ := ((next_ok hop hnext).2.2 v).1 hv
  exact ⟨hedge, by rw [hv, h.edge hi hop hedge]⟩

/-! ## Working off visits in any order -/

/-- What is known while visits are worked off. -/
structure Worklist where
  labels : Array (Option Nat)
  deepest : Nat
  pending : List Visit

/-- Nothing has been visited yet. -/
def Worklist.start (code : Array Word) (entry : Nat) : Worklist where
  labels := Array.replicate code.size none
  deepest := 0
  pending := [(entry, 0)]

namespace Worklist

/-- One of the pending visits is worked off, whichever. -/
inductive Turn (code : Array Word) (points : Array ContinuationPoint) :
    Worklist → Worklist → Prop
  | seen {labels : Array (Option Nat)} {deepest offset depth : Nat} {pending rest : List Visit}
      (hpick : pending.Perm ((offset, depth) :: rest))
      (hl : labels[offset]? = some (some depth)) :
      Turn code points ⟨labels, deepest, pending⟩ ⟨labels, deepest, rest⟩
  | visited {labels : Array (Option Nat)} {deepest deep offset depth : Nat}
      {pending rest : List Visit} {n : Next} (hpick : pending.Perm ((offset, depth) :: rest))
      (hl : labels[offset]? = some none)
      (hv : visit code points offset depth = .ok (deep, n)) :
      Turn code points ⟨labels, deepest, pending⟩
        ⟨labels.setIfInBounds offset (some depth), max deepest deep, n.visits ++ rest⟩

/-- The work is over, because nothing is pending or because a pending visit fails. -/
inductive Ends (code : Array Word) (points : Array ContinuationPoint) :
    Worklist → Except StackError Nat → Prop
  | done {labels : Array (Option Nat)} {deepest : Nat} :
      Ends code points ⟨labels, deepest, []⟩ (.ok deepest)
  | outside {w : Worklist} {offset depth : Nat} (hv : (offset, depth) ∈ w.pending)
      (hl : w.labels[offset]? = none) : Ends code points w (.error (.fallsOffEnd offset))
  | mismatch {w : Worklist} {offset depth seen : Nat} (hv : (offset, depth) ∈ w.pending)
      (hl : w.labels[offset]? = some (some seen)) (hne : seen ≠ depth) :
      Ends code points w (.error (.mismatch offset))
  | refused {w : Worklist} {offset depth : Nat} {e : StackError} (hv : (offset, depth) ∈ w.pending)
      (hl : w.labels[offset]? = some none) (he : visit code points offset depth = .error e) :
      Ends code points w (.error e)

/-- Some order of work comes to an answer. -/
def Answers (code : Array Word) (points : Array ContinuationPoint) (w : Worklist)
    (r : Except StackError Nat) : Prop :=
  ∃ w', Relation.ReflTransGen (Turn code points) w w' ∧ Ends code points w' r

theorem Answers.turn {w w' : Worklist} (hturn : Turn code points w w')
    (h : w'.Answers code points r) : w.Answers code points r := by
  obtain ⟨v, hturns, hends⟩ := h
  exact ⟨v, .head hturn hturns, hends⟩

/-- Offsets without a label get fewer, or visits do. -/
theorem measure_lt_of_turn {w w' : Worklist} (h : Turn code points w w') :
    2 * w'.labels.count none + w'.pending.length < 2 * w.labels.count none + w.pending.length := by
  cases h with
  | seen hpick hl =>
    rw [hpick.length_eq]
    exact Nat.add_lt_add_left (Nat.lt_succ_self _) _
  | visited hpick hl hv =>
    rw [hpick.length_eq]
    exact measure_lt hl

theorem wellFounded_turn (code : Array Word) (points : Array ContinuationPoint) :
    WellFounded fun w' w => Turn code points w w' :=
  Subrelation.wf measure_lt_of_turn
    (measure fun w : Worklist => 2 * w.labels.count none + w.pending.length).wf

/-- A pending visit can be worked off, or it fails. -/
theorem ends_or_turn (code : Array Word) (points : Array ContinuationPoint) (w : Worklist) :
    (∃ r, Ends code points w r) ∨ ∃ w', Turn code points w w' := by
  obtain ⟨labels, deepest, pending⟩ := w
  cases pending with
  | nil => exact .inl ⟨_, .done⟩
  | cons v rest =>
    obtain ⟨offset, depth⟩ := v
    match hl : labels[offset]? with
    | none => exact .inl ⟨_, .outside List.mem_cons_self hl⟩
    | some (some seen) =>
      by_cases heq : seen = depth
      · exact .inr ⟨_, .seen (.refl _) (heq ▸ hl)⟩
      · exact .inl ⟨_, .mismatch List.mem_cons_self hl heq⟩
    | some none =>
      match hv : visit code points offset depth with
      | .error e => exact .inl ⟨_, .refused List.mem_cons_self hl hv⟩
      | .ok (deep, n) => exact .inr ⟨_, .visited (.refl _) hl hv⟩

/-- However far the work has come, it comes to an answer. -/
theorem exists_answer (code : Array Word) (points : Array ContinuationPoint) (w : Worklist) :
    ∃ r, w.Answers code points r := by
  induction w using (wellFounded_turn code points).induction with
  | _ w ih =>
    rcases ends_or_turn code points w with ⟨r, hends⟩ | ⟨w', hturn⟩
    · exact ⟨r, w, .refl, hends⟩
    · obtain ⟨r, hr⟩ := ih w' hturn
      exact ⟨r, hr.turn hturn⟩

/-- The labelling loop is one order of work. -/
theorem answers_label (labels : Array (Option Nat)) (deepest : Nat) (pending : List Visit) :
    Answers code points ⟨labels, deepest, pending⟩ (label code points labels deepest pending) := by
  fun_induction label code points labels deepest pending with
  | case1 labels deepest => exact ⟨_, .refl, .done⟩
  | case2 labels deepest offset depth rest hl => exact ⟨_, .refl, .outside List.mem_cons_self hl⟩
  | case3 labels deepest offset rest depth hl ih => exact ih.turn (.seen (.refl _) hl)
  | case4 labels deepest offset depth rest seen hl hne =>
    exact ⟨_, .refl, .mismatch List.mem_cons_self hl hne⟩
  | case5 labels deepest offset depth rest hl e hv =>
    exact ⟨_, .refl, .refused List.mem_cons_self hl hv⟩
  | case6 labels deepest offset depth rest hl deep n hv ih =>
    exact ih.turn (.visited (.refl _) hl hv)

theorem answers_analyze (code : Array Word) (points : Array ContinuationPoint) (entry : Nat) :
    (start code entry).Answers code points (analyze code points entry) :=
  answers_label _ _ _

end Worklist

/-! ## What the work finds -/

/-- The depth that an offset is entered with, for offsets that can be reached. -/
abbrev Labelling := Nat → Option Nat

/-- Every labelled offset can be visited with its label and leads to offsets with the right labels;
no visit leaves a stack deeper than `bound`. -/
def Consistent (code : Array Word) (points : Array ContinuationPoint) (bound : Nat)
    (l : Labelling) : Prop :=
  ∀ offset depth, l offset = some depth →
    ∃ deep n, visit code points offset depth = .ok (deep, n) ∧ deep ≤ bound ∧
      ∀ v ∈ n.visits, l v.1 = some v.2

section

/-- A labelled offset holds an instruction that finds the stack it needs. The edges from it lead to
offsets that are labelled with what the instruction leaves. -/
theorem Consistent.holds {bound : Nat} {l : Labelling} (h : Consistent code points bound l)
    (hl : l i = some depth) :
    ∃ op operand, Holds code i op operand ∧ op.pops ≤ depth ∧ op.leaves depth ≤ bound ∧
      op.leaves depth ≤ limit ∧ (op.needsEmpty = true → depth = 0) ∧
      (op = .pause → operand < points.size) ∧
      ∀ j, Edge code points i j → l j = some (op.leaves depth) := by
  obtain ⟨deep, n, hvisit, hle, hn⟩ := h i depth hl
  obtain ⟨op, operand, hop, hpops, rfl, hlimit, hnext⟩ := holds_of_visit hvisit
  obtain ⟨hempty, hpoint, hvisits⟩ := next_ok hop hnext
  refine ⟨op, operand, hop, hpops, hle, hlimit, fun hneeds => ?_, hpoint, fun j hj => ?_⟩
  · exact (Opcode.leaves_of_needsEmpty hneeds depth).symm.trans (hempty hneeds)
  · exact hn (j, op.leaves depth) ((hvisits _).2 ⟨hj, rfl⟩)

end

namespace Worklist

variable {w w' : Worklist}

/-- A visit has been made or is pending. -/
def Knows (w : Worklist) (v : Visit) : Prop :=
  w.labels[v.1]? = some (some v.2) ∨ v ∈ w.pending

/-- A label that is not old is that of a pending visit, whose visits are pending now. -/
theorem Turn.of_labels (h : Turn code points w w') {i depth : Nat}
    (hl : w'.labels[i]? = some (some depth)) :
    w.labels[i]? = some (some depth) ∨ (i, depth) ∈ w.pending ∧ ∃ deep n,
      visit code points i depth = .ok (deep, n) ∧ deep ≤ w'.deepest ∧
        ∀ v ∈ n.visits, v ∈ w'.pending := by
  cases h with
  | seen => exact .inl hl
  | @visited labels deepest deep offset depth' pending rest n hpick hnone hvisit =>
    by_cases heq : offset = i
    · subst heq
      have hself := Array.getElem?_setIfInBounds_self_of_lt (a := some depth')
        (Array.getElem?_eq_some_iff.1 hnone).1
      cases hself.symm.trans hl
      exact .inr ⟨hpick.mem_iff.2 List.mem_cons_self, deep, n, hvisit, Nat.le_max_right ..,
        fun v hv => List.mem_append_left _ hv⟩
    · exact .inl ((Array.getElem?_setIfInBounds_ne heq).symm.trans hl)

theorem Turn.le_deepest (h : Turn code points w w') : w.deepest ≤ w'.deepest := by
  cases h with
  | seen => exact Nat.le_refl _
  | visited => exact Nat.le_max_left ..

/-- A turn adds the visits that a known one leads to. -/
theorem Turn.knows (h : Turn code points w w') (hv : w'.Knows v) :
    w.Knows v ∨ ∃ u deep n, w.Knows u ∧ visit code points u.1 u.2 = .ok (deep, n) ∧
      v ∈ n.visits := by
  rcases hv with hv | hv
  · exact .inl ((h.of_labels hv).imp_right And.left)
  cases h with
  | seen hpick hl => exact .inl (.inr (hpick.mem_iff.2 (List.mem_cons_of_mem _ hv)))
  | visited hpick hl hvisit =>
    rcases List.mem_append.1 hv with hv | hv
    · exact .inr ⟨_, _, _, .inr (hpick.mem_iff.2 List.mem_cons_self), hvisit, hv⟩
    · exact .inl (.inr (hpick.mem_iff.2 (List.mem_cons_of_mem _ hv)))

theorem Turn.labels (h : Turn code points w w') {i depth : Nat}
    (hl : w.labels[i]? = some (some depth)) : w'.labels[i]? = some (some depth) := by
  cases h with
  | seen => exact hl
  | visited _ hnone _ =>
    refine (Array.getElem?_setIfInBounds_ne fun heq => ?_).trans hl
    rw [heq, hl] at hnone
    cases hnone

/-- A visit that is worked off has its label. -/
theorem Turn.keeps (h : Turn code points w w') (hv : w.Knows v) : w'.Knows v := by
  rcases hv with hv | hv
  · exact .inl (h.labels hv)
  cases h with
  | seen hpick hl =>
    rcases List.mem_cons.1 (hpick.mem_iff.1 hv) with rfl | hv
    · exact .inl hl
    · exact .inr hv
  | visited hpick hl hvisit =>
    rcases List.mem_cons.1 (hpick.mem_iff.1 hv) with rfl | hv
    · exact .inl (Array.getElem?_setIfInBounds_self_of_lt (Array.getElem?_eq_some_iff.1 hl).1)
    · exact .inr (List.mem_append_right _ hv)

/-- What every turn keeps. -/
structure Kept (code : Array Word) (points : Array ContinuationPoint) (entry : Nat)
    (w : Worklist) : Prop where
  size : w.labels.size = code.size
  covered {i depth : Nat} (hl : w.labels[i]? = some (some depth)) :
    ∃ deep n, visit code points i depth = .ok (deep, n) ∧ deep ≤ w.deepest ∧
      ∀ v ∈ n.visits, w.Knows v
  knows_entry : w.Knows (entry, 0)
  reaches {v : Visit} (hv : w.Knows v) : Reaches code points entry v.1
  deepest : w.deepest = 0 ∨ ∃ i depth n, w.labels[i]? = some (some depth) ∧
    visit code points i depth = .ok (w.deepest, n)

theorem not_labelled_start {i depth : Nat} :
    (start code entry).labels[i]? ≠ some (some depth) := by
  intro h
  obtain ⟨_, h⟩ := Array.getElem?_eq_some_iff.1 h
  cases (Array.getElem_replicate _).symm.trans h

namespace Kept

theorem start (code : Array Word) (points : Array ContinuationPoint) (entry : Nat) :
    Kept code points entry (start code entry) where
  size := Array.size_replicate
  covered hl := absurd hl not_labelled_start
  knows_entry := .inr List.mem_cons_self
  reaches := by
    rintro v (hl | hv)
    · exact absurd hl not_labelled_start
    · rw [List.mem_singleton.1 hv]
  deepest := .inl rfl

variable {w w' : Worklist}

theorem turn (h : Kept code points entry w) (hturn : Turn code points w w') :
    Kept code points entry w' where
  size := by
    cases hturn with
    | seen => exact h.size
    | visited => exact Array.size_setIfInBounds.trans h.size
  covered hl := by
    rcases hturn.of_labels hl with hl | ⟨-, deep, n, hvisit, hle, hn⟩
    · obtain ⟨deep, n, hvisit, hle, hn⟩ := h.covered hl
      exact ⟨deep, n, hvisit, Nat.le_trans hle hturn.le_deepest, fun v hv => hturn.keeps (hn v hv)⟩
    · exact ⟨deep, n, hvisit, hle, fun v hv => .inr (hn v hv)⟩
  knows_entry := hturn.keeps h.knows_entry
  reaches := by
    intro v hv
    rcases hturn.knows hv with hv | ⟨u, deep, n, hu, hvisit, hmem⟩
    · exact h.reaches hv
    · obtain ⟨op, operand, hop, -, -, -, hnext⟩ := holds_of_visit hvisit
      exact (h.reaches hu).tail (((next_ok hop hnext).2.2 v).1 hmem).1
  deepest := by
    have hold (hd : w'.deepest = w.deepest) : w'.deepest = 0 ∨ ∃ i depth n,
        w'.labels[i]? = some (some depth) ∧
          visit code points i depth = .ok (w'.deepest, n) := by
      rw [hd]
      refine h.deepest.imp_right ?_
      rintro ⟨i, depth, n, hl, hvisit⟩
      exact ⟨i, depth, n, hturn.labels hl, hvisit⟩
    cases hturn with
    | seen => exact hold rfl
    | @visited labels deepest deep offset depth pending rest n hpick hl hvisit =>
      rcases Nat.le_total deep deepest with hle | hle
      · exact hold (Nat.max_eq_left hle)
      · refine .inr ⟨offset, depth, n, ?_, ?_⟩
        · exact Array.getElem?_setIfInBounds_self_of_lt (Array.getElem?_eq_some_iff.1 hl).1
        · exact hvisit.trans (by rw [Nat.max_eq_right hle])

theorem turns (h : Kept code points entry w)
    (hturns : Relation.ReflTransGen (Turn code points) w w') : Kept code points entry w' := by
  induction hturns with
  | refl => exact h
  | tail _ hturn ih => exact ih.turn hturn

end Kept

end Worklist

namespace Worklist

variable {w : Worklist}

/-- The depth that is known for an offset. -/
def depthAt (labels : Array (Option Nat)) (i : Nat) : Nat :=
  labels[i]?.join.getD 0

theorem depthAt_eq {labels : Array (Option Nat)} {i depth : Nat}
    (h : labels[i]?.join = some depth) : depthAt labels i = depth := by
  rw [depthAt, h]
  rfl

namespace Kept

variable {labels : Array (Option Nat)} {deepest i : Nat}
  (h : Kept code points entry ⟨labels, deepest, []⟩)

include h

/-- Once nothing is pending, the labels are consistent. -/
theorem consistent : Consistent code points deepest (labels[·]?.join) := by
  intro offset depth ho
  obtain ⟨deep, n, hvisit, hle, hn⟩ := h.covered (Option.join_eq_some_iff.1 ho)
  refine ⟨deep, n, hvisit, hle, fun v hv => Option.join_eq_some_iff.2 ?_⟩
  exact (hn v hv).resolve_right List.not_mem_nil

theorem label_entry : labels[entry]?.join = some 0 :=
  Option.join_eq_some_iff.2 (h.knows_entry.resolve_right List.not_mem_nil)

/-- When everything is worked off, every offset that can be reached has a label. -/
theorem exists_label (hi : Reaches code points entry i) :
    ∃ depth ≤ limit, labels[i]?.join = some depth := by
  induction hi with
  | refl => exact ⟨0, Nat.zero_le _, h.label_entry⟩
  | tail _ hedge ih =>
    obtain ⟨depth, -, hl⟩ := ih
    obtain ⟨op, operand, -, -, -, hlimit, -, -, hedges⟩ := h.consistent.holds hl
    exact ⟨_, hlimit, hedges _ hedge⟩

theorem exists_holds (hi : Reaches code points entry i) : ∃ op operand, Holds code i op operand := by
  obtain ⟨depth, -, hl⟩ := h.exists_label hi
  obtain ⟨op, operand, hop, -⟩ := h.consistent.holds hl
  exact ⟨op, operand, hop⟩

/-- What is then known of an instruction that can be reached. -/
theorem of_holds {operand : Nat} {op : Opcode}
    (hi : Reaches code points entry i) (hop : Holds code i op operand) :
    op.pops ≤ depthAt labels i ∧ op.leaves (depthAt labels i) ≤ deepest ∧
      (op.needsEmpty = true → depthAt labels i = 0) ∧ (op = .pause → operand < points.size) ∧
      ∀ j, Edge code points i j → depthAt labels j = op.leaves (depthAt labels i) := by
  obtain ⟨depth, -, hl⟩ := h.exists_label hi
  obtain ⟨op', operand', hop', hpops, hle, -, hempty, hpoint, hedges⟩ := h.consistent.holds hl
  obtain ⟨rfl, rfl⟩ := hop.unique hop'
  rw [depthAt_eq hl]
  exact ⟨hpops, hle, hempty, hpoint, fun j hj => depthAt_eq (hedges j hj)⟩

/-- The labels are sound depths. -/
theorem sound : Sound code points entry (depthAt labels) where
  zero := depthAt_eq h.label_entry
  holds hi := h.exists_holds hi
  le_limit hi := by
    obtain ⟨depth, hle, hl⟩ := h.exists_label hi
    rwa [depthAt_eq hl]
  pops_le hi hop := (h.of_holds hi hop).1
  empty hi hop := (h.of_holds hi hop).2.2.1
  point hi hop := (h.of_holds hi hop).2.2.2.1 rfl
  edge hi hop hj := (h.of_holds hi hop).2.2.2.2 _ hj

/-- The greatest depth that an instruction leaves has been found. -/
theorem requires : Requires code points entry deepest := by
  refine ⟨depthAt labels, h.sound, ?_, ?_⟩
  · rcases h.deepest with hzero | ⟨i, depth, n, hl, hvisit⟩
    · have hzero : deepest = 0 := hzero
      obtain ⟨op, operand, hop⟩ := h.exists_holds (.refl (a := entry))
      have hle := (h.of_holds .refl hop).2.1
      exact ⟨entry, op, operand, .refl, hop, by omega⟩
    · obtain ⟨op, operand, hop, -, hdeep, -⟩ := holds_of_visit hvisit
      have hi : Reaches code points entry i := h.reaches (v := (i, depth)) (.inl hl)
      exact ⟨i, op, operand, hi, hop, by rw [depthAt_eq (Option.join_eq_some_iff.2 hl)]; exact hdeep⟩
  · rintro d ⟨i, op, operand, hi, hop, rfl⟩
    exact (h.of_holds hi hop).2.1

end Kept

/-- What holds of the first visit and is passed on by every visit holds of all that is known,
whichever visits have been worked off. -/
theorem of_knows {P : Visit → Prop} (hentry : P (entry, 0))
    (hpass : ∀ u deep n, P u → visit code points u.1 u.2 = .ok (deep, n) → ∀ v ∈ n.visits, P v)
    (hturns : Relation.ReflTransGen (Turn code points) (start code entry) w) (hv : w.Knows v) :
    P v := by
  induction hturns generalizing v with
  | refl =>
    rcases hv with hl | hv
    · exact absurd hl not_labelled_start
    · rw [List.mem_singleton.1 hv]
      exact hentry
  | tail _ hturn ih =>
    rcases hturn.knows hv with hv | ⟨u, deep, n, hu, hvisit, hmem⟩
    · exact ih hv
    · exact hpass u deep n (ih hu) hvisit v hmem

/-- Work on visits that are admissible fails only if some visit makes the stack too deep. It only
ever knows such visits, so it finds no contradiction. -/
theorem tooDeep_of_ends {P : Visit → Prop} (hentry : P (entry, 0))
    (hvisit : ∀ v, P v → visit code points v.1 v.2 = .error (.tooDeep limit) ∨
      ∃ deep n, visit code points v.1 v.2 = .ok (deep, n) ∧ ∀ u ∈ n.visits, P u)
    (hunique : ∀ i d d', P (i, d) → P (i, d') → d = d')
    (hturns : Relation.ReflTransGen (Turn code points) (start code entry) w) {e : StackError}
    (hends : Ends code points w (.error e)) :
    e = .tooDeep limit ∧ ∃ v, P v ∧ visit code points v.1 v.2 = .error (.tooDeep limit) := by
  have hknown {v : Visit} (hv : w.Knows v) : P v := by
    refine of_knows hentry (fun u deep n hu hok v hmem => ?_) hturns hv
    rcases hvisit u hu with hdeep | ⟨_, _, hok', hn⟩
    · cases hok.symm.trans hdeep
    · cases hok.symm.trans hok'
      exact hn v hmem
  have hfails {v : Visit} (hv : v ∈ w.pending) (he : visit code points v.1 v.2 = .error e) :
      e = .tooDeep limit ∧ ∃ v, P v ∧ visit code points v.1 v.2 = .error (.tooDeep limit) := by
    rcases hvisit v (hknown (.inr hv)) with hdeep | ⟨_, _, hok, -⟩
    · cases he.symm.trans hdeep
      exact ⟨rfl, v, hknown (.inr hv), hdeep⟩
    · cases he.symm.trans hok
  cases hends with
  | outside hv hl =>
    have hsize := ((Kept.start code points entry).turns hturns).size
    refine hfails hv ?_
    rw [visit, Array.getElem?_eq_none (hsize ▸ Array.getElem?_eq_none_iff.1 hl)]
  | mismatch hv hl hne =>
    exact absurd (hunique _ _ _ (hknown (v := (_, _)) (.inl hl)) (hknown (.inr hv))) hne
  | refused hv hl he => exact hfails hv he

/-- Where there are sound depths, no visit fails in any order. -/
theorem not_ends_error {depth : Nat → Nat} (hsound : Sound code points entry depth)
    (hturns : Relation.ReflTransGen (Turn code points) (start code entry) w) {e : StackError} :
    ¬ Ends code points w (.error e) := by
  have hvisit (v : Visit) (hv : Reaches code points entry v.1 ∧ depth v.1 = v.2) :
      ∃ deep n, visit code points v.1 v.2 = .ok (deep, n) ∧
        ∀ u ∈ n.visits, Reaches code points entry u.1 ∧ depth u.1 = u.2 := by
    obtain ⟨deep, n, hok, hn⟩ := hsound.visit hv.1
    rw [hv.2] at hok
    exact ⟨deep, n, hok, fun u hu => ⟨hv.1.tail (hn u hu).1, (hn u hu).2⟩⟩
  intro hends
  obtain ⟨-, v, hv, hdeep⟩ := tooDeep_of_ends ⟨.refl, hsound.zero⟩ (fun v hv => .inr (hvisit v hv))
    (fun _ _ _ hd hd' => hd.2.symm.trans hd'.2) hturns hends
  obtain ⟨deep, n, hok, -⟩ := hvisit v hv
  cases hdeep.symm.trans hok

/-- In every order of work the answer is the greatest depth, or there are no sound depths. -/
theorem Answers.eq_ok_iff (h : (start code entry).Answers code points r) :
    r = .ok d ↔ Requires code points entry d := by
  obtain ⟨w, hturns, hends⟩ := h
  have hkept := (Kept.start code points entry).turns hturns
  cases r with
  | error e =>
    refine iff_of_false nofun ?_
    rintro ⟨depth, hsound, -⟩
    exact not_ends_error hsound hturns hends
  | ok found =>
    cases hends
    constructor
    · rintro ⟨⟩
      exact hkept.requires
    · intro hd
      rw [hkept.requires.unique hd]

end Worklist

/-- The analysis finds `d` just where some depths are sound and `d` is the greatest depth that an
instruction leaves. Working off its visits in any order comes to an end and to an answer, and the
answer is the same but for which of the errors is met. -/
theorem analyze_exact (code : Array Word) (points : Array ContinuationPoint) (entry : Nat) :
    (∀ d, analyze code points entry = .ok d ↔ Requires code points entry d) ∧
      (WellFounded fun w' w => Worklist.Turn code points w w') ∧
      (∀ w : Worklist, ∃ r, w.Answers code points r) ∧
      (Worklist.start code entry).Answers code points (analyze code points entry) ∧
      ∀ r, (Worklist.start code entry).Answers code points r →
        ∀ d, r = .ok d ↔ analyze code points entry = .ok d := by
  have hanalyze := Worklist.answers_analyze code points entry
  refine ⟨fun d => hanalyze.eq_ok_iff, Worklist.wellFounded_turn code points,
    Worklist.exists_answer code points, hanalyze, fun r hr d => ?_⟩
  rw [hr.eq_ok_iff, hanalyze.eq_ok_iff]

/-! ## Labellings -/

variable {l : Labelling}

theorem Consistent.mono {bound bound' : Nat} (h : Consistent code points bound l)
    (hle : bound ≤ bound') : Consistent code points bound' l := by
  intro offset depth ho
  obtain ⟨deep, n, hv, hd, hn⟩ := h offset depth ho
  exact ⟨deep, n, hv, Nat.le_trans hd hle, hn⟩

/-- A successful analysis has a consistent labelling behind it, in which the entry is entered with
an empty stack. -/
theorem analyze_ok {bound : Nat} (h : analyze code points entry = .ok bound) :
    ∃ l : Labelling, Consistent code points bound l ∧ l entry = some 0 := by
  obtain ⟨w, hturns, hends⟩ := Worklist.answers_analyze code points entry
  have hkept := (Worklist.Kept.start code points entry).turns hturns
  rw [h] at hends
  -- Nothing is pending any more, so all that is known is labelled.
  obtain @⟨labels⟩ := hends
  exact ⟨(labels[·]?.join), hkept.consistent, hkept.label_entry⟩

/-- Every labelled offset can be visited with its label, unless that makes the stack too deep, and
leads to offsets with the right labels. -/
def Admissible (code : Array Word) (points : Array ContinuationPoint) (l : Labelling) : Prop :=
  ∀ offset depth, l offset = some depth →
    visit code points offset depth = .error (.tooDeep limit) ∨
      ∃ deep n, visit code points offset depth = .ok (deep, n) ∧ ∀ v ∈ n.visits, l v.1 = some v.2

/-- Code with an admissible labelling passes the analysis, unless some visit makes the stack too
deep. -/
theorem analyze_of_admissible (h : Admissible code points l) (hentry : l entry = some 0) :
    (∃ required ≤ limit, analyze code points entry = .ok required) ∨
      analyze code points entry = .error (.tooDeep limit) ∧
        ∃ offset depth, l offset = some depth ∧
          visit code points offset depth = .error (.tooDeep limit) := by
  obtain ⟨w, hturns, hends⟩ := Worklist.answers_analyze code points entry
  have hkept := (Worklist.Kept.start code points entry).turns hturns
  cases hr : analyze code points entry with
  | ok required =>
    rw [hr] at hends
    cases hends
    refine .inl ⟨required, ?_, rfl⟩
    rcases hkept.deepest with hzero | ⟨i, depth, n, -, hvisit⟩
    · exact Nat.le_trans (Nat.le_of_eq hzero) (Nat.zero_le _)
    · obtain ⟨word, op, -, -, -, -, hlimit, -⟩ := visit_ok hvisit
      exact hlimit
  | error e =>
    rw [hr] at hends
    obtain ⟨rfl, v, hv, hdeep⟩ := Worklist.tooDeep_of_ends hentry (fun v hv => h v.1 v.2 hv)
      (fun _ _ _ hd hd' => Option.some.inj (hd.symm.trans hd')) hturns hends
    exact .inr ⟨rfl, v.1, v.2, hv, hdeep⟩

end StackDepth

end Behavior
