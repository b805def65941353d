import Behavior.Proofs.CallExactness
import Behavior.Proofs.CodeLabels
import Behavior.Proofs.StoredModels

/-!
The compiler only makes models that can be loaded. Once a document has been checked, the one thing
that can still go wrong is that it is too large: it has too many locals, one of its tables has too
many entries, or one of its expressions needs too deep a stack.

The labels of the emitted code are what the two analyses of the loader look for, so both of them
succeed; the operands are within their tables because the blocks mention only slots of the document;
and each continuation point has one pause, since it gets its number when its pause is emitted.
-/

namespace Behavior

namespace Model

theorem checkWords_of_forall {sizes : TableSizes} {offset : Nat} {words : List Word}
    (h : ∀ (i : Nat) (w : Word), words[i]? = some w →
      ∃ op, Word.opcode? w = some op ∧ Word.operand w < sizes.bound op) :
    checkWords sizes offset words = .ok () := by
  induction words generalizing offset with
  | nil => rfl
  | cons word rest ih =>
    obtain ⟨op, hop, hlt⟩ := h 0 word rfl
    have hword : checkWord sizes offset word = .ok () := by
      rw [checkWord, hop]
      exact if_pos hlt
    rw [checkWords, hword]
    exact ih fun i w hw => h (i + 1) w hw

end Model

/-- A value that stands at one place only is counted once. -/
theorem count_eq_one {α : Type} [BEq α] [LawfulBEq α] {xs : Array α} {a : α} {i : Nat}
    (h : xs[i]? = some a) (hunique : ∀ j, xs[j]? = some a → j = i) : xs.count a = 1 := by
  have hlist : ∀ (xs : List α) (i : Nat), xs[i]? = some a → (∀ j, xs[j]? = some a → j = i) →
      xs.count a = 1 := by
    intro xs
    induction xs with
    | nil => exact fun i h => by cases h
    | cons x rest ih =>
      intro i h hunique
      cases i with
      | zero =>
        cases h
        rw [List.count_cons_self, List.count_eq_zero.2]
        intro hmem
        obtain ⟨j, hj⟩ := List.mem_iff_getElem?.1 hmem
        cases hunique (j + 1) hj
      | succ i =>
        have hne : x ≠ a := by
          rintro rfl
          cases hunique 0 rfl
        rw [List.count_cons_of_ne hne]
        exact ih i h fun j hj => Nat.succ.inj (hunique (j + 1) hj)
  rw [← Array.count_toList]
  exact hlist xs.toList i (by rwa [Array.getElem?_toList])
    fun j hj => hunique j (by rwa [Array.getElem?_toList] at hj)

namespace Assembly

/-- Emitted code whose words and continuation points have been resolved. -/
structure Resolved (t : State) (g : BlockGraph) (points : Array Typed.Point) (rank : Nat → Nat)
    (labels : List Label) (x : Extent) (code : Array Word) (table : Array ContinuationPoint) : Prop
    extends Emitted t g points rank labels where
  within : g.Within x
  encodable : x.Encodable
  code_eq : t.code.mapM (resolveItem t.starts) = .ok code
  points_eq : t.points.mapM (resolvePoint t.starts) = .ok table

variable {t : State} {g : BlockGraph} {points : Array Typed.Point} {rank : Nat → Nat}
  {labels : List Label} {x : Extent} {code : Array Word} {table : Array ContinuationPoint}

/-- The depths in the code of blocks up to a rank. -/
def depths (rank : Nat → Nat) (labels : List Label) (r : Nat) : StackDepth.Labelling :=
  fun offset => (labels[offset]?.filter fun l => rank l.block ≤ r).map (·.depth)

theorem depths_eq_some {offset depth r : Nat} :
    depths rank labels r offset = some depth ↔ Enters rank labels offset depth r := by
  simp only [depths, Enters, Option.map_eq_some_iff, Option.filter_eq_some_iff, decide_eq_true_iff]
  constructor
  · rintro ⟨l, ⟨hl, hle⟩, hdepth⟩
    exact ⟨l, hl, hdepth, hle⟩
  · rintro ⟨l, hl, hdepth, hle⟩
    exact ⟨l, ⟨hl, hle⟩, hdepth⟩

theorem Enters.rank_le {offset depth r : Nat} (h : Enters rank labels offset depth r) :
    ∃ r', labels[offset]?.map (fun l => rank l.block) = some r' ∧ r' ≤ r := by
  obtain ⟨l, hl, -, hr⟩ := h
  refine ⟨_, ?_, hr⟩
  rw [hl]
  rfl

namespace Resolved

variable (R : Resolved t g points rank labels x code table) {offset r index : Nat} {p : PlacedPoint}
  {q : ContinuationPoint}

include R

theorem size_code : code.size = t.code.size :=
  mapM_array_size R.code_eq

theorem lt_size {depth : Nat} (h : Enters rank labels offset depth r) :
    offset < code.size :=
  R.size_code ▸ R.lt_size_of_enters h

theorem word {l : Label} (hl : labels[offset]? = some l) :
    ∃ op operand, code[offset]? = some (Word.encode op operand) ∧ operand ≤ Word.maxOperand ∧
      operand < (t.tableSizes x).bound op ∧ op.pops ≤ l.depth ∧
      (g.block l.block).Needs (l.depth - op.pops + op.pushes) ∧
      Continues t rank labels offset operand (l.depth - op.pops + op.pushes) (rank l.block) op := by
  obtain ⟨item, op, operand, hitem, hresolve, hbound, hrest⟩ := R.fits R.within hl
  obtain ⟨w, hw, hresolve'⟩ := mapM_array_getElem? R.code_eq hitem
  rw [hresolve] at hresolve'
  cases hresolve'
  exact ⟨op, operand, hw, R.operand_le R.encodable hbound, hbound, hrest⟩

/-! ## The analyses -/

theorem target_eq {dest depth : Nat} (h : Enters rank labels dest depth r) :
    StackDepth.target code offset dest = .ok dest :=
  if_pos (R.lt_size h)

theorem point_eq (hp : t.points[index]? = some p) (hq : resolvePoint t.starts p = .ok q) :
    table[index]? = some q := by
  obtain ⟨q', hq', hresolve⟩ := mapM_array_getElem? R.points_eq hp
  rw [hq] at hresolve
  cases hresolve
  exact hq'

/-- Where control goes is as the labels say. -/
theorem next_ok {op : Opcode} {operand deep : Nat}
    (h : Continues t rank labels offset operand deep r op) :
    ∃ n, StackDepth.next code table op operand offset deep = .ok n ∧
      ∀ v ∈ n.visits, Enters rank labels v.1 v.2 r := by
  cases op with
  | jump =>
    refine ⟨.goto (operand, deep), bind_eq_ok.2 ⟨operand, R.target_eq h, rfl⟩, ?_⟩
    exact List.forall_mem_singleton.2 h
  | jumpIfFalse | jumpIfTrue =>
    refine ⟨.fork (offset + 1, deep) (operand, deep),
      bind_eq_ok.2 ⟨operand, R.target_eq h.2, rfl⟩, ?_⟩
    exact List.forall_mem_cons.2 ⟨h.1, List.forall_mem_singleton.2 h.2⟩
  | call =>
    obtain ⟨rfl, hreturn, r', hlt, hcallee⟩ := h
    refine ⟨.fork (offset + 1, 0) (operand, 0),
      bind_eq_ok.2 ⟨⟨⟩, rfl, bind_eq_ok.2 ⟨operand, R.target_eq hcallee, rfl⟩⟩, ?_⟩
    exact List.forall_mem_cons.2 ⟨hreturn,
      List.forall_mem_singleton.2 (hcallee.mono (Nat.le_of_lt hlt))⟩
  | ret =>
    obtain rfl : deep = 0 := h
    exact ⟨.stop, rfl, fun _ hv => absurd hv List.not_mem_nil⟩
  | halt => exact ⟨.stop, rfl, fun _ hv => absurd hv List.not_mem_nil⟩
  | pause =>
    obtain ⟨rfl, p, q, hp, -, hq, hdefault⟩ := h
    refine ⟨.goto (q.defaultOffset.toNat, 0), ?_, List.forall_mem_singleton.2 hdefault⟩
    simp only [StackDepth.next, StackDepth.balanced, R.point_eq hp hq, R.target_eq hdefault]
    rfl
  | _ => exact ⟨.goto (offset + 1, deep), rfl, List.forall_mem_singleton.2 h⟩

theorem visit_stack {l : Label} (hl : labels[offset]? = some l) :
    (∃ e ∈ (g.block l.block).values, StackDepth.limit < e.stackNeed) ∧
        StackDepth.visit code table offset l.depth = .error (.tooDeep StackDepth.limit) ∨
      ∃ deep n, StackDepth.visit code table offset l.depth = .ok (deep, n) ∧
        ∀ v ∈ n.visits, Enters rank labels v.1 v.2 (rank l.block) := by
  obtain ⟨op, operand, hw, hle, -, hpops, hneeds, hcontinues⟩ := R.word hl
  have hvisit : StackDepth.visit code table offset l.depth = (do
      let depth ← StackDepth.after op offset l.depth
      return (depth, ← StackDepth.next code table op operand offset depth)) := by
    rw [StackDepth.visit, hw]
    dsimp only
    rw [Word.opcode?_encode op hle, Word.operand_encode op hle]
  have hafter : StackDepth.after op offset l.depth =
      if StackDepth.limit < l.depth - op.pops + op.pushes then .error (.tooDeep StackDepth.limit)
      else .ok (l.depth - op.pops + op.pushes) := by
    rw [StackDepth.after, if_neg (Nat.not_lt.2 hpops)]
  by_cases hdeep : StackDepth.limit < l.depth - op.pops + op.pushes
  · left
    rw [if_pos hdeep] at hafter
    refine ⟨?_, by rw [hvisit, hafter]; rfl⟩
    rcases hneeds with hzero | ⟨e, he, hneed⟩
    · omega
    · exact ⟨e, he, Nat.lt_of_lt_of_le hdeep hneed⟩
  · right
    rw [if_neg hdeep] at hafter
    obtain ⟨n, hn, hvisits⟩ := R.next_ok hcontinues
    exact ⟨_, n, hvisit.trans (bind_eq_ok.2 ⟨_, hafter, bind_eq_ok.2 ⟨n, hn, rfl⟩⟩), hvisits⟩

theorem admissible (r : Nat) : StackDepth.Admissible code table (depths rank labels r) := by
  intro offset depth h
  obtain ⟨l, hl, rfl, hle⟩ := depths_eq_some.1 h
  refine (R.visit_stack hl).imp And.right ?_
  rintro ⟨deep, n, hok, hvisits⟩
  exact ⟨deep, n, hok, fun v hv => depths_eq_some.2 ((hvisits v hv).mono hle)⟩

/-- The stack analysis succeeds, unless an expression needs too deep a stack. It does not look at
blocks of higher ranks. -/
theorem analyze_stack {entry : Nat} (h : Enters rank labels entry 0 r) :
    (∃ required ≤ StackDepth.limit, StackDepth.analyze code table entry = .ok required) ∨
      StackDepth.analyze code table entry = .error (.tooDeep StackDepth.limit) ∧
        ∃ i, rank i ≤ r ∧ ∃ e ∈ (g.block i).values, StackDepth.limit < e.stackNeed := by
  refine (StackDepth.analyze_of_admissible (R.admissible r) (depths_eq_some.2 h)).imp_right ?_
  rintro ⟨herror, offset, depth, hlabel, hvisit⟩
  obtain ⟨l, hl, rfl, hle⟩ := depths_eq_some.1 hlabel
  rcases R.visit_stack hl with ⟨hneed, -⟩ | ⟨deep, n, hok, -⟩
  · exact ⟨herror, l.block, hle, hneed⟩
  · rw [hvisit] at hok
    cases hok

/-- The rank of its block is a rank for an offset. -/
theorem graded : CallDepth.Graded code table fun offset =>
    labels[offset]?.map fun l => rank l.block := by
  intro offset r h
  obtain ⟨l, hl, rfl⟩ := Option.map_eq_some_iff.1 h
  obtain ⟨op, operand, hw, hle, -, -, -, hcontinues⟩ := R.word hl
  have hop := Word.opcode?_encode op hle
  have hoperand := Word.operand_encode op hle
  generalize Word.encode op operand = w at hw hop hoperand
  generalize l.depth - op.pops + op.pushes = deep at hcontinues
  simp only [CallDepth.visit, hw, hop, hoperand]
  cases op with
  | jump =>
    exact ⟨_, rfl, List.forall_mem_singleton.2 (Enters.rank_le hcontinues), fun _ _ h => by cases h⟩
  | jumpIfFalse | jumpIfTrue =>
    refine ⟨_, rfl, List.forall_mem_cons.2 ⟨hcontinues.1.rank_le, ?_⟩, fun _ _ h => by cases h⟩
    exact List.forall_mem_singleton.2 hcontinues.2.rank_le
  | call =>
    obtain ⟨-, hreturn, r', hlt, hcallee⟩ := hcontinues
    refine ⟨_, rfl, List.forall_mem_singleton.2 hreturn.rank_le, ?_⟩
    rintro callee next ⟨⟩
    obtain ⟨r'', hr'', hle''⟩ := hcallee.rank_le
    exact ⟨r'', hr'', Nat.lt_of_le_of_lt hle'' hlt⟩
  | ret | halt => exact ⟨_, rfl, fun _ hv => absurd hv List.not_mem_nil, fun _ _ h => by cases h⟩
  | pause =>
    -- the analysis goes on at the default offset, with the rank of the block there
    obtain ⟨-, p, q, hp, -, hq, hdefault⟩ := hcontinues
    simp only [R.point_eq hp hq]
    exact ⟨_, rfl, List.forall_mem_singleton.2 hdefault.rank_le, fun _ _ h => by cases h⟩
  | _ =>
    exact ⟨_, rfl, List.forall_mem_singleton.2 (Enters.rank_le hcontinues), fun _ _ h => by cases h⟩

/-! ## The checks of the loader -/

theorem pause_at (hp : t.points[index]? = some p) :
    code[p.offset]? = some (Word.encode .pause index) := by
  obtain ⟨w, hw, hresolve⟩ := mapM_array_getElem? R.code_eq (R.noted index p hp)
  cases hresolve
  exact hw

theorem offset_of_pause (hp : t.points[index]? = some p)
    (hw : code[offset]? = some (Word.encode .pause index)) : offset = p.offset := by
  have hindex : index ≤ Word.maxOperand :=
    Nat.le_trans (Nat.le_of_lt (Array.getElem?_eq_some_iff.1 hp).1) R.points_le
  obtain ⟨l, hl⟩ := R.label_of_lt (R.size_code ▸ (Array.getElem?_eq_some_iff.1 hw).1)
  obtain ⟨op, operand, hword, hle, -, -, -, hcontinues⟩ := R.word hl
  rw [hw] at hword
  -- the same word is the same pause, and the label there says where its point was noted
  obtain ⟨rfl, rfl⟩ := Word.encode_inj hle hindex (Option.some.inj hword).symm
  obtain ⟨-, p', -, hp', hoffset, -⟩ := hcontinues
  rw [hp] at hp'
  cases hp'
  exact hoffset.symm

variable {m : Model} (hcode : m.code = code) (hpoints : m.points = table)
  (hsizes : m.tableSizes = t.tableSizes x)

include hcode

include hsizes in
theorem checkCode_eq_ok (hpos : 0 < code.size) : m.checkCode = .ok () := by
  have hne : ¬ m.code.isEmpty = true := by
    rw [hcode, Array.isEmpty_iff_size_eq_zero]
    omega
  rw [Model.checkCode, if_neg hne, hsizes, hcode]
  refine Model.checkWords_of_forall fun offset w hw => ?_
  rw [Array.getElem?_toList] at hw
  obtain ⟨l, hl⟩ := R.label_of_lt (R.size_code ▸ (Array.getElem?_eq_some_iff.1 hw).1)
  obtain ⟨op, operand, hword, hle, hbound, -⟩ := R.word hl
  rw [hw] at hword
  cases hword
  refine ⟨op, Word.opcode?_encode op hle, ?_⟩
  rwa [Word.operand_encode op hle]

/-- A continuation point has one pause, which stands where the point says. -/
theorem checkPoint_eq_ok (hq : table[index]? = some q) :
    m.checkPoint index q = .ok () := by
  have hlt : index < t.points.size := by
    rw [← mapM_array_size R.points_eq]
    exact (Array.getElem?_eq_some_iff.1 hq).1
  obtain ⟨p, hp⟩ : ∃ p, t.points[index]? = some p := ⟨_, Array.getElem?_eq_getElem hlt⟩
  obtain ⟨q', r, hresolve, hdefault⟩ := R.point_resolves R.within R.encodable hp
  obtain rfl : q = q' := Option.some.inj (hq.symm.trans (R.point_eq hp hresolve))
  have hpause := R.pause_at hp
  have hcount : code.count (Word.encode .pause index) = 1 :=
    count_eq_one hpause fun offset hw => R.offset_of_pause hp hw
  have hoffset_le : p.offset ≤ Word.maxOperand :=
    Nat.le_trans (Nat.le_of_lt (Array.getElem?_eq_some_iff.1 (R.noted index p hp)).1) R.size_le
  have hdefault_lt := R.lt_size hdefault
  obtain ⟨start, -, hresolve⟩ := bind_eq_ok.1 hresolve
  cases hresolve
  have hoffset : p.offset.toUInt32.toNat = p.offset := toNat_toUInt32_of_le hoffset_le
  simp only [Model.checkPoint, hcode, hcount, hoffset, hpause, ne_eq, not_true_eq_false, if_false]
  exact if_neg (Nat.not_le.2 hdefault_lt)

include hpoints in
theorem checkPoints_eq_ok : m.checkPoints = .ok () := by
  refine forM_list_of_forall fun (q, index) hmem => ?_
  rw [hpoints, List.mem_zipIdx_iff_getElem?, Array.getElem?_toList] at hmem
  exact R.checkPoint_eq_ok hcode hmem

include hpoints in
theorem checkDepths_eq_ok {required : Nat} (hentry : Enters rank labels m.entry.toNat 0 r)
    (hrequired : StackDepth.analyze code table m.entry.toNat = .ok required)
    (hlimit : required ≤ StackDepth.limit) (hstack : m.maxStack.toNat = required)
    (hcalls : r ≤ m.maxCallDepth.toNat) : m.checkDepths = .ok () := by
  obtain ⟨r', hr, hle⟩ := hentry.rank_le
  have hcalls_le := Nat.le_trans hle hcalls
  have hcap : r' ≤ 0xffff := Nat.le_trans hcalls_le (Nat.le_of_lt_succ m.maxCallDepth.toNat_lt)
  obtain ⟨depth, hdepth, hanalyze⟩ := CallDepth.analyze_of_graded R.graded hr hcap
  simp only [Model.checkDepths, hcode, hpoints, hrequired, hanalyze, hstack]
  rw [if_neg (by omega), if_neg (by omega)]

include hpoints hsizes in
/-- A model with resolved code passes the check if the rest of it does. -/
theorem check_eq_ok {required : Nat} (hflags : m.checkFlags = .ok ())
    (hschema : Model.checkSchema m.schema = .ok ())
    (hentry : Enters rank labels m.entry.toNat 0 (rank BlockGraph.entry))
    (hrequired : StackDepth.analyze code table m.entry.toNat = .ok required)
    (hlimit : required ≤ StackDepth.limit) (hstack : m.maxStack.toNat = required)
    (hcalls : rank BlockGraph.entry ≤ m.maxCallDepth.toNat) : m.check = .ok () := by
  have hlt := R.lt_size hentry
  have hcheckCode := R.checkCode_eq_ok hcode hsizes (Nat.zero_lt_of_lt hlt)
  have hcheckPoints := R.checkPoints_eq_ok hcode hpoints
  have hcheckDepths := R.checkDepths_eq_ok hcode hpoints hentry hrequired hlimit hstack hcalls
  refine bind_eq_ok.2 ⟨⟨⟩, hflags, bind_eq_ok.2 ⟨⟨⟩, hschema, bind_eq_ok.2 ⟨⟨⟩, hcheckCode,
    bind_eq_ok.2 ⟨⟨⟩, hcheckPoints, ?_⟩⟩⟩⟩
  rw [if_neg (by rw [hcode]; omega)]
  exact hcheckDepths

end Resolved

/-! ## Assembling -/

/-- The number of entries of a table. -/
def State.tableSize (t : State) (stringCount : Nat) : TableKind → Nat
  | .code => t.code.size
  | .constants => t.constants.size
  | .strings => stringCount
  | .points => t.points.size

theorem checkTable_cases (kind : TableKind) (size : Nat) :
    checkTable kind size = .ok () ∧ size ≤ Word.maxOperand ∨
      checkTable kind size = .error (.tableTooLarge kind size) ∧ Word.maxOperand < size := by
  unfold checkTable
  split
  · next hle => exact .inl ⟨rfl, hle⟩
  · next hlt => exact .inr ⟨rfl, Nat.lt_of_not_le hlt⟩

/-- Assembling fails only for a table that is too large. Tables of what the code mentions are no
larger than the code. -/
theorem ofBlocks_of_ordered (points : Array Typed.Point) (stringCount : Nat) (h : g.Ordered rank)
    (hx : g.Within x) (henc : x.Encodable) :
    (∃ kind, (kind = .code ∨ kind = .strings) ∧ ofBlocks g points stringCount =
        .error (.tableTooLarge kind ((emission g points).tableSize stringCount kind)) ∧
      Word.maxOperand < (emission g points).tableSize stringCount kind) ∨
    ∃ a, ofBlocks g points stringCount = .ok a ∧
      Resolved (emission g points) g points rank (g.labels g.layout) x a.code a.points ∧
      a.constants = (emission g points).constants ∧
      Enters rank (g.labels g.layout) a.entry 0 (rank BlockGraph.entry) := by
  have heq : ofBlocks g points stringCount = (do
      checkTable .code (emission g points).code.size
      checkTable .constants (emission g points).constants.size
      checkTable .strings stringCount
      checkTable .points (emission g points).points.size
      let code ← (emission g points).code.mapM (resolveItem (emission g points).starts)
      let placed ← (emission g points).points.mapM (resolvePoint (emission g points).starts)
      let entry ← startOf (emission g points).starts BlockGraph.entry
      return ⟨code, (emission g points).constants, entry, placed,
        ⟨(emission g points).spans, (emission g points).flows.reverse⟩⟩) := rfl
  rcases checkTable_cases .code (emission g points).code.size with ⟨hcode, hcode_le⟩ | ⟨herr, hlt⟩
  case inr =>
    refine .inl ⟨.code, .inl rfl, ?_, hlt⟩
    rw [heq, herr]
    rfl
  obtain ⟨hconstants_code, hpoints_code⟩ := sparing_emission g points
  have hconstants_le := Nat.le_trans hconstants_code hcode_le
  have hpoints_le := Nat.le_trans hpoints_code hcode_le
  have hconstants : checkTable .constants (emission g points).constants.size = .ok () :=
    if_pos hconstants_le
  have hpoints : checkTable .points (emission g points).points.size = .ok () := if_pos hpoints_le
  rcases checkTable_cases .strings stringCount with ⟨hstrings, hstrings_le⟩ | ⟨herr, hlt⟩
  case inr =>
    refine .inl ⟨.strings, .inr rfl, ?_, hlt⟩
    rw [heq, hcode, hconstants, herr]
    rfl
  -- nothing is too large, so everything can be resolved
  have E := emitted_emission points h hcode_le hconstants_le hpoints_le
  obtain ⟨code, hwords⟩ := mapM_array_of_forall fun item hitem => by
    obtain ⟨offset, hoffset⟩ := Array.mem_iff_getElem?.1 hitem
    exact E.item_resolves hx hoffset
  obtain ⟨placed, hplaced⟩ := mapM_array_of_forall fun p hp => by
    obtain ⟨index, hindex⟩ := Array.mem_iff_getElem?.1 hp
    obtain ⟨q, -, hq, -⟩ := E.point_resolves hx henc hindex
    exact ⟨q, hq⟩
  obtain ⟨entry, hentry, henters⟩ := E.enters_start h.entry
  let a : Assembly := ⟨code, (emission g points).constants, entry, placed,
    ⟨(emission g points).spans, (emission g points).flows.reverse⟩⟩
  have ha : ofBlocks g points stringCount = .ok a := by
    rw [heq]
    exact bind_eq_ok.2 ⟨⟨⟩, hcode, bind_eq_ok.2 ⟨⟨⟩, hconstants, bind_eq_ok.2 ⟨⟨⟩, hstrings,
      bind_eq_ok.2 ⟨⟨⟩, hpoints, bind_eq_ok.2 ⟨code, hwords, bind_eq_ok.2 ⟨placed, hplaced,
        bind_eq_ok.2 ⟨entry, hentry, rfl⟩⟩⟩⟩⟩⟩⟩
  exact .inr ⟨a, ha, { E with within := hx, encodable := henc, code_eq := hwords,
                              points_eq := hplaced }, rfl, henters⟩

end Assembly

/-! ## Compiling -/

namespace Model

theorem duplicate?_eq_none {es : List Schema.Entry} (h : (es.map (·.name)).Nodup) :
    duplicate? es = none := by
  have hgo : ∀ (es : List Schema.Entry) (seen : List String), (es.map (·.name)).Nodup →
      (∀ e ∈ es, e.name ∉ seen) → duplicate?.go seen es = none := by
    intro es
    induction es with
    | nil => exact fun _ _ _ => rfl
    | cons e rest ih =>
      intro seen h hseen
      obtain ⟨hnot, hrest⟩ := List.nodup_cons.1 h
      obtain ⟨he, hseen⟩ := List.forall_mem_cons.1 hseen
      rw [duplicate?.go, if_neg (by rwa [List.contains_iff_mem])]
      refine ih _ hrest fun e' he' hmem => ?_
      rcases List.mem_cons.1 hmem with heq | hmem
      · exact hnot (List.mem_map.2 ⟨e', he', heq⟩)
      · exact hseen e' he' hmem
  exact hgo es [] h fun _ _ => List.not_mem_nil

theorem checkSchema_of_suits {registry : Registry} {s : Schema} (h : Typed.Suits registry s) :
    checkSchema s = .ok () := by
  have hchannels : s.channels.find? (fun c => c.coversValue c.urgencySlot.toNat) = none := by
    rw [List.find?_eq_none]
    intro c hc
    rw [Schema.Channel.coversValue, h.urgency c hc]
    simp
  simp only [checkSchema, duplicate?_eq_none h.inputs, duplicate?_eq_none h.outputs, hchannels]

end Model

/-- Flags announce exactly what they are made for. -/
theorem CompileOptions.contains_flags (o : CompileOptions) (hasPoints isExtension : Bool) :
    (o.flags hasPoints isExtension).contains .isExtension = isExtension ∧
      (o.flags hasPoints isExtension).contains .continuationPoints = hasPoints ∧
      (o.flags hasPoints isExtension).contains .debugInfo = o.debugInfo ∧
      Flags.all.contains (o.flags hasPoints isExtension) = true := by
  unfold flags
  cases o.debugInfo <;> cases o.compress <;> cases hasPoints <;> cases isExtension <;> decide

/-- The limits that a checked document can exceed, and what is reported then. -/
inductive LimitExceeded (p : Typed.Program) (g : BlockGraph) : Problem → Prop
  | locals (h : 0xffff < g.localCount) : LimitExceeded p g (.tooManyLocals g.localCount)
  | table (kind : TableKind)
      (h : Word.maxOperand < (Assembly.emission g p.points).tableSize p.strings.size kind) :
      LimitExceeded p g
        (.tableTooLarge kind ((Assembly.emission g p.points).tableSize p.strings.size kind))
  /-- An expression that has code needs too deep a stack. -/
  | stack {e : Scalar} (he : e ∈ g.values) (h : StackDepth.limit < e.stackNeed) :
      LimitExceeded p g (.stackAnalysis (.tooDeep StackDepth.limit))

/-- What can stand in the way of a model, and what is reported then. Only expressions of blocks that
can be reached count. -/
inductive BlockGraph.Oversized (strings : Nat) (g : BlockGraph) : Problem → Prop
  | locals (h : 0xffff < g.localCount) : Oversized strings g (.tooManyLocals g.localCount)
  | code (h : Word.maxOperand < (g.labels g.layout).length) :
      Oversized strings g (.tableTooLarge .code (g.labels g.layout).length)
  | strings (h : Word.maxOperand < strings) :
      Oversized strings g (.tableTooLarge .strings strings)
  | stack {i : Nat} {e : Scalar} (hi : g.Leads entry i) (he : e ∈ (g.block i).values)
      (h : StackDepth.limit < e.stackNeed) :
      Oversized strings g (.stackAnalysis (.tooDeep StackDepth.limit))

theorem BlockGraph.Oversized.limitExceeded {p : Typed.Program} {g : BlockGraph} {rank : Nat → Nat}
    {cause : Problem} (hordered : g.Ordered rank) (h : g.Oversized p.strings.size cause) :
    LimitExceeded p g cause := by
  cases h with
  | locals h => exact .locals h
  | code h =>
    rw [← Assembly.size_emission g p.points] at h ⊢
    exact .table .code h
  | strings h => exact .table .strings h
  | stack hi he h =>
    have hmem := hordered.mem_dropUnreachable.2 hi
    rw [layout_dropUnreachable] at hmem
    exact .stack (mem_values (List.mem_filter.1 hmem).1 he) h

namespace Typed

variable {registry : Registry} {d : Document} {p : Program} {names : Names} {graph : FlowGraph}

theorem encodable_slots (s : Schema) {locals : Nat} (h : locals ≤ 0xffff) :
    Extent.Encodable ⟨s.inputSize, s.outputSize, locals⟩ := by
  have hmax : 0x10002 ≤ Word.maxOperand := by decide
  refine ⟨Nat.le_trans (Schema.inputSize_le_iff.2 fun e _ => ?_) hmax,
    Nat.le_trans (Schema.outputSize_le_iff.2 ⟨fun e _ => ?_, fun c _ => ?_⟩) hmax,
    Nat.le_trans h (by decide)⟩
  · exact slot_add_width_le ..
  · exact slot_add_width_le ..
  · exact Nat.max_le.2 ⟨slot_add_width_le .., slot_add_width_le _ .number⟩

theorem checkFlags_assembled (p : Program) (o : CompileOptions) (id : ModelId) (g : BlockGraph)
    (a : Assembly) (maxStack : Nat) : (p.assembled o id g a maxStack).checkFlags = .ok () := by
  obtain ⟨hextension, hpoints, hdebug, -⟩ :=
    o.contains_flags (!a.points.isEmpty) p.extends?.isSome
  have hmap : (if o.debugInfo then some a.debug else none).isSome = o.debugInfo := by
    cases o.debugInfo <;> rfl
  simp only [Model.checkFlags, Program.assembled, Model.hasPoints, hextension, hpoints, hdebug,
    hmap, ne_eq, not_true_eq_false, if_false]

/-- A checked document has a model that passes the check, unless something stands in its way. -/
theorem Checked.toModel_or_oversized (h : Checked registry d p names graph) (o : CompileOptions)
    (id : ModelId) :
    (∃ m, p.toModel o id = .ok m ∧ m.check = .ok () ∧ m.version = Model.formatVersion ∧
      Flags.all.contains m.flags = true) ∨
    ∃ cause, p.toModel o id = .error cause ∧
      (p.toBlocks.optimize o.level).Oversized p.strings.size cause := by
  obtain ⟨rank, hrank, hordered⟩ := h.ordered
  obtain ⟨rank, hordered, hentry, hreaching⟩ := (hordered.optimize o.level).reaching
  rw [hrank] at hentry hreaching
  have hwithin := (BlockGraph.optimize_improves False o.level h.within_slots False.elim).2
  unfold Program.toModel
  dsimp only
  -- from here on it does not matter how the graph was made
  generalize p.toBlocks.optimize o.level = g at hordered hwithin hreaching ⊢
  by_cases hlocals : 0xffff < g.localCount
  · rw [if_pos hlocals]
    exact .inr ⟨_, rfl, .locals hlocals⟩
  rw [if_neg hlocals]
  have henc := encodable_slots p.schema (Nat.le_of_not_lt hlocals)
  rcases Assembly.ofBlocks_of_ordered p.points p.strings.size hordered hwithin henc with
    ⟨kind, hkind, herror, hlt⟩ | ⟨a, ha, R, hconstants, henters⟩
  · rw [herror]
    refine .inr ⟨_, rfl, ?_⟩
    rcases hkind with rfl | rfl
    · rw [Assembly.State.tableSize, Assembly.size_emission] at hlt ⊢
      exact .code hlt
    · exact .strings hlt
  rw [ha]
  rcases R.analyze_stack henters with ⟨required, hlimit, hrequired⟩ | ⟨herror, i, hi, e, he, hneed⟩
  · let m := p.assembled o id g a required
    have hstart : a.entry.toUInt32.toNat = a.entry := Assembly.toNat_toUInt32_of_le
      (Nat.le_trans (Nat.le_of_lt (R.lt_size_of_enters henters)) R.size_le)
    have hlocalCount : g.localCount.toUInt16.toNat = g.localCount :=
      Nat.mod_eq_of_lt (by omega)
    have hmaxStack : required.toUInt16.toNat = required :=
      Nat.mod_eq_of_lt (Nat.lt_of_le_of_lt hlimit (by decide))
    have hcallDepth : p.callDepth.toUInt16.toNat = p.callDepth :=
      Nat.mod_eq_of_lt (Nat.lt_of_le_of_lt h.callDepth_le (by decide))
    have hsizes : m.tableSizes = (Assembly.emission g p.points).tableSizes (g.extent p.slots) := by
      simp only [m, Model.tableSizes, Program.assembled, Assembly.State.tableSizes, hlocalCount,
        hconstants, R.size_code, mapM_array_size R.points_eq]
      rfl
    have hcheck : m.check = .ok () := by
      refine R.check_eq_ok rfl rfl hsizes (checkFlags_assembled ..)
        (Model.checkSchema_of_suits h.suits) ?_ ?_ hlimit hmaxStack ?_
      · rwa [show m.entry.toNat = a.entry from hstart]
      · rwa [show m.entry.toNat = a.entry from hstart]
      · rw [hentry, show m.maxCallDepth.toNat = p.callDepth from hcallDepth]
    refine .inl ⟨m, ?_, hcheck, rfl, (o.contains_flags ..).2.2.2⟩
    simp only [bind, Except.bind, pure, Except.pure, hrequired]
    split
    · rfl
    · next e herror => cases herror.symm.trans hcheck
  · refine .inr ⟨_, ?_, .stack (hreaching i (hentry ▸ hi)) he hneed⟩
    simp only [bind, Except.bind, herror]
    rfl

theorem Checked.toModel (h : Checked registry d p names graph) (o : CompileOptions) (id : ModelId) :
    (∃ m, p.toModel o id = .ok m ∧ m.check = .ok () ∧ m.version = Model.formatVersion ∧
      Flags.all.contains m.flags = true) ∨
    ∃ cause, p.toModel o id = .error cause ∧
      LimitExceeded p (p.toBlocks.optimize o.level) cause := by
  obtain ⟨rank, -, hordered⟩ := h.ordered
  refine (h.toModel_or_oversized o id).imp_right ?_
  rintro ⟨cause, herror, hoversized⟩
  exact ⟨cause, herror, hoversized.limitExceeded (hordered.optimize _)⟩

end Typed

/-- Compiling a checked document gives a model that the loader accepts, or names the one limit that
the document exceeds. -/
theorem compile_of_check {registry : Registry} {d : Document} {p : Typed.Program}
    (h : Typed.check registry d = .ok p) (o : CompileOptions) :
    (∃ m, compile registry o d = .ok m ∧ m.check = .ok () ∧
      ∀ codec raw bytes, codec.Lossless → m.encodePayload = .ok raw →
        raw.length ≤ Stored.maxPayload → m.encode codec = .ok bytes →
          Model.load codec bytes = .ok m) ∨
    ∃ cause, compile registry o d = .error [⟨cause, {}⟩] ∧ cause.kind = .limit ∧
      LimitExceeded p (p.toBlocks.optimize o.clamp.level) cause := by
  obtain ⟨names, graph, hp⟩ := Typed.check_ok h
  rcases hp.toModel o.clamp (o.clamp.id?.getD (.ofName d.name)) with
    ⟨m, hm, hcheck, hversion, hflags⟩ | ⟨cause, herror, hexceeded⟩
  · refine .inl ⟨m, ?_, hcheck, fun codec raw bytes hcodec hraw hsize hbytes => ?_⟩
    · refine bind_eq_ok.2 ⟨p, h, ?_⟩
      rw [hm]
      rfl
    · obtain ⟨hextension, hdebug⟩ := Model.flags_of_check hcheck
      exact bind_eq_ok.2 ⟨m,
        Model.decode_encode hcodec hversion hflags hextension hdebug hraw hsize hbytes,
        bind_eq_ok.2 ⟨⟨⟩, hcheck, rfl⟩⟩
  · refine .inr ⟨cause, ?_, ?_, hexceeded⟩
    · simp only [compile, h, bind, Except.bind, herror]
      rfl
    · cases hexceeded <;> rfl

/-- The first flow has no code of its own, so it starts where the flow it leads to does. The jump at
the end of that flow has no code either. -/
def relay : Document where
  name := "relay"
  flows := [⟨"main", [.goto {} "next"], {}⟩,
    ⟨"next", [.call {} "rest", .wait {} (.var {} "a"), .goto {} "rest"], {}⟩,
    ⟨"rest", [.assign {} "b" (.var {} "a")], {}⟩]

def relayRegistry : Registry where
  declared := [("a", ⟨.number, .input⟩), ("b", ⟨.number, .output⟩)]

theorem compile_of_check_relay :
    ∃ m, compile relayRegistry {} relay = .ok m ∧ m.check = .ok () ∧
      ∀ codec raw bytes, codec.Lossless → m.encodePayload = .ok raw →
        raw.length ≤ Stored.maxPayload → m.encode codec = .ok bytes →
          Model.load codec bytes = .ok m := by
  have hchecks : (Typed.check relayRegistry relay).toOption.isSome = true := by cbv
  have hcompiles : (compile relayRegistry {} relay).toOption.isSome = true := by cbv
  cases h : Typed.check relayRegistry relay with
  | error e =>
    rw [h] at hchecks
    cases hchecks
  | ok p =>
    rcases compile_of_check h {} with hm | ⟨cause, herror, -⟩
    · exact hm
    · rw [herror] at hcompiles
      cases hcompiles

end Behavior
